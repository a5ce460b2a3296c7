import Citicash.Basic.TxExtra
import Mathlib.Data.List.AList

/-!
# The transaction pool

`tx_memory_pool` of `cryptonote_core/tx_pool.cpp`: the pool's transactions,
the key images and aliases they claim, and the index by fee that `take_tx`
also removes from.  `add_tx` and `take_tx` are modelled with every check and
every early `return false`, including the ones that leave part of an update
behind.

The checks `add_tx` asks of the blockchain (the fee, the outputs, the inputs
against the chain, an alias already on the chain) are passed in as
`PoolChecks`, evaluated by the caller at the chain's current state.  The fee
ratio and the receive time that order `m_txs_by_fee_and_receive_time` are
not modelled, only the set of ids in it; nothing modelled reads the order.
-/

namespace Citicash
namespace CryptonoteCore

open Cryptonote

/-- `tx_memory_pool::tx_details`: the fields the modelled operations read
or return. -/
structure TxDetails where
  tx : Transaction
  blobSize : Nat
  fee : UInt64
  keptByBlock : Bool
  relayed : Bool
  deriving DecidableEq, Repr

/-- `tx_memory_pool`'s containers. -/
structure TxMemoryPool where
  transactions : AList fun _ : Hash => TxDetails
  spentKeyImages : AList fun _ : KeyImage => Finset Hash
  pendingAliases : AList fun _ : Bytes => Finset Hash
  txsByFeeAndReceiveTime : Finset Hash
  timedOutTransactions : Finset Hash

/-- An empty pool. -/
def TxMemoryPool.empty : TxMemoryPool := ⟨∅, ∅, ∅, ∅, ∅⟩

/-- What `add_tx` asks of the blockchain: `check_fee`, `check_tx_outputs`,
`check_tx_inputs` (told whether the transaction comes from a block) and
`get_alias_address` on the store. -/
structure PoolChecks where
  checkFee : Nat → UInt64 → Bool
  checkTxOutputs : Transaction → Bool
  checkTxInputs : Bool → Transaction → Bool
  getAliasAddress : Bytes → Bytes

/-- `TRANSACTION_SIZE_LIMIT`, `(size_t)(0.5*1024*1024)`. -/
def transactionSizeLimit : Nat := 524288

/-- `DEFAULT_MIXIN` and `MAX_MIXIN`. -/
def defaultMixin : Nat := 6
def maxMixin : Nat := 240

/-- How the mixin loop of `add_tx` ends. -/
inductive MixinCheck
  | ok
  | tooLow
  | tooHigh
  deriving DecidableEq, Repr

/-- The mixin loop of `add_tx`: the first `txin_to_key` whose ring size
minus one (a `size_t`, so an empty ring wraps) is below `DEFAULT_MIXIN` or
above `MAX_MIXIN` decides.  An input of another kind makes `add_tx` return
`false` (`CHECKED_GET_SPECIFIC_VARIANT`): `none`. -/
def mixinCheck : List TxinV → Option MixinCheck
  | [] => some .ok
  | .txinToKey input :: rest =>
      let mixin := (input.keyOffsets.length + 2 ^ 64 - 1) % 2 ^ 64
      if mixin < defaultMixin then some .tooLow
      else if maxMixin < mixin then some .tooHigh
      else mixinCheck rest
  | _ :: _ => none

/-- The alias `add_tx` reads from a registration, after `convert_alias`;
empty when the transaction registers none. -/
def poolAlias (tx : Transaction) : Bytes :=
  (registeredAlias tx).getD []

/-- `have_tx_keyimges_as_spent`: some input's key image is claimed by a pool
transaction (an input that is no `txin_to_key` counts as claimed). -/
def haveTxKeyimgesAsSpent (pool : TxMemoryPool) (tx : Transaction) : Bool :=
  tx.vin.any fun
    | .txinToKey input => input.kImage ∈ pool.spentKeyImages
    | _ => true

/-- `has_alias`. -/
def hasAlias (pool : TxMemoryPool) (name : Bytes) : Bool :=
  name ∈ pool.pendingAliases

/-- Record `id` in the set under `key` (`map[key].insert(id)`): refused when
the set is not empty and the transaction does not come from a block, or when
`id` is already there.  `operator[]` creates the set only when it is then
filled, so a refusal leaves the map as it was. -/
def claim {κ : Type} [DecidableEq κ] (keptByBlock : Bool) (id : Hash)
    (sets : AList fun _ : κ => Finset Hash) (key : κ) :
    Option (AList fun _ : κ => Finset Hash) :=
  let set := (sets.lookup key).getD ∅
  if !keptByBlock ∧ set.Nonempty then none
  else if id ∈ set then none
  else some (sets.insert key (insert id set))

/-- The key-image loop of `add_tx`: claim the key image of every input, in
order; `false` at the first refusal, with the claims made so far kept. -/
def claimKeyImages (keptByBlock : Bool) (id : Hash) :
    List TxinV → (AList fun _ : KeyImage => Finset Hash) →
      Bool × (AList fun _ : KeyImage => Finset Hash)
  | [], spent => (true, spent)
  | .txinToKey input :: rest, spent =>
      match claim keptByBlock id spent input.kImage with
      | some spent' => claimKeyImages keptByBlock id rest spent'
      | none => (false, spent)
  | _ :: _, spent => (false, spent)

/-- The checks of `add_tx` up to `check_tx_outputs`; `some` carries the fee.
What follows is the inputs check, which the chain answers with a side
effect of its own. -/
def addTxChecksBeforeInputs (checks : PoolChecks) (pool : TxMemoryPool)
    (tx : Transaction) (id : Hash) (blobSize : Nat) (keptByBlock : Bool) :
    Option UInt64 := do
  if tx.version < 2 then none
  if !keptByBlock ∧ id ∈ pool.timedOutTransactions then none
  if !tx.checkInputsTypesSupported then none
  let fee := tx.rctSignatures.txnFee
  if !keptByBlock ∧ !checks.checkFee blobSize fee then none
  if !keptByBlock ∧ transactionSizeLimit ≤ blobSize then none
  let mixin ← mixinCheck tx.vin
  if !keptByBlock ∧ mixin = .tooLow then none
  if !keptByBlock ∧ mixin = .tooHigh then none
  let name := poolAlias tx
  if !keptByBlock ∧ haveTxKeyimgesAsSpent pool tx then none
  if !keptByBlock ∧ !name.isEmpty ∧ hasAlias pool name then none
  if !checks.checkTxOutputs tx then none
  pure fee

/-- The checks of `add_tx` before it touches the pool; `some` carries the
fee and whether the transaction goes in as verified (`false`: kept by block
although its inputs or alias fail now). -/
def addTxPrecheck (checks : PoolChecks) (pool : TxMemoryPool)
    (tx : Transaction) (id : Hash) (blobSize : Nat) (keptByBlock : Bool) :
    Option (UInt64 × Bool) := do
  let fee ← addTxChecksBeforeInputs checks pool tx id blobSize keptByBlock
  let name := poolAlias tx
  let inputsOk := checks.checkTxInputs keptByBlock tx
  let aliasDuplicity := !name.isEmpty ∧ !(checks.getAliasAddress name).isEmpty
  if (!inputsOk ∨ aliasDuplicity) ∧ !keptByBlock then none
  pure (fee, inputsOk ∧ !aliasDuplicity)

/-- `tx_memory_pool::add_tx(tx, id, blob_size, tvc, kept_by_block, relayed,
version)`: the checks, then the transaction, its key images, its alias and
its id in the fee index, each step able to stop the insertion half way. -/
def addTx (checks : PoolChecks) (tx : Transaction) (id : Hash) (blobSize : Nat)
    (keptByBlock relayed : Bool) (pool : TxMemoryPool) : Bool × TxMemoryPool :=
  match addTxPrecheck checks pool tx id blobSize keptByBlock with
  | none => (false, pool)
  | some (fee, _) =>
      if id ∈ pool.transactions then (false, pool)
      else
        let pool := { pool with
          transactions :=
            pool.transactions.insert id
              ⟨tx, blobSize, fee, keptByBlock, relayed⟩ }
        match claimKeyImages keptByBlock id tx.vin pool.spentKeyImages with
        | (false, spent) => (false, { pool with spentKeyImages := spent })
        | (true, spent) =>
            let pool := { pool with spentKeyImages := spent }
            let name := poolAlias tx
            if name.isEmpty then
              (true,
                { pool with
                  txsByFeeAndReceiveTime :=
                    insert id pool.txsByFeeAndReceiveTime })
            else
              match claim keptByBlock id pool.pendingAliases name with
              | none => (false, pool)
              | some pendingAliases =>
                  (true, { pool with
                    pendingAliases
                    txsByFeeAndReceiveTime :=
                      insert id pool.txsByFeeAndReceiveTime })

/-- Drop `id` from the set under `key`, and the set once it is empty;
`none` when the set or `id` is missing. -/
def release {κ : Type} [DecidableEq κ] (id : Hash)
    (sets : AList fun _ : κ => Finset Hash) (key : κ) :
    Option (AList fun _ : κ => Finset Hash) := do
  let set ← sets.lookup key
  if set = ∅ ∨ id ∉ set then none
  let set := set.erase id
  pure (if set = ∅ then sets.erase key else sets.insert key set)

/-- `remove_transaction_keyimages`: release every input's key image from the
transaction's hash, in order; the first failure stops the loop and keeps
what was released before it. -/
def removeTransactionKeyimages (txHash : Hash) :
    List TxinV → (AList fun _ : KeyImage => Finset Hash) →
      (AList fun _ : KeyImage => Finset Hash)
  | [], spent => spent
  | .txinToKey input :: rest, spent =>
      match release txHash spent input.kImage with
      | some spent' => removeTransactionKeyimages txHash rest spent'
      | none => spent
  | _ :: _, spent => spent

/-- `remove_transaction_alias`. -/
def removeTransactionAlias (txHash : Hash) (tx : Transaction)
    (pendingAliases : AList fun _ : Bytes => Finset Hash) :
    AList fun _ : Bytes => Finset Hash :=
  match aliasNonces tx.extra with
  | none => pendingAliases
  | some nonces =>
      (release txHash pendingAliases
        (convertAlias nonces.name)).getD pendingAliases

/-- `take_tx`: the transaction under `id`, which must also be in the fee
index; its key images and alias are released under its own hash. -/
def takeTx (getTransactionHash : Transaction → Hash) (id : Hash)
    (pool : TxMemoryPool) : Option TxDetails × TxMemoryPool :=
  match pool.transactions.lookup id with
  | none => (none, pool)
  | some details =>
      if id ∉ pool.txsByFeeAndReceiveTime then (none, pool)
      else
        let txHash := getTransactionHash details.tx
        (some details,
          { pool with
            spentKeyImages :=
              removeTransactionKeyimages txHash details.tx.vin
                pool.spentKeyImages
            pendingAliases :=
              removeTransactionAlias txHash details.tx pool.pendingAliases
            transactions := pool.transactions.erase id
            txsByFeeAndReceiveTime := pool.txsByFeeAndReceiveTime.erase id })

/-- One round of `remove_stuck_transactions`: an outdated transaction gives
back its key images and alias under its hash, leaves the fee index and the
pool under its id, and is remembered as timed out. -/
def removeStuckStep (getTransactionHash : Transaction → Hash)
    (outdated : TxDetails → Bool) (pool : TxMemoryPool)
    (entry : Sigma fun _ : Hash => TxDetails) : TxMemoryPool :=
  if outdated entry.2 then
    let txHash := getTransactionHash entry.2.tx
    { pool with
      spentKeyImages :=
        removeTransactionKeyimages txHash entry.2.tx.vin pool.spentKeyImages
      pendingAliases :=
        removeTransactionAlias txHash entry.2.tx pool.pendingAliases
      txsByFeeAndReceiveTime := pool.txsByFeeAndReceiveTime.erase entry.1
      timedOutTransactions := insert entry.1 pool.timedOutTransactions
      transactions := pool.transactions.erase entry.1 }
  else pool

/-- `remove_stuck_transactions`, over the transactions in one order of the
hash map; `outdated` is the age test against `CRYPTONOTE_MEMPOOL_TX_LIVETIME`
or, kept by block, `CRYPTONOTE_MEMPOOL_TX_FROM_ALT_BLOCK_LIVETIME`. -/
def removeStuckTransactions (getTransactionHash : Transaction → Hash)
    (outdated : TxDetails → Bool) (pool : TxMemoryPool) : TxMemoryPool :=
  pool.transactions.entries.foldl
    (removeStuckStep getTransactionHash outdated) pool

/-- One round of `validate`: a transaction too big for `TRANSACTION_SIZE_LIMIT`
or already in the chain gives back its key images and leaves the fee index
under its hash and the pool under its id.  Its pending alias is not given
back. -/
def validateStep (getTransactionHash : Transaction → Hash)
    (haveTxOnChain : Hash → Bool) (acc : Nat × TxMemoryPool)
    (entry : Sigma fun _ : Hash => TxDetails) : Nat × TxMemoryPool :=
  let txid := getTransactionHash entry.2.tx
  if transactionSizeLimit ≤ entry.2.blobSize ∨ haveTxOnChain txid = true then
    (acc.1 + 1, { acc.2 with
      spentKeyImages :=
        removeTransactionKeyimages txid entry.2.tx.vin acc.2.spentKeyImages
      txsByFeeAndReceiveTime := acc.2.txsByFeeAndReceiveTime.erase txid
      transactions := acc.2.transactions.erase entry.1 })
  else acc

/-- `tx_memory_pool::validate(version)`: how many transactions it removed,
and the pool left. -/
def validate (getTransactionHash : Transaction → Hash)
    (haveTxOnChain : Hash → Bool) (pool : TxMemoryPool) : Nat × TxMemoryPool :=
  pool.transactions.entries.foldl
    (validateStep getTransactionHash haveTxOnChain) (0, pool)

/-- `validate` gives back no pending alias: every alias a removed transaction
registered stays claimed by its id. -/
theorem validate_pendingAliases (getTransactionHash : Transaction → Hash)
    (haveTxOnChain : Hash → Bool) (pool : TxMemoryPool) :
    (validate getTransactionHash haveTxOnChain pool).2.pendingAliases =
      pool.pendingAliases := by
  have round : ∀ acc entry,
      (validateStep getTransactionHash haveTxOnChain acc
        entry).2.pendingAliases = acc.2.pendingAliases := by
    intro acc entry
    unfold validateStep
    dsimp only
    split <;> rfl
  -- the rounds run over the entries of the pool as it was
  have rounds : ∀ (entries : List (Sigma fun _ : Hash => TxDetails))
      (acc : Nat × TxMemoryPool),
      (entries.foldl (validateStep getTransactionHash haveTxOnChain)
        acc).2.pendingAliases =
        acc.2.pendingAliases := by
    intro entries
    induction entries with
    | nil => intro acc; rfl
    | cons entry rest ih =>
        intro acc
        rw [List.foldl_cons, ih, round]
  exact rounds _ _

/-- `have_tx`. -/
def haveTx (pool : TxMemoryPool) (id : Hash) : Bool :=
  id ∈ pool.transactions

/-! ## What the pool holds -/

/-- Every transaction in the pool has only `txin_to_key` inputs: `add_tx`
checks it before anything else goes in. -/
def OnlyToKeyInputs (pool : TxMemoryPool) : Prop :=
  ∀ id details, pool.transactions.lookup id = some details →
    details.tx.checkInputsTypesSupported = true

theorem addTxChecksBeforeInputs_supported {checks : PoolChecks}
    {pool : TxMemoryPool} {tx : Transaction} {id : Hash} {blobSize : Nat}
    {keptByBlock : Bool} {fee : UInt64}
    (passed : addTxChecksBeforeInputs checks pool tx id blobSize
      keptByBlock = some fee) :
    tx.checkInputsTypesSupported = true := by
  unfold addTxChecksBeforeInputs at passed
  by_contra unsupported
  simp [unsupported] at passed

theorem addTxPrecheck_supported {checks : PoolChecks} {pool : TxMemoryPool}
    {tx : Transaction} {id : Hash} {blobSize : Nat} {keptByBlock : Bool}
    {result : UInt64 × Bool}
    (passed : addTxPrecheck checks pool tx id blobSize
      keptByBlock = some result) :
    tx.checkInputsTypesSupported = true := by
  unfold addTxPrecheck at passed
  obtain ⟨fee, before, -⟩ := Option.bind_eq_some_iff.mp passed
  exact addTxChecksBeforeInputs_supported before

/-- After `add_tx` the pool's transactions are the old ones, or the old ones
and the new transaction, which then passed every check. -/
theorem addTx_transactions {checks : PoolChecks} {tx : Transaction} {id : Hash}
    {blobSize : Nat} {keptByBlock relayed : Bool} {pool : TxMemoryPool} :
    (addTx checks tx id blobSize keptByBlock relayed pool).2.transactions =
      pool.transactions ∨ ∃ fee verified,
        addTxPrecheck checks pool tx id blobSize keptByBlock =
          some (fee, verified) ∧
            (addTx checks tx id blobSize keptByBlock relayed
              pool).2.transactions =
          pool.transactions.insert id
            ⟨tx, blobSize, fee, keptByBlock, relayed⟩ := by
  unfold addTx
  split
  · exact .inl rfl
  · rename_i fee verified passed
    split
    · exact .inl rfl
    · refine .inr ⟨fee, verified, passed, ?_⟩
      -- every later step, refused or not, keeps the inserted transaction
      dsimp only
      split
      · rfl
      · split
        · rfl
        · split <;> rfl

/-- `add_tx` keeps every pool transaction's inputs `txin_to_key`. -/
theorem addTx_onlyToKeyInputs {checks : PoolChecks}
    {tx : Transaction} {id : Hash} {blobSize : Nat} {keptByBlock relayed : Bool}
    {pool : TxMemoryPool} (holds : OnlyToKeyInputs pool) :
    OnlyToKeyInputs
      (addTx checks tx id blobSize keptByBlock relayed pool).2 := by
  intro other details found
  rcases addTx_transactions with unchanged | ⟨fee, verified, passed, inserted⟩
  · rw [unchanged] at found
    exact holds other details found
  · rw [inserted] at found
    by_cases same : other = id
    · subst same
      simp only [AList.lookup_insert, Option.some.injEq] at found
      rw [← found]
      exact addTxPrecheck_supported passed
    · rw [AList.lookup_insert_ne same] at found
      exact holds other details found

/-- `take_tx` keeps every pool transaction's inputs `txin_to_key`, and what
it hands out is one of them. -/
theorem takeTx_onlyToKeyInputs
    {getTransactionHash : Transaction → Hash} {id : Hash} {pool : TxMemoryPool}
    (holds : OnlyToKeyInputs pool) :
    OnlyToKeyInputs (takeTx getTransactionHash id pool).2 ∧
      ∀ details, (takeTx getTransactionHash id pool).1 = some details →
        details.tx.checkInputsTypesSupported = true := by
  unfold takeTx
  split
  · exact ⟨holds, by simp⟩
  · rename_i details found
    split
    · exact ⟨holds, by simp⟩
    · refine ⟨fun other otherDetails stillThere => ?_, ?_⟩
      · by_cases same : other = id
        · subst same
          simp at stillThere
        · rw [AList.lookup_erase_ne same] at stillThere
          exact holds other otherDetails stillThere
      · rintro _ ⟨⟩
        exact holds id details found

/-! ## A refusal after the insertion -/

/-- A transaction that spends one key image in two inputs, offered as kept
by a block (as the importer offers each transaction of a block it verifies)
to an empty pool whose chain checks pass: the key-image loop refuses the
second input, whose id is already in the image's set, after the transaction
went into `m_transactions`, so `add_tx` returns `false` and leaves the
transaction in the pool, its key image claimed, and its id outside the fee
index. -/
theorem addTx_repeated_key_image_leaves_transaction :
    let input : TxinV := .txinToKey ⟨0, List.replicate 7 0, default⟩
    let tx : Transaction :=
      { (default : Transaction) with version := 2, vin := [input, input] }
    let checks : PoolChecks :=
      ⟨fun _ _ => true, fun _ => true, fun _ _ => true, fun _ => []⟩
    let result := addTx checks tx default 100 true true TxMemoryPool.empty
    result.1 = false ∧ TxMemoryPool.empty.transactions.keys = [] ∧
      result.2.transactions.keys = [default] ∧
      result.2.txsByFeeAndReceiveTime = ∅ ∧
      result.2.spentKeyImages.lookup default = some {default} := by
  decide

end CryptonoteCore
end Citicash
