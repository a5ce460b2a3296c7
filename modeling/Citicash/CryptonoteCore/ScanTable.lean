import Citicash.BlockchainDb.Lmdb
import Citicash.CryptonoteCore.FormatUtils
import Citicash.CryptonoteProtocol.Handler
import Mathlib.Data.List.Sort
import Mathlib.Data.List.Destutter

/-!
# The batch prefetch of output keys

`Blockchain::prepare_handle_incoming_blocks` fills `m_scan_table` before a batch
of blocks from a peer is handled: under each transaction of the batch (by prefix
hash) and each of its inputs (by key image), the outputs of the input's ring,
fetched in bulk per amount.  `scan_outputkeys_for_indexes`, called by
`check_tx_input` while the blocks are handled, takes a ring from the table when
it finds one, tops up a partial one from the store, and reads the store
otherwise.

Both passes over the batch call `boost::get<txin_to_key>` on every input of
transactions no check has looked at, so a transaction with another kind of
input makes `prepare_handle_incoming_blocks` throw `boost::bad_get`.  When it
does not throw and the store reads as it did when the table was filled, the
table changes no ring of an input whose key image no earlier input of its
transaction carries; an input that repeats a key image is handed the ring of
the earlier input.

The store is read through a function from amount and absolute offset to the
output there (`getOutputKey` is the store's).  The longhash precomputation of
the threaded block pass, `m_cancel`, `m_check_txin_table` and the timing
statistics are not modelled.
-/

namespace Citicash
namespace CryptonoteCore

open Cryptonote CryptonoteProtocol

/-- `output_data_t`. -/
structure OutputData where
  pubkey : PublicKey
  unlockTime : UInt64
  height : Nat
  commitment : Key
  deriving DecidableEq, Repr

/-- `BlockchainLMDB::get_output_key(amount, index)`: the row with that amount
index under the amount.  Rows of a nonzero amount are stored without a
commitment; it is `rct::zeroCommit(amount)`. -/
def getOutputKey (zeroCommit : UInt64 → Key) (db : BlockchainDb.BlockchainLmdb)
    (amount index : UInt64) : Option OutputData :=
  (AppendTable.get (db.tables.outputAmounts amount)
    index.toNat).map fun outKey =>
    { pubkey := outKey.pubkey
      unlockTime := outKey.unlockTime
      height := outKey.height
      commitment :=
        if amount = 0 then outKey.commitment.getD default
          else zeroCommit amount }

/-- `m_scan_table`: under each transaction prefix hash, the outputs fetched for
each key image. -/
abbrev ScanTable :=
  AList fun _ : Hash => AList fun _ : KeyImage => List OutputData

/-- The entry `scan_outputkeys_for_indexes` looks for: under the transaction's
prefix hash, then under the input's key image. -/
def ScanTable.find (table : ScanTable) (txPrefixHash : Hash)
    (kImage : KeyImage) : Option (List OutputData) :=
  (table.lookup txPrefixHash).bind fun entry => entry.lookup kImage

section Reads

variable (read : UInt64 → UInt64 → Option OutputData)

/-- The bulk `get_output_key(amount, offsets, outputs)`: the outputs at the
offsets in order, pushed until the first offset with no output, where the
source throws `OUTPUT_DNE`; the flag says that no offset was missing. -/
def getOutputKeys (amount : UInt64) : List UInt64 → List OutputData × Bool
  | [] => ([], true)
  | index :: rest =>
    match read amount index with
    | none => ([], false)
    | some output =>
      let fetched := getOutputKeys amount rest
      (output :: fetched.1, fetched.2)

/-- The loop of `scan_outputkeys_for_indexes` over the absolute offsets from
position `count`: the output fetched at that position if there is one, else a
read of the store.  Each goes to `handle_output` of `check_tx_input`'s visitor,
which refuses an output still locked, and none may come from block zero.  The
outputs handed to the visitor, or `none` where the source returns `false`. -/
def visitOutputs (unlocked : UInt64 → Bool) (amount : UInt64)
    (outputs : List OutputData) : Nat → List UInt64 → Option (List OutputData)
  | _, [] => some []
  | count, index :: rest => do
    let output ← outputs[count]?.or (read amount index)
    if !unlocked output.unlockTime then none
    else if output.height < 1 then none
    else (output :: ·) <$> visitOutputs unlocked amount outputs (count + 1) rest

/-- `scan_outputkeys_for_indexes`: the outputs of the input's ring handed to the
visitor, or `none` where the source returns `false`.  A ring found in the table
is used as it is, or topped up from the store when it is partial and not empty;
otherwise the ring is read in bulk, and a missing output ends the scan. -/
def scanOutputkeysForIndexes (table : ScanTable) (unlocked : UInt64 → Bool)
    (txInToKey : TxinToKey) (txPrefixHash : Hash) : Option (List OutputData) :=
  if txInToKey.keyOffsets.isEmpty then none
  else
    let absoluteOffsets := relativeOutputOffsetsToAbsolute txInToKey.keyOffsets
    let outputs : Option (List OutputData) :=
      match table.find txPrefixHash txInToKey.kImage with
      | none =>
        let fetched := getOutputKeys read txInToKey.amount absoluteOffsets
        if fetched.2 then some fetched.1 else none
      | some cached =>
        if cached.length < absoluteOffsets.length ∧ 0 < cached.length then
          let added :=
            getOutputKeys read txInToKey.amount
              (absoluteOffsets.drop cached.length)
          if added.2 then some (cached ++ added.1) else none
        else some cached
    outputs.bind fun outputs =>
      visitOutputs read unlocked txInToKey.amount outputs 0 absoluteOffsets

/-- `check_tx_input`: the input's ring as `ctkey`s, or `none` where the source
returns `false`.  `sig` is what the caller passes: `check_tx_inputs` passes no
signatures. -/
def checkTxInput (table : ScanTable) (unlocked : UInt64 → Bool)
    (txVersion : Nat) (txin : TxinToKey) (txPrefixHash : Hash)
    (sig : List Signature) :
    Option (List (Rct.CtKey Key)) := do
  let outputs ← scanOutputkeysForIndexes read table unlocked txin txPrefixHash
  let outputKeys :=
    outputs.map fun output =>
      (⟨output.pubkey, output.commitment⟩ : Rct.CtKey Key)
  if txin.keyOffsets.length ≠ outputKeys.length then none
  else if txVersion = 1 ∧ sig.length ≠ outputKeys.length then none
  else some outputKeys

/-! ### What a ring in the table changes -/

/-- The outputs agree with the store's reads at the offsets, position by
position, as far as both go. -/
def ReadsAgree (amount : UInt64) (offsets : List UInt64)
    (outputs : List OutputData) : Prop :=
  ∀ (j : Nat) index output, offsets[j]? = some index →
    outputs[j]? = some output →
    read amount index = some output

theorem readsAgree_nil (amount : UInt64) (offsets : List UInt64) :
    ReadsAgree read amount offsets [] := by
  intro j index output _ cached
  simp at cached

theorem readsAgree_cons {amount index : UInt64} {offsets : List UInt64}
    {output : OutputData} {outputs : List OutputData} :
    ReadsAgree read amount (index :: offsets) (output :: outputs) ↔
      read amount index = some output ∧
        ReadsAgree read amount offsets outputs := by
  constructor
  · intro agree
    exact ⟨agree 0 index output rfl rfl, fun j => agree (j + 1)⟩
  · rintro ⟨atHead, agree⟩ (_ | j) index' output' atOffset atOutput
    · simp only [List.getElem?_cons_zero, Option.some.injEq]
        at atOffset atOutput
      rw [← atOffset, ← atOutput]
      exact atHead
    · exact agree j index' output' atOffset atOutput

theorem ReadsAgree.drop {amount : UInt64} {offsets : List UInt64}
    {outputs : List OutputData}
    (agree : ReadsAgree read amount offsets outputs) (n : Nat) :
    ReadsAgree read amount (offsets.drop n) (outputs.drop n) := by
  intro j index output atOffset atOutput
  rw [List.getElem?_drop] at atOffset atOutput
  exact agree (n + j) index output atOffset atOutput

theorem ReadsAgree.append {amount : UInt64} {offsets : List UInt64}
    {cached added : List OutputData}
    (agree : ReadsAgree read amount offsets cached)
    (addedAgree : ReadsAgree read amount (offsets.drop cached.length) added) :
    ReadsAgree read amount offsets (cached ++ added) := by
  intro j index output atOffset atOutput
  by_cases inCached : j < cached.length
  · rw [List.getElem?_append_left inCached] at atOutput
    exact agree j index output atOffset atOutput
  · rw [List.getElem?_append_right (by omega)] at atOutput
    apply addedAgree (j - cached.length) index output _ atOutput
    rw [List.getElem?_drop, Nat.add_sub_cancel' (by omega)]
    exact atOffset

theorem getOutputKeys_readsAgree (amount : UInt64) (offsets : List UInt64) :
    ReadsAgree read amount offsets (getOutputKeys read amount offsets).1 := by
  induction offsets with
  | nil => exact readsAgree_nil read amount []
  | cons index rest ih =>
    cases atIndex : read amount index with
    | none =>
      simp only [getOutputKeys, atIndex]
      exact readsAgree_nil read amount _
    | some output =>
      simp only [getOutputKeys, atIndex]
      exact (readsAgree_cons read).2 ⟨atIndex, ih⟩

theorem getOutputKeys_missing {amount : UInt64} {offsets : List UInt64}
    (incomplete : (getOutputKeys read amount offsets).2 = false) :
    ∃ index ∈ offsets, read amount index = none := by
  induction offsets with
  | nil => simp [getOutputKeys] at incomplete
  | cons index rest ih =>
    cases atIndex : read amount index with
    | none => exact ⟨index, List.mem_cons_self, atIndex⟩
    | some output =>
      simp only [getOutputKeys, atIndex] at incomplete
      obtain ⟨missing, mem, absent⟩ := ih incomplete
      exact ⟨missing, List.mem_cons_of_mem _ mem, absent⟩

variable (unlocked : UInt64 → Bool) (amount : UInt64)

/-- A visit that takes outputs agreeing with the store hands the visitor what
reading the store would. -/
theorem visitOutputs_of_readsAgree {outputs : List OutputData}
    (offsets : List UInt64) :
    ∀ count, ReadsAgree read amount offsets (outputs.drop count) →
      visitOutputs read unlocked amount outputs count offsets =
        visitOutputs read unlocked amount [] count offsets := by
  induction offsets with
  | nil => intro count _; rfl
  | cons index rest ih =>
    intro count agree
    have taken : outputs[count]?.or (read amount index) =
        read amount index := by
      cases cached : outputs[count]? with
      | none => rfl
      | some output =>
        have stored := agree 0 index output rfl (by simpa using cached)
        rw [stored]
        rfl
    have restAgree :
        ReadsAgree read amount rest (outputs.drop (count + 1)) := by
      have dropped := agree.drop read 1
      simpa [List.drop_drop, Nat.add_comm] using dropped
    simp only [visitOutputs, taken, List.getElem?_nil, Option.none_or,
      ih (count + 1) restAgree]

/-- Reading the store, a missing output ends the scan. -/
theorem visitOutputs_nil_of_missing {offsets : List UInt64} {missing : UInt64}
    (mem : missing ∈ offsets) (absent : read amount missing = none) :
    ∀ count, visitOutputs read unlocked amount [] count offsets = none := by
  induction offsets with
  | nil => simp at mem
  | cons index rest ih =>
    intro count
    by_cases atMissing : index = missing
    · simp [visitOutputs, atMissing, absent]
    · have inRest : missing ∈ rest := by
        simpa [Ne.symm atMissing] using mem
      cases atIndex : read amount index with
      | none => simp [visitOutputs, atIndex]
      | some output => simp [visitOutputs, atIndex, ih inRest]

/-- A bulk read after outputs already agreeing with the store, then the visit:
what reading the store would give. -/
theorem bulk_visitOutputs {offsets : List UInt64} {cached : List OutputData}
    (agree : ReadsAgree read amount offsets cached) :
    (let added := getOutputKeys read amount (offsets.drop cached.length)
      if added.2 then some (cached ++ added.1) else none).bind
        (fun outputs => visitOutputs read unlocked amount outputs 0 offsets) =
      visitOutputs read unlocked amount [] 0 offsets := by
  cases complete :
    (getOutputKeys read amount (offsets.drop cached.length)).2 with
  | true =>
    have both := agree.append read (getOutputKeys_readsAgree read amount _)
    simp only [complete, if_true, Option.bind_some]
    exact visitOutputs_of_readsAgree read unlocked amount offsets 0
      (by simpa using both)
  | false =>
    obtain ⟨missing, mem, absent⟩ := getOutputKeys_missing read complete
    simp only [complete, Bool.false_eq_true, if_false, Option.bind_none]
    exact (visitOutputs_nil_of_missing read unlocked amount
      (List.mem_of_mem_drop mem) absent 0).symm

/-- Whatever the table holds for an input, as long as it agrees with the store,
the scan hands the visitor the store's outputs at the input's offsets. -/
theorem scanOutputkeysForIndexes_of_agrees (table : ScanTable)
    (input : TxinToKey) (txPrefixHash : Hash)
    (agree : ∀ cached, table.find txPrefixHash input.kImage = some cached →
      ReadsAgree read input.amount
        (relativeOutputOffsetsToAbsolute input.keyOffsets) cached) :
    scanOutputkeysForIndexes read table unlocked input txPrefixHash =
      if input.keyOffsets.isEmpty then none
      else visitOutputs read unlocked input.amount [] 0
        (relativeOutputOffsetsToAbsolute input.keyOffsets) := by
  unfold scanOutputkeysForIndexes
  split
  · rfl
  · cases found : table.find txPrefixHash input.kImage with
    | none =>
      simpa using bulk_visitOutputs read unlocked input.amount
        (readsAgree_nil read _ _)
    | some cached =>
      have cachedAgree := agree cached found
      simp only []
      split
      · exact bulk_visitOutputs read unlocked input.amount cachedAgree
      · exact visitOutputs_of_readsAgree read unlocked input.amount _ 0
          (by simpa using cachedAgree)

end Reads

/-! ## Filling the table -/

/-- The transaction loader and hash the scan calls:
`parse_and_validate_tx_from_blob` and `get_transaction_prefix_hash`. -/
structure TxFormat where
  parseAndValidateTxFromBlob : Bytes → Option Transaction
  getTransactionPrefixHash : Transaction → Hash

/-- `boost::bad_get`, thrown by `boost::get` on a variant that holds another
type. -/
structure BadGet where
  deriving DecidableEq, Repr

/-- The passes over the batch: `failure` is `SCAN_TABLE_QUIT` (the function
returns `false` with the table cleared), the exception `boost::bad_get`. -/
abbrev ScanM := OptionT (Except BadGet)

/-- `boost::get<txin_to_key>(txin)`. -/
def getTxinToKey : TxinV → ScanM TxinToKey
  | .txinToKey input => pure input
  | _ => throwThe BadGet {}

/-- `std::sort`, then `std::unique` and `erase`. -/
def sortUnique (values : List UInt64) : List UInt64 :=
  (values.insertionSort (· ≤ ·)).destutter (· ≠ ·)

/-- What the first pass has built: the table with an entry per transaction, the
distinct amounts met so far, and per amount the distinct absolute offsets. -/
structure ScanPass where
  table : ScanTable
  amounts : List UInt64
  offsetMap : UInt64 → List UInt64

/-- The first loop of the first pass, on one input: `boost::get`, the duplicate
check against the transaction's entry (still empty here), the amount. -/
def collectAmount (entry : AList fun _ : KeyImage => List OutputData)
    (amounts : List UInt64) (txin : TxinV) : ScanM (List UInt64) := do
  let inToKey ← getTxinToKey txin
  if inToKey.kImage ∈ entry then failure
  pure (amounts ++ [inToKey.amount])

/-- The second loop of the first pass, on one input: `boost::get`, and the
input's absolute offsets under its amount. -/
def collectOffsets (offsetMap : UInt64 → List UInt64) (txin : TxinV) :
    ScanM (UInt64 → List UInt64) := do
  let inToKey ← getTxinToKey txin
  pure (Function.update offsetMap inToKey.amount
    (offsetMap inToKey.amount ++ relativeOutputOffsetsToAbsolute
      inToKey.keyOffsets))

/-- The first pass on one transaction blob: parse it, refuse a prefix hash met
before, add an empty entry for it, then collect its amounts and offsets. -/
def scanTx (format : TxFormat) (pass : ScanPass) (txBlob : Bytes) :
    ScanM ScanPass := do
  let some tx := format.parseAndValidateTxFromBlob txBlob | failure
  let txPrefixHash := format.getTransactionPrefixHash tx
  if txPrefixHash ∈ pass.table then failure
  let entry : AList fun _ : KeyImage => List OutputData := ∅
  let amounts ← tx.vin.foldlM (collectAmount entry) pass.amounts
  let offsetMap ← tx.vin.foldlM collectOffsets pass.offsetMap
  pure
    { table := pass.table.insert txPrefixHash entry
      amounts := sortUnique amounts
      offsetMap := fun amount => sortUnique (offsetMap amount) }

/-- The outputs the second pass matches back for the needed offsets of one
input: for each, its first position among the amount's offsets and the output
fetched at that position; it stops at the first offset not found there or not
fetched. -/
def tableOutputs (offsets : List UInt64) (fetched : List OutputData) :
    List UInt64 → List OutputData
  | [] => []
  | needed :: rest =>
    match (offsets.idxOf? needed).bind fun pos => fetched[pos]? with
    | some output => output :: tableOutputs offsets fetched rest
    | none => []

/-- The loop of the second pass, on one input: `boost::get`, and the outputs
matched back stored under its key image unless an earlier input stored some
(`emplace`). -/
def fillInput (offsetMap : UInt64 → List UInt64)
    (txMap : UInt64 → List OutputData)
    (entry : AList fun _ : KeyImage => List OutputData) (txin : TxinV) :
    ScanM (AList fun _ : KeyImage => List OutputData) := do
  let inToKey ← getTxinToKey txin
  let outputs := tableOutputs (offsetMap inToKey.amount) (txMap inToKey.amount)
    (relativeOutputOffsetsToAbsolute inToKey.keyOffsets)
  pure (if inToKey.kImage ∈ entry then entry
          else entry.insert inToKey.kImage outputs)

/-- The second pass on one transaction blob: parse it again, find its entry,
and fill it input by input. -/
def fillTx (format : TxFormat) (offsetMap : UInt64 → List UInt64)
    (txMap : UInt64 → List OutputData) (table : ScanTable) (txBlob : Bytes) :
    ScanM ScanTable := do
  let some tx := format.parseAndValidateTxFromBlob txBlob | failure
  let txPrefixHash := format.getTransactionPrefixHash tx
  let some entry := table.lookup txPrefixHash | failure
  let entry ← tx.vin.foldlM (fillInput offsetMap txMap) entry
  pure (table.insert txPrefixHash entry)

/-- What the scan of `prepare_handle_incoming_blocks` does after
`m_scan_table.clear()`: the first pass over every transaction of the batch, the
bulk fetch per amount met (`output_scan_worker` keeps what was fetched before a
missing offset), and the second pass over every transaction. -/
def scanBlocks (read : UInt64 → UInt64 → Option OutputData) (format : TxFormat)
    (blocksEntry : List BlockCompleteEntry) : ScanM ScanTable := do
  let txBlobs := blocksEntry.flatMap BlockCompleteEntry.txs
  let pass ← txBlobs.foldlM (scanTx format) ⟨∅, [], fun _ => []⟩
  let txMap := fun amount =>
    if amount ∈ pass.amounts
      then (getOutputKeys read amount (pass.offsetMap amount)).1 else []
  txBlobs.foldlM (fillTx format pass.offsetMap txMap) pass.table

/-! ## The block pass -/

/-- What `prepare_handle_incoming_blocks` reads besides the batch:
`m_db->height()`, the size of `m_blocks_hash_check`, `m_db->top_block_hash()`,
`have_block`, `tools::get_max_concurrency()` and
`m_max_prepare_blocks_threads`. -/
structure PrepareEnv where
  height : Nat
  blocksHashCheckSize : Nat
  topBlockHash : Hash
  haveBlock : Hash → Bool
  maxConcurrency : Nat
  maxPrepareBlocksThreads : Nat

/-- One batch of the threaded block pass: `count` blocks from position `it`.  A
blob that does not parse is skipped; the first block of the first batch must
extend the top block, or the function returns `true` at once (`none`); a known
block ends the batch (`break`) with the flag set. -/
def blockBatch (format : BlockFormat) (env : PrepareEnv)
    (blocksEntry : List BlockCompleteEntry) :
    Bool → Nat → Nat → Option (Nat × Bool)
  | _, 0, it => some (it, false)
  | checkTop, count + 1, it =>
    match blocksEntry[it]?.bind fun entry =>
      format.parseAndValidateBlockFromBlob entry.block with
    | none => blockBatch format env blocksEntry false count (it + 1)
    | some block =>
      if checkTop ∧ block.prevId ≠ env.topBlockHash then none
      else if env.haveBlock (format.getBlockHash block) then some (it, true)
      else blockBatch format env blocksEntry false count (it + 1)

/-- The loop over the threads' batches, thread `i` on; `blocks_exist` is never
reset, and the later batches still run after a known block. -/
def blockBatches (format : BlockFormat) (env : PrepareEnv)
    (blocksEntry : List BlockCompleteEntry) (batches : Nat) :
    Nat → Nat → Nat → Bool → Option (Nat × Bool)
  | _, 0, it, blocksExist => some (it, blocksExist)
  | i, remaining + 1, it, blocksExist => do
    let (it, found) ← blockBatch format env blocksEntry (i == 0) batches it
    blockBatches format env blocksEntry batches (i + 1) remaining it
      (blocksExist || found)

/-- The threaded block pass, taken for more than one block and more than one
thread: `none` when the batch does not extend the chain, else whether one of
its blocks is known; the `extra` blocks are looked at only when none was. -/
def blockPass (format : BlockFormat) (env : PrepareEnv)
    (blocksEntry : List BlockCompleteEntry) : Option Bool :=
  if 1 < blocksEntry.length ∧ 1 < env.maxConcurrency ∧
    1 < env.maxPrepareBlocksThreads then
    let threads := min env.maxConcurrency env.maxPrepareBlocksThreads
    let batches := blocksEntry.length / threads
    let extra := blocksEntry.length % threads
    (blockBatches format env blocksEntry batches 0 threads 0 false).bind
      fun (it, blocksExist) =>
      if blocksExist then some true
      else (blockBatch format env blocksEntry false extra it).map Prod.snd
  else some false

/-- `Blockchain::prepare_handle_incoming_blocks` on the table the last call
left: its result and the table it leaves, or the exception it throws. -/
def prepareHandleIncomingBlocks (read : UInt64 → UInt64 → Option OutputData)
    (blockFormat : BlockFormat) (txFormat : TxFormat) (env : PrepareEnv)
    (scanTable : ScanTable) (blocksEntry : List BlockCompleteEntry) :
    Except BadGet (Bool × ScanTable) :=
  if blocksEntry.length = 0 then pure (false, scanTable)
  else if env.height + blocksEntry.length < env.blocksHashCheckSize
         then pure (true, scanTable)
  else
    match blockPass blockFormat env blocksEntry with
    | none | some true => pure (true, scanTable)
    | some false => do
      match ← (scanBlocks read txFormat blocksEntry).run with
      | some table => pure (true, table)
      | none => pure (false, ∅)

/-! ## Inputs other than `txin_to_key` -/

theorem ScanM.bind_run_of_error {α β : Type} {x : ScanM α}
    {f : α → ScanM β} {e : BadGet} (thrown : x.run = .error e) :
    (x >>= f).run = .error e := by
  rw [OptionT.run_bind, thrown]
  rfl

@[simp] theorem getTxinToKey_txinToKey (input : TxinToKey) :
    getTxinToKey (.txinToKey input) = pure input := rfl

theorem getTxinToKey_run_of_foreign {txin : TxinV}
    (foreign : txin.isToKey = false) : (getTxinToKey txin).run = .error {} := by
  cases txin with
  | txinToKey input => simp [TxinV.isToKey] at foreign
  | _ => rfl

theorem collectAmount_txinToKey (amounts : List UInt64) (input : TxinToKey) :
    collectAmount ∅ amounts (.txinToKey input) =
      pure (amounts ++ [input.amount]) := by
  simp [collectAmount]

/-- The first loop of the first pass throws on a transaction with an input
other than `txin_to_key`: the duplicate check before it never fires, the entry
being empty. -/
theorem foldlM_collectAmount_run_of_foreign (vin : List TxinV)
    (amounts : List UInt64) (foreign : ∃ txin ∈ vin, txin.isToKey = false) :
    (vin.foldlM (collectAmount ∅) amounts).run = .error {} := by
  induction vin generalizing amounts with
  | nil => simp at foreign
  | cons txin rest ih =>
    rw [List.foldlM_cons]
    cases isToKey : txin.isToKey with
    | false =>
      apply ScanM.bind_run_of_error
      exact ScanM.bind_run_of_error (getTxinToKey_run_of_foreign isToKey)
    | true =>
      obtain ⟨input, rfl⟩ : ∃ input, txin = .txinToKey input := by
        cases txin <;> simp_all [TxinV.isToKey]
      have inRest : ∃ txin ∈ rest, txin.isToKey = false := by
        simpa [TxinV.isToKey] using foreign
      rw [collectAmount_txinToKey, pure_bind]
      exact ih _ inRest

theorem scanTx_run_of_foreign {format : TxFormat} {pass : ScanPass}
    {txBlob : Bytes} {tx : Transaction}
    (parsed : format.parseAndValidateTxFromBlob txBlob = some tx)
    (fresh : format.getTransactionPrefixHash tx ∉ pass.table)
    (foreign : ∃ txin ∈ tx.vin, txin.isToKey = false) :
    (scanTx format pass txBlob).run = .error {} := by
  simp only [scanTx, parsed, fresh, if_false]
  exact ScanM.bind_run_of_error
    (foldlM_collectAmount_run_of_foreign _ _ foreign)

/-- A batch whose first transaction has an input other than `txin_to_key`
makes the scan throw. -/
theorem scanBlocks_run_of_foreign (read : UInt64 → UInt64 → Option OutputData)
    {format : TxFormat} {blocksEntry : List BlockCompleteEntry} {txBlob : Bytes}
    {rest : List Bytes} {tx : Transaction}
    (first : blocksEntry.flatMap BlockCompleteEntry.txs = txBlob :: rest)
    (parsed : format.parseAndValidateTxFromBlob txBlob = some tx)
    (foreign : ∃ txin ∈ tx.vin, txin.isToKey = false) :
    (scanBlocks read format blocksEntry).run = .error {} := by
  have fresh : format.getTransactionPrefixHash tx ∉ (∅ : ScanTable) :=
    AList.notMem_empty _
  simp only [scanBlocks, first, List.foldlM_cons]
  exact ScanM.bind_run_of_error
    (ScanM.bind_run_of_error (scanTx_run_of_foreign parsed fresh foreign))

/-- Past its early returns, `prepare_handle_incoming_blocks` throws when its
scan does. -/
theorem prepareHandleIncomingBlocks_of_scan_throws
    (read : UInt64 → UInt64 → Option OutputData) (blockFormat : BlockFormat)
    (txFormat : TxFormat) (env : PrepareEnv) (scanTable : ScanTable)
    {blocksEntry : List BlockCompleteEntry} (nonempty : blocksEntry ≠ [])
    (unchecked : env.blocksHashCheckSize ≤ env.height + blocksEntry.length)
    (passed : blockPass blockFormat env blocksEntry = some false)
    (thrown : (scanBlocks read txFormat blocksEntry).run = .error {}) :
    prepareHandleIncomingBlocks read blockFormat txFormat env scanTable
      blocksEntry = .error {} := by
  have notEmpty : blocksEntry.length ≠ 0 := by simpa using nonempty
  have notSkipped : ¬ env.height + blocksEntry.length <
      env.blocksHashCheckSize := by omega
  simp only [prepareHandleIncomingBlocks, notEmpty, notSkipped, passed,
    thrown, if_false]
  rfl

theorem blockPass_single (format : BlockFormat) (env : PrepareEnv)
    (entry : BlockCompleteEntry) :
    blockPass format env [entry] = some false := by
  simp [blockPass]

/-- `prepare_handle_incoming_blocks` throws `boost::bad_get` on a batch of one
block whose one transaction has a `txin_gen` input, whatever the block blob,
the table, the store, the chain and the thread counts, for every loader that
reads the transaction's blob as that transaction. -/
theorem prepareHandleIncomingBlocks_throws_on_gen_input
    (read : UInt64 → UInt64 → Option OutputData)
    (parse : Bytes → Option Transaction)
    (getTransactionPrefixHash : Transaction → Hash)
    (blockFormat : BlockFormat) (height : Nat) (topBlockHash : Hash)
    (haveBlock : Hash → Bool) (maxConcurrency maxPrepareBlocksThreads : Nat)
    (scanTable : ScanTable) (blockBlob : Bytes) :
    let genTx : Transaction :=
      { (default : Transaction) with
        version := 1, vin := [.txinGen ⟨0⟩], signatures := [[]] }
    let txBlob : Bytes := [1, 0, 1, 0xff, 0, 0, 0]
    prepareHandleIncomingBlocks read blockFormat
        ⟨Function.update parse txBlob (some genTx), getTransactionPrefixHash⟩
        ⟨height, 0, topBlockHash, haveBlock, maxConcurrency,
          maxPrepareBlocksThreads⟩ scanTable
        [⟨blockBlob, [txBlob]⟩] = .error {} := by
  intro genTx txBlob
  apply prepareHandleIncomingBlocks_of_scan_throws read
    blockFormat _ _ scanTable
    (List.cons_ne_nil _ _) (Nat.zero_le _) (blockPass_single _ _ _)
  have parsed : Function.update parse txBlob (some genTx) txBlob = some genTx :=
    Function.update_self _ _ _
  have foreign : ∃ txin ∈ genTx.vin, txin.isToKey = false :=
    ⟨.txinGen ⟨0⟩, List.mem_singleton_self _, rfl⟩
  exact scanBlocks_run_of_foreign read rfl parsed foreign

/-! ## What the table holds after a scan -/

theorem ScanM.run_bind_eq_ok {α β : Type} {x : ScanM α}
    {f : α → ScanM β} {b : β} (ran : (x >>= f).run = .ok (some b)) :
    ∃ a, x.run = .ok (some a) ∧ (f a).run = .ok (some b) := by
  rw [OptionT.run_bind] at ran
  cases ranX : x.run with
  | error e => rw [ranX] at ran; cases ran
  | ok result =>
    cases result with
    | none => rw [ranX] at ran; cases ran
    | some a => rw [ranX] at ran; exact ⟨a, rfl, ran⟩

/-- Two blobs that parse to transactions with different prefix hashes. -/
def DistinctPrefixes (format : TxFormat) (first second : Bytes) : Prop :=
  ∀ tx₁ tx₂, format.parseAndValidateTxFromBlob first = some tx₁ →
    format.parseAndValidateTxFromBlob second = some tx₂ →
      format.getTransactionPrefixHash tx₁ ≠ format.getTransactionPrefixHash tx₂

/-- The first pass on a blob goes through only for a transaction whose prefix
hash is new, and adds its empty entry. -/
theorem scanTx_run_eq_ok {format : TxFormat} {pass done : ScanPass}
    {txBlob : Bytes} (ran : (scanTx format pass txBlob).run = .ok (some done)) :
    ∃ tx, format.parseAndValidateTxFromBlob txBlob = some tx ∧
      format.getTransactionPrefixHash tx ∉ pass.table ∧
      done.table =
        pass.table.insert (format.getTransactionPrefixHash tx) ∅ := by
  cases parsed : format.parseAndValidateTxFromBlob txBlob with
  | none => simp [scanTx, parsed] at ran; cases ran
  | some tx =>
    by_cases known : format.getTransactionPrefixHash tx ∈ pass.table
    · simp [scanTx, parsed, known] at ran; cases ran
    · simp only [scanTx, parsed, known, if_false] at ran
      obtain ⟨amounts, -, ran⟩ := ScanM.run_bind_eq_ok ran
      obtain ⟨offsetMap, -, ran⟩ := ScanM.run_bind_eq_ok ran
      cases ran
      exact ⟨tx, rfl, known, rfl⟩

/-- The first pass keeps every entry it finds. -/
theorem foldlM_scanTx_keeps (format : TxFormat) (txBlobs : List Bytes) :
    ∀ pass done, (txBlobs.foldlM (scanTx format) pass).run = .ok (some done) →
      ∀ txPrefixHash entry, pass.table.lookup txPrefixHash = some entry →
        done.table.lookup txPrefixHash = some entry := by
  induction txBlobs with
  | nil => intro pass done ran; cases ran; exact fun _ _ => id
  | cons txBlob rest ih =>
    intro pass done ran txPrefixHash entry found
    rw [List.foldlM_cons] at ran
    obtain ⟨scanned, scannedRan, restRan⟩ := ScanM.run_bind_eq_ok ran
    obtain ⟨tx, -, fresh, table⟩ := scanTx_run_eq_ok scannedRan
    apply ih scanned done restRan
    have other : txPrefixHash ≠ format.getTransactionPrefixHash tx := by
      rintro rfl
      exact fresh (AList.lookup_isSome.1 (by simp [found]))
    rw [table, AList.lookup_insert_ne other]
    exact found

/-- After the first pass, the transactions of the batch have pairwise different
prefix hashes, each with an empty entry that was not in the table before. -/
theorem foldlM_scanTx_fresh (format : TxFormat) (txBlobs : List Bytes) :
    ∀ pass done, (txBlobs.foldlM (scanTx format) pass).run = .ok (some done) →
      txBlobs.Pairwise (DistinctPrefixes format) ∧
      ∀ txBlob ∈ txBlobs, ∀ tx,
        format.parseAndValidateTxFromBlob txBlob = some tx →
          format.getTransactionPrefixHash tx ∉ pass.table ∧
            done.table.lookup
              (format.getTransactionPrefixHash tx) = some ∅ := by
  induction txBlobs with
  | nil => intro pass done _; simp
  | cons txBlob rest ih =>
    intro pass done ran
    rw [List.foldlM_cons] at ran
    obtain ⟨scanned, scannedRan, restRan⟩ := ScanM.run_bind_eq_ok ran
    obtain ⟨tx, parsed, fresh, table⟩ := scanTx_run_eq_ok scannedRan
    obtain ⟨restDistinct, restFresh⟩ := ih scanned done restRan
    have added :
        done.table.lookup (format.getTransactionPrefixHash tx) = some ∅ := by
      apply foldlM_scanTx_keeps format rest scanned done restRan
      rw [table, AList.lookup_insert]
    refine ⟨List.pairwise_cons.2 ⟨?_, restDistinct⟩, ?_⟩
    · intro other mem tx₁ tx₂ parsed₁ parsed₂ same
      rw [parsed] at parsed₁
      cases parsed₁
      apply (restFresh other mem tx₂ parsed₂).1
      rw [table, ← same]
      exact (AList.mem_insert _).2 (Or.inl rfl)
    · intro other mem tx' parsed'
      rcases List.mem_cons.1 mem with rfl | inRest
      · rw [parsed] at parsed'
        cases parsed'
        exact ⟨fresh, added⟩
      · obtain ⟨notScanned, entry⟩ := restFresh other inRest tx' parsed'
        refine ⟨fun inPass => notScanned ?_, entry⟩
        rw [table]
        exact (AList.mem_insert _).2 (Or.inr inPass)

/-- What the second pass stores under a key image for a transaction's inputs:
the outputs matched back for the first input that carries it. -/
def firstStored (offsetMap : UInt64 → List UInt64)
    (txMap : UInt64 → List OutputData) (vin : List TxinV) (kImage : KeyImage) :
    Option (List OutputData) :=
  match vin.find? fun txin => txin.keyImage? = some kImage with
  | some (.txinToKey input) =>
    some (tableOutputs (offsetMap input.amount) (txMap input.amount)
      (relativeOutputOffsetsToAbsolute input.keyOffsets))
  | _ => none

theorem fillInput_run_eq_ok {offsetMap : UInt64 → List UInt64}
    {txMap : UInt64 → List OutputData}
    {entry filled : AList fun _ : KeyImage => List OutputData} {txin : TxinV}
    (ran : (fillInput offsetMap txMap entry txin).run = .ok (some filled)) :
    ∃ input, txin = .txinToKey input ∧
      filled = if input.kImage ∈ entry then entry
        else entry.insert input.kImage (tableOutputs (offsetMap input.amount)
          (txMap input.amount)
    (relativeOutputOffsetsToAbsolute input.keyOffsets)) := by
  cases txin with
  | txinToKey input => cases ran; exact ⟨input, rfl, rfl⟩
  | _ => cases ran

/-- The second pass on a transaction's inputs keeps what the entry held and
adds, under each new key image, the outputs of the first input carrying it. -/
theorem foldlM_fillInput_lookup (offsetMap : UInt64 → List UInt64)
    (txMap : UInt64 → List OutputData) (vin : List TxinV) :
    ∀ entry filled, (vin.foldlM (fillInput offsetMap txMap) entry).run =
      .ok (some filled) → ∀ kImage, filled.lookup kImage =
        (entry.lookup kImage).or (firstStored offsetMap txMap vin kImage) := by
  induction vin with
  | nil =>
    intro entry filled ran kImage
    cases ran
    simp [firstStored]
  | cons txin rest ih =>
    intro entry filled ran kImage
    rw [List.foldlM_cons] at ran
    obtain ⟨step, stepRan, restRan⟩ := ScanM.run_bind_eq_ok ran
    obtain ⟨input, rfl, stepped⟩ := fillInput_run_eq_ok stepRan
    rw [ih step filled restRan kImage, stepped]
    by_cases same : input.kImage = kImage
    · subst same
      have stored :
          firstStored offsetMap txMap (.txinToKey input :: rest) input.kImage =
          some (tableOutputs (offsetMap input.amount) (txMap input.amount)
            (relativeOutputOffsetsToAbsolute input.keyOffsets)) := by
        simp [firstStored, TxinV.keyImage?]
      rw [stored]
      by_cases present : input.kImage ∈ entry
      · obtain ⟨outputs, found⟩ :=
          Option.isSome_iff_exists.1 (AList.lookup_isSome.2 present)
        simp [present, found]
      · simp [present, AList.lookup_eq_none.2 present]
    · have skipped :
        firstStored offsetMap txMap (.txinToKey input :: rest) kImage =
          firstStored offsetMap txMap rest kImage := by
        simp [firstStored, TxinV.keyImage?, same]
      rw [skipped]
      split
      · rfl
      · rw [AList.lookup_insert_ne (Ne.symm same)]

/-- The second pass on a blob finds the entry of its transaction and replaces
it with the filled one. -/
theorem fillTx_run_eq_ok {format : TxFormat} {offsetMap : UInt64 → List UInt64}
    {txMap : UInt64 → List OutputData} {table filled : ScanTable}
    {txBlob : Bytes}
    (ran : (fillTx format offsetMap txMap table txBlob).run =
      .ok (some filled)) :
    ∃ tx entry filledEntry, format.parseAndValidateTxFromBlob txBlob = some tx ∧
      table.lookup (format.getTransactionPrefixHash tx) = some entry ∧
      (tx.vin.foldlM (fillInput offsetMap txMap) entry).run =
        .ok (some filledEntry) ∧
      filled = table.insert (format.getTransactionPrefixHash tx)
        filledEntry := by
  cases parsed : format.parseAndValidateTxFromBlob txBlob with
  | none => simp [fillTx, parsed] at ran; cases ran
  | some tx =>
    cases found : table.lookup (format.getTransactionPrefixHash tx) with
    | none => simp [fillTx, parsed, found] at ran; cases ran
    | some entry =>
      simp only [fillTx, parsed, found] at ran
      obtain ⟨filledEntry, entryRan, ran⟩ := ScanM.run_bind_eq_ok ran
      cases ran
      exact ⟨tx, entry, filledEntry, rfl, found, entryRan, rfl⟩

/-- The second pass leaves the entries of prefix hashes that no transaction of
the batch has. -/
theorem foldlM_fillTx_frame (format : TxFormat)
    (offsetMap : UInt64 → List UInt64) (txMap : UInt64 → List OutputData)
    (txBlobs : List Bytes) (txPrefixHash : Hash) :
    ∀ table filled, (txBlobs.foldlM (fillTx format offsetMap txMap) table).run =
      .ok (some filled) →
        (∀ txBlob ∈ txBlobs, ∀ tx,
          format.parseAndValidateTxFromBlob txBlob = some tx →
            format.getTransactionPrefixHash tx ≠ txPrefixHash) →
      filled.lookup txPrefixHash = table.lookup txPrefixHash := by
  induction txBlobs with
  | nil => intro table filled ran _; cases ran; rfl
  | cons txBlob rest ih =>
    intro table filled ran elsewhere
    rw [List.foldlM_cons] at ran
    obtain ⟨step, stepRan, restRan⟩ := ScanM.run_bind_eq_ok ran
    obtain ⟨tx, -, filledEntry, parsed, -, -, stepped⟩ :=
      fillTx_run_eq_ok stepRan
    rw [ih step filled restRan fun other mem =>
      elsewhere other (List.mem_cons_of_mem _ mem), stepped,
      AList.lookup_insert_ne
      (elsewhere txBlob List.mem_cons_self tx parsed).symm]

/-- After the second pass, over blobs whose transactions have pairwise
different prefix hashes and empty entries, the entry of each transaction holds
under each key image what its first input carrying it was matched to. -/
theorem foldlM_fillTx_find (format : TxFormat)
    (offsetMap : UInt64 → List UInt64) (txMap : UInt64 → List OutputData)
    (txBlobs : List Bytes) :
    ∀ table filled, (txBlobs.foldlM (fillTx format offsetMap txMap) table).run =
      .ok (some filled) → txBlobs.Pairwise (DistinctPrefixes format) →
      (∀ txBlob ∈ txBlobs, ∀ tx,
        format.parseAndValidateTxFromBlob txBlob = some tx →
          table.lookup (format.getTransactionPrefixHash tx) = some ∅) →
      ∀ txBlob ∈ txBlobs, ∀ tx,
        format.parseAndValidateTxFromBlob txBlob = some tx → ∀ kImage,
          filled.find (format.getTransactionPrefixHash tx) kImage =
            firstStored offsetMap txMap tx.vin kImage := by
  induction txBlobs with
  | nil => intro _ _ _ _ _ txBlob mem; simp at mem
  | cons txBlob rest ih =>
    intro table filled ran distinct empty other mem tx' parsed' kImage
    rw [List.foldlM_cons] at ran
    obtain ⟨step, stepRan, restRan⟩ := ScanM.run_bind_eq_ok ran
    obtain ⟨tx, entry, filledEntry, parsed, found, entryRan, stepped⟩ :=
      fillTx_run_eq_ok stepRan
    obtain ⟨headDistinct, restDistinct⟩ := List.pairwise_cons.1 distinct
    rcases List.mem_cons.1 mem with rfl | inRest
    · have same : tx = tx' := Option.some.inj (parsed.symm.trans parsed')
      subst same
      have untouched : filled.lookup (format.getTransactionPrefixHash tx) =
          some filledEntry := by
        rw [foldlM_fillTx_frame format offsetMap txMap rest _
          step filled restRan fun later laterMem tx₂ parsed₂ same =>
          headDistinct later laterMem tx tx₂ parsed parsed₂ same.symm,
          stepped, AList.lookup_insert]
      have emptyEntry : entry = ∅ := by
        rw [empty other List.mem_cons_self tx parsed] at found
        exact (Option.some.inj found).symm
      subst emptyEntry
      simp [ScanTable.find, untouched,
        foldlM_fillInput_lookup offsetMap txMap tx.vin ∅ filledEntry
          entryRan kImage]
    · apply ih step filled restRan restDistinct _ other inRest
        tx' parsed' kImage
      intro later laterMem tx₂ parsed₂
      rw [stepped, AList.lookup_insert_ne
        fun same => headDistinct later laterMem tx tx₂ parsed parsed₂ same.symm]
      exact empty later (List.mem_cons_of_mem _ laterMem) tx₂ parsed₂

theorem tableOutputs_readsAgree (read : UInt64 → UInt64 → Option OutputData)
    {amount : UInt64} {offsets : List UInt64} {fetched : List OutputData}
    (agree : ReadsAgree read amount offsets fetched) (needed : List UInt64) :
    ReadsAgree read amount needed (tableOutputs offsets fetched needed) := by
  induction needed with
  | nil => exact readsAgree_nil read amount []
  | cons index rest ih =>
    unfold tableOutputs
    cases matched : (offsets.idxOf? index).bind fun pos => fetched[pos]? with
    | none => exact readsAgree_nil read amount _
    | some output =>
      obtain ⟨pos, atPos, fetchedAt⟩ := Option.bind_eq_some_iff.1 matched
      obtain ⟨inBounds, isIndex, -⟩ := List.idxOf?_eq_some_iff.1 atPos
      have offsetAt : offsets[pos]? = some index := by
        rw [List.getElem?_eq_getElem inBounds, isIndex]
      exact (readsAgree_cons read).2
        ⟨agree pos index output offsetAt fetchedAt, ih⟩

theorem scanBlocks_run_eq_ok {read : UInt64 → UInt64 → Option OutputData}
    {format : TxFormat} {blocksEntry : List BlockCompleteEntry}
    {table : ScanTable}
    (ran : (scanBlocks read format blocksEntry).run = .ok (some table)) :
    ∃ pass, ((blocksEntry.flatMap BlockCompleteEntry.txs).foldlM (scanTx format)
        ⟨∅, [], fun _ => []⟩).run = .ok (some pass) ∧
      ((blocksEntry.flatMap BlockCompleteEntry.txs).foldlM
        (fillTx format pass.offsetMap fun amount => if amount ∈
          pass.amounts
            then (getOutputKeys read amount (pass.offsetMap amount)).1 else [])
              pass.table).run =
        .ok (some table) :=
  ScanM.run_bind_eq_ok ran

/-- `prepare_handle_incoming_blocks` leaves the table it found, an empty one,
or the one its scan filled. -/
theorem prepareHandleIncomingBlocks_table
    {read : UInt64 → UInt64 → Option OutputData} {blockFormat : BlockFormat}
    {txFormat : TxFormat} {env : PrepareEnv}
    {scanTable table : ScanTable}
    {blocksEntry : List BlockCompleteEntry} {result : Bool}
    (prepared : prepareHandleIncomingBlocks read blockFormat txFormat env
      scanTable blocksEntry = .ok (result, table)) :
    table = scanTable ∨ table = ∅ ∨ (scanBlocks read txFormat blocksEntry).run =
      .ok (some table) := by
  unfold prepareHandleIncomingBlocks at prepared
  split at prepared
  · cases prepared; exact .inl rfl
  · split at prepared
    · cases prepared; exact .inl rfl
    · split at prepared
      · cases prepared; exact .inl rfl
      · cases prepared; exact .inl rfl
      · cases scanned : (scanBlocks read txFormat blocksEntry).run with
        | error e => rw [scanned] at prepared; cases prepared
        | ok filled =>
          rw [scanned] at prepared
          cases filled with
          | none => cases prepared; exact .inr (.inl rfl)
          | some filled => cases prepared; exact .inr (.inr rfl)

/-- Filled from an empty table, the table agrees with the store as it was read
during the fill, for the first input carrying each key image of each
transaction of the batch. -/
theorem prepareHandleIncomingBlocks_agrees
    {read : UInt64 → UInt64 → Option OutputData} {blockFormat : BlockFormat}
    {txFormat : TxFormat} {env : PrepareEnv}
    {table : ScanTable} {blocksEntry : List BlockCompleteEntry} {result : Bool}
    (prepared : prepareHandleIncomingBlocks read blockFormat txFormat
      env ∅ blocksEntry = .ok (result, table))
    {txBlob : Bytes} (mem : txBlob ∈ blocksEntry.flatMap BlockCompleteEntry.txs)
    {tx : Transaction}
    (parsed : txFormat.parseAndValidateTxFromBlob txBlob = some tx)
    {input : TxinToKey}
    (first : tx.vin.find? (fun txin => txin.keyImage? = some input.kImage) =
      some (.txinToKey input)) :
    ∀ cached, table.find (txFormat.getTransactionPrefixHash tx)
      input.kImage = some cached →
        ReadsAgree read input.amount
          (relativeOutputOffsetsToAbsolute input.keyOffsets) cached := by
  intro cached found
  rcases prepareHandleIncomingBlocks_table prepared with rfl | rfl | scanned
  · simp [ScanTable.find] at found
  · simp [ScanTable.find] at found
  · obtain ⟨pass, firstRan, secondRan⟩ := scanBlocks_run_eq_ok scanned
    obtain ⟨distinct, fresh⟩ := foldlM_scanTx_fresh txFormat _ _ pass firstRan
    have stored :=
      foldlM_fillTx_find txFormat _ _ _ pass.table table secondRan distinct
      (fun other otherMem tx' parsed' => (fresh other otherMem tx' parsed').2)
      txBlob mem tx parsed input.kImage
    rw [found, firstStored, first] at stored
    cases stored
    apply tableOutputs_readsAgree read
    split
    · exact getOutputKeys_readsAgree read input.amount _
    · exact readsAgree_nil read input.amount _

/-- The prefetch changes no ring: after `prepare_handle_incoming_blocks` filled
the table from an empty one, while the store reads as it did then,
`check_tx_input` returns for the first input carrying a key image in a
transaction of the batch what it returns with an empty table. -/
theorem checkTxInput_prefetched {read : UInt64 → UInt64 → Option OutputData}
    {blockFormat : BlockFormat} {txFormat : TxFormat} {env : PrepareEnv}
    {table : ScanTable} {blocksEntry : List BlockCompleteEntry} {result : Bool}
    (prepared : prepareHandleIncomingBlocks read blockFormat txFormat
      env ∅ blocksEntry = .ok (result, table))
    {txBlob : Bytes} (mem : txBlob ∈ blocksEntry.flatMap BlockCompleteEntry.txs)
    {tx : Transaction}
    (parsed : txFormat.parseAndValidateTxFromBlob txBlob = some tx)
    {input : TxinToKey}
    (first : tx.vin.find? (fun txin => txin.keyImage? = some input.kImage) =
      some (.txinToKey input))
    (unlocked : UInt64 → Bool) (sig : List Signature) :
    checkTxInput read table unlocked tx.version input
      (txFormat.getTransactionPrefixHash tx) sig = checkTxInput read ∅ unlocked
        tx.version input (txFormat.getTransactionPrefixHash tx) sig := by
  have nothingCached : ∀ cached,
      (∅ : ScanTable).find (txFormat.getTransactionPrefixHash tx)
      input.kImage = some cached →
        ReadsAgree read input.amount
          (relativeOutputOffsetsToAbsolute input.keyOffsets) cached := by
    intro cached found
    simp [ScanTable.find] at found
  have scanned : scanOutputkeysForIndexes read table unlocked input
      (txFormat.getTransactionPrefixHash tx) =
        scanOutputkeysForIndexes read ∅ unlocked input
          (txFormat.getTransactionPrefixHash tx) := by
    rw [scanOutputkeysForIndexes_of_agrees read unlocked table input _
        (prepareHandleIncomingBlocks_agrees prepared mem parsed first),
      scanOutputkeysForIndexes_of_agrees read unlocked ∅ input _ nothingCached]
  simp only [checkTxInput, scanned]

theorem checkTxInput_prefetched_on_first_input :
    let first : TxinToKey := ⟨0, [1], default⟩
    let tx : Transaction :=
      { (default : Transaction) with
        version := 2, vin := [.txinToKey first, .txinToKey ⟨0, [2], default⟩] }
    let txFormat : TxFormat := ⟨fun _ => some tx, fun _ => default⟩
    let read : UInt64 → UInt64 → Option OutputData := fun _ index =>
      some ⟨⟨Vector.replicate 32 index.toUInt8⟩, 0, 1, default⟩
    let blockFormat : BlockFormat := ⟨fun _ => none, fun _ => default⟩
    let blocksEntry : List BlockCompleteEntry := [⟨[], [[]]⟩]
    ∃ table, prepareHandleIncomingBlocks read blockFormat txFormat
      ⟨0, 0, default, fun _ => false, 1, 1⟩
        ∅ blocksEntry = .ok (true, table) ∧
      [] ∈ blocksEntry.flatMap BlockCompleteEntry.txs ∧
      txFormat.parseAndValidateTxFromBlob [] = some tx ∧
      tx.vin.find? (fun txin => txin.keyImage? = some first.kImage) =
        some (.txinToKey first) ∧
      checkTxInput read table (fun _ => true) tx.version first
        (txFormat.getTransactionPrefixHash tx) [] =
        checkTxInput read ∅ (fun _ => true) tx.version first
          (txFormat.getTransactionPrefixHash tx) [] := by
  intro first tx txFormat read blockFormat blocksEntry
  have found : tx.vin.find? (fun txin => txin.keyImage? = some first.kImage) =
      some (.txinToKey first) := by
    decide
  have batch : ([] : Bytes) ∈ blocksEntry.flatMap BlockCompleteEntry.txs := by
    simp [blocksEntry]
  obtain ⟨table, prepared⟩ : ∃ table,
      prepareHandleIncomingBlocks read blockFormat txFormat
      ⟨0, 0, default, fun _ => false, 1, 1⟩ ∅ blocksEntry =
        .ok (true, table) := ⟨_, rfl⟩
  exact ⟨table, prepared, batch, rfl, found,
    checkTxInput_prefetched prepared batch rfl found _ _⟩

-- why the first input of each key image is the boundary: an input repeating the
-- key image of an earlier input of its transaction is handed the earlier
-- input's ring (the second input here refers to the output at offset 2, and is
-- handed the one at offset 1)
example :
    let first : TxinToKey := ⟨0, [1], default⟩
    let second : TxinToKey := ⟨0, [2], default⟩
    let tx : Transaction :=
      { (default : Transaction) with
        version := 2, vin := [.txinToKey first, .txinToKey second] }
    let txFormat : TxFormat := ⟨fun _ => some tx, fun _ => default⟩
    let output : UInt64 → OutputData := fun index =>
      ⟨⟨Vector.replicate 32 index.toUInt8⟩, 0, 1, default⟩
    let read : UInt64 → UInt64 → Option OutputData :=
      fun _ index => some (output index)
    let blockFormat : BlockFormat := ⟨fun _ => none, fun _ => default⟩
    ∃ table, prepareHandleIncomingBlocks read blockFormat txFormat
        ⟨0, 0, default, fun _ => false, 1, 1⟩ ∅ [⟨[], [[]]⟩] =
          .ok (true, table) ∧
      checkTxInput read table (fun _ => true) 2 second default [] =
        some [⟨(output 1).pubkey, default⟩] ∧
      checkTxInput read ∅ (fun _ => true) 2 second default [] =
        some [⟨(output 2).pubkey, default⟩] := by
  refine ⟨_, rfl, ?_, ?_⟩ <;> decide

end CryptonoteCore
end Citicash
