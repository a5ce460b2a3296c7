import Citicash.CryptonoteCore.ChainRuns

/-!
# Invariants of every run of the chain

The chain's calls are built from a few steps that change its state:
`handle_block_to_main_chain` and `pop_block_from_blockchain`, which change
the store; `get_difficulty_for_next_block` and the resets of the difficulty
cache; the pool's `add_tx`; and the updates of the alternative and invalid
blocks and of `m_blocks_txs_check`.  A property of the chain that each of
them keeps on every run is a `ChainInvariant`, and holds in every state a
new chain reaches (`ChainInvariant.reachable`): the reorganisation calls,
which call each other and the two steps that change the store, are walked
here once for every such property.

`handle_block_to_main_chain` changes the store only through `add_block`.
`handleBlockToMainChain_spec` says so for any property of the store and the
difficulty cache: a property that `get_difficulty_for_next_block` keeps and
`add_block` turns into another holds of the chain after the call, the second
when the block was added, the first when it was not.  What makes a block
storable comes with it: its miner transaction passed
`prevalidate_miner_transaction`, and its other transactions came out of the
pool.
-/

namespace Citicash
namespace CryptonoteCore

open Cryptonote StateRun BlockchainDb

variable {α : Type}

/-! ## Storable transactions -/

theorem storable_of_supported {tx : Transaction}
    (supported : tx.checkInputsTypesSupported = true) : StorableInputs tx := by
  intro input mem
  left
  exact List.all_eq_true.mp supported input mem

theorem prevalidateMinerTransaction_storable {b : Block} {height : Nat}
    (valid : prevalidateMinerTransaction b height = true) :
    StorableInputs b.minerTx := by
  unfold prevalidateMinerTransaction at valid
  split at valid
  · rename_i gen only
    intro input mem
    rw [only, List.mem_singleton] at mem
    subst mem
    exact .inr rfl
  · cases valid

/-! ## The steps of `handle_block_to_main_chain` -/

variable (env : ChainEnv)

/-- A refused block leaves the chain's loop with `none`. -/
theorem rejectBlockTxs_spec (txs : List Transaction)
    (P : BlockchainLmdb → DifficultyCache → Prop) (Q : α → Prop) :
    Spec (StoreView P) (rejectBlockTxs env txs)
      (fun taken chain => StoreView P chain ∧ ∀ result,
        taken = some result → Q result)
      (StoreView P) :=
  Spec.bind (returnTxToPool_leavesStore env txs P) fun _ =>
    Spec.pure none fun _ holds => ⟨holds, fun _ absurd => nomatch absurd⟩

theorem invalidateBlockTxs_spec (bl : Block) (id : Hash)
    (txs : List Transaction) (P : BlockchainLmdb → DifficultyCache → Prop)
    (Q : α → Prop) :
    Spec (StoreView P) (invalidateBlockTxs env bl id txs)
      (fun taken chain => StoreView P chain ∧ ∀ result,
        taken = some result → Q result)
      (StoreView P) :=
  Spec.bind ((addBlockAsInvalid_leavesStore _ _).map P) fun _ =>
    rejectBlockTxs_spec env txs P Q

/-- The checks before the transaction loop leave the store alone, change the
cache only through `get_difficulty_for_next_block`, and pass only a block
whose miner transaction is storable. -/
theorem checkBlockToMainChain_spec (bl : Block) (id : Hash)
    (P : BlockchainLmdb → DifficultyCache → Prop)
    (difficulty : Maintains (StoreView P) getDifficultyForNextBlock) :
    Spec (StoreView P) (checkBlockToMainChain env bl id)
      (fun checked chain => StoreView P chain ∧
        (checked.isSome → StorableInputs bl.minerTx))
      (StoreView P) := by
  have refuses : ∀ chain, StoreView P chain →
      StoreView P chain ∧
        ((none : Option (UInt64 × Bool)).isSome → StorableInputs bl.minerTx) :=
    fun _ holds => ⟨holds, fun absurd => nomatch absurd⟩
  unfold checkBlockToMainChain
  refine whenPasses_spec
    (LeavesStore.of_inspects
      (Inspects.bind (getTailId_inspects) fun _ => Inspects.pure _) P)
    refuses ?_
  refine whenPasses_spec
    (LeavesStore.of_inspects
      (Inspects.bind Inspects.get fun _ => Inspects.pure _) P) refuses ?_
  refine whenPasses_spec
    (LeavesStore.of_inspects (checkBlockTimestamp_inspects env bl) P)
    refuses ?_
  refine Spec.bind difficulty fun currentDiffic => ?_
  refine Spec.bind (LeavesStore.of_inspects Inspects.get P) fun chain => ?_
  refine whenPasses_spec (LeavesStore.pure _ P) refuses ?_
  refine whenPasses_spec (LeavesStore.pure _ P) refuses ?_
  refine whenPasses_spec (LeavesStore.pure _ P) refuses ?_
  -- the last check is the one the store needs
  have prevalidated : Spec (StoreView P)
      (pure (prevalidateMinerTransaction bl chain.db.height) : ChainM Bool)
      (fun passed s => StoreView P s ∧
        passed = prevalidateMinerTransaction bl chain.db.height)
      (StoreView P) :=
    Spec.pure _ fun _ holds => ⟨holds, rfl⟩
  refine whenPasses_spec prevalidated (fun s holds => refuses s holds.1) ?_
  exact Spec.pure _ fun _ holds =>
    ⟨holds.1, fun _ => prevalidateMinerTransaction_storable holds.2.symm⟩

/-- The transaction loop leaves the store alone and hands on only
transactions taken from the pool, whose inputs are all `txin_to_key`. -/
theorem takeBlockTxs_spec (bl : Block) (id : Hash) (fastCheck : Bool)
    (P : BlockchainLmdb → DifficultyCache → Prop) :
    ∀ (hashes : List Hash) (txs : List Transaction)
    (feeSummary cumulativeBlockSize : UInt64) (txIndex : Nat),
      (∀ tx ∈ txs, tx.checkInputsTypesSupported = true) → Spec (StoreView P)
        (takeBlockTxs env bl id fastCheck hashes txs feeSummary
          cumulativeBlockSize txIndex)
        (fun taken chain => StoreView P chain ∧
          ∀ result, taken = some result → ∀ tx ∈ result.1,
            tx.checkInputsTypesSupported = true)
        (StoreView P)
  | [], txs, _, _, _, supported =>
      Spec.pure _ fun _ holds =>
        ⟨holds, fun _ taken => by cases taken; exact supported⟩
  | txId :: rest, txs, feeSummary, cumulativeBlockSize, txIndex, supported => by
      unfold takeBlockTxs
      refine Spec.bind
        (LeavesStore.of_inspects (liftDb_inspects (txExists_inspects txId)) P)
        fun known => ?_
      refine Spec.ite (fun _ => rejectBlockTxs_spec env txs P _) fun _ => ?_
      refine Spec.bind (takeTxFromPool_spec env txId P) fun taken => ?_
      cases taken with
      | none => exact Spec.with_fact fun _ => rejectBlockTxs_spec env txs P _
      | some details =>
          refine Spec.with_fact fun takenSupported => ?_
          have stillSupported : ∀ tx ∈ txs ++ [details.tx],
              tx.checkInputsTypesSupported = true := by
            intro tx mem
            rcases List.mem_append.mp mem with old | new
            · exact supported tx old
            · rw [List.mem_singleton.mp new]
              exact takenSupported details rfl
          refine Spec.bind
            (LeavesStore.of_inspects Inspects.get P) fun chain => ?_
          refine Spec.ite
            (fun _ => invalidateBlockTxs_spec env bl id _ P _) fun _ => ?_
          exact takeBlockTxs_spec bl id fastCheck P rest _ _ _ _ stillSupported

/-- What `handle_block_to_main_chain` knows of the size and the coins it
hands to `add_block` with a block, in the chain it reached before the call:
the cumulative size and the fees it validated the miner transaction with,
the coins at the last emission step and at the top block (zero on an empty
chain), and the reward `validate_miner_transaction` accepted added to the
latter, capped at `MONEY_SUPPLY`. -/
def CoinsHandedOn (bl : Block) (chain : Blockchain) (blockSize : Nat)
    (coinsGenerated : UInt64) : Prop :=
  ∃ cumulativeBlockSize fee calGeneratedCoins baseReward generated : UInt64,
    blockSize = cumulativeBlockSize.toNat ∧
    generatedCoinsBelow
      (chain.db.height - chain.db.height % coinEmissionHeightInterval) chain =
      .ok calGeneratedCoins chain ∧
    validateMinerTransaction env bl cumulativeBlockSize fee
      calGeneratedCoins chain =
      .ok (some baseReward) chain ∧
    generatedCoinsBelow chain.db.height chain = .ok generated chain ∧
    coinsGenerated = if baseReward < moneySupply -
      generated then generated + baseReward else moneySupply

/-- `handle_block_to_main_chain` changes the store only through `add_block`:
a property `P` of the store and the cache that the difficulty query keeps,
and that `add_block` of storable transactions, from the chain reached before
it, turns into `Q` when it stores the block and into `E` when it throws,
gives `Q` after a call that answers `true` and `E` after one that answers
`false` or throws. -/
theorem handleBlockToMainChain_spec (bl : Block) (id : Hash)
    (P Q E : BlockchainLmdb → DifficultyCache → Prop)
    (difficulty : Maintains (StoreView P) getDifficultyForNextBlock)
    (fallback : ∀ db cache, P db cache → E db cache)
    (adds : ∀ (chain : Blockchain) blockSize cumulativeDifficulty
      coinsGenerated txs, StoreView P chain → StorableInputs bl.minerTx →
        (∀ tx ∈ txs, StorableInputs tx) →
      CoinsHandedOn env bl chain blockSize coinsGenerated →
      Spec (fun db => db = chain.db)
        (addBlock env.dbEnv bl blockSize cumulativeDifficulty
          coinsGenerated txs)
        (fun _ db => Q db chain.difficultyCache)
    (fun db => E db chain.difficultyCache)) :
    Spec (StoreView P) (handleBlockToMainChain env bl id)
      (fun added chain => (added = true → StoreView Q chain) ∧
        (added = false → StoreView E chain))
      (StoreView E) := by
  have toError : ∀ chain, StoreView P chain → StoreView E chain :=
    fun _ holds => ⟨fallback _ _ holds.1, holds.2⟩
  have unchanged : ∀ chain, StoreView P chain →
      (false = true → StoreView Q chain) ∧
        (false = false → StoreView E chain) :=
    fun chain holds =>
      ⟨(fun absurd => nomatch absurd), fun _ => toError chain holds⟩
  have returned : ∀ txs : List Transaction,
      Spec (StoreView E) (returnTxToPool env txs >>= fun _ => pure false)
        (fun added chain => (added = true → StoreView Q chain) ∧
          (added = false → StoreView E chain))
        (StoreView E) :=
    fun txs => Spec.bind (returnTxToPool_leavesStore env txs E) fun _ =>
      Spec.pure false fun _ holds =>
        ⟨(fun absurd => nomatch absurd), fun _ => holds⟩
  unfold handleBlockToMainChain
  refine Spec.bind
    ((checkBlockToMainChain_spec env bl id P difficulty).onError_mono toError)
    fun checked => ?_
  rcases checked with _ | ⟨currentDiffic, fastCheck⟩
  · exact Spec.pure false fun chain holds => unchanged chain holds.1
  refine Spec.with_fact fun minerStorable => ?_
  refine Spec.bind
    ((takeBlockTxs_spec env bl id fastCheck P bl.txHashes [] 0 _ 0
      (by simp)).onError_mono toError)
    fun taken => ?_
  rcases taken with _ | ⟨txs, feeSummary, cumulativeBlockSize⟩
  · exact Spec.pure false fun chain holds => unchanged chain holds.1
  refine Spec.with_fact fun takenSupported => ?_
  have storable : ∀ tx ∈ txs, StorableInputs tx :=
    fun tx mem => storable_of_supported (takenSupported _ rfl tx mem)
  refine Spec.bind
    ((LeavesStore.modify (by intro _ _ holds; exact holds)
      P).onError_mono toError)
    fun _ => ?_
  -- from here to `add_block` the chain only reads: it stays the one `get`
  -- returns
  refine Spec.bind Spec.get_self fun current => ?_
  have pinnedError : ∀ chain, StoreView P chain → StoreView E chain := toError
  refine Spec.bind
    (Inspects.spec_at (generatedCoinsBelow_inspects _) current pinnedError)
    fun calGeneratedCoins => Spec.with_fact fun calRead => ?_
  refine Spec.bind
    (Inspects.spec_at (validateMinerTransaction_inspects env _ _ _ _) current
      pinnedError) fun validated => Spec.with_fact fun validRead => ?_
  rcases validated with _ | baseReward
  · exact (returned txs).mono (fun chain holds => toError chain holds.1)
      (fun _ _ holds => holds)
      fun _ holds => holds
  refine Spec.bind
    (Inspects.spec_at (generatedCoinsBelow_inspects _) current pinnedError)
    fun generated => Spec.with_fact fun generatedRead => ?_
  refine Spec.bind
    (Inspects.spec_at (cumulativeDifficultyOnTop_inspects _ _)
      current pinnedError)
    fun cumulativeDifficulty => Spec.with_fact fun _ => ?_
  -- `add_block` itself: the cache and the pool stay as they are
  refine Spec.tryCatch ?_ fun _ => returned txs
  have handed : CoinsHandedOn env bl current cumulativeBlockSize.toNat
      (if baseReward < moneySupply - generated then generated + baseReward
         else moneySupply) :=
    ⟨cumulativeBlockSize, feeSummary, calGeneratedCoins, baseReward,
      generated, rfl, calRead, validRead, generatedRead, rfl⟩
  exact Spec.bind
    (liftDb_at
      (fun holds => adds current _ _ _ txs holds (minerStorable rfl) storable
        handed) fun holds => holds.2)
    fun _ => Spec.pure true fun _ holds =>
      ⟨fun _ => holds, fun absurd => nomatch absurd⟩

/-- A call of `handle_block_to_main_chain` that answers `true` added the
block with `add_block` to the store it started from, with the size and
coins it validated in a chain reached from the first without a write. -/
theorem handleBlockToMainChain_added {bl : Block} {id : Hash}
    {chain chain' : Blockchain} (pool : OnlyToKeyInputs chain.txPool)
    (run : handleBlockToMainChain env bl id chain = .ok true chain') :
    ∃ (current : Blockchain) (blockSize : Nat)
    (cumulativeDifficulty coinsGenerated : UInt64) (txs : List Transaction)
    (newHeight : Nat), current.db = chain.db ∧
      CoinsHandedOn env bl current blockSize coinsGenerated ∧
      addBlock env.dbEnv bl blockSize cumulativeDifficulty
        coinsGenerated txs chain.db = .ok newHeight chain'.db := by
  let Added : BlockchainLmdb → DifficultyCache → Prop := fun db _ =>
    ∃ (current : Blockchain) (blockSize : Nat)
      (cumulativeDifficulty coinsGenerated : UInt64)
      (txs : List Transaction) (newHeight : Nat),
      current.db = chain.db ∧
        CoinsHandedOn env bl current blockSize coinsGenerated ∧
        addBlock env.dbEnv bl blockSize cumulativeDifficulty
          coinsGenerated txs chain.db =
          .ok newHeight db
  -- the store stays the one the call started from until `add_block`
  have outcome :=
    handleBlockToMainChain_spec env bl id (fun db _ => db = chain.db) Added
    (fun _ _ => True) (getDifficultyForNextBlock_blind _) (fun _ _ _ => trivial)
    (fun current blockSize cumulativeDifficulty coinsGenerated txs
      same _ _ handed => by
      rintro db rfl
      cases adding : addBlock env.dbEnv bl blockSize cumulativeDifficulty
        coinsGenerated txs
          current.db with
      | ok newHeight db' =>
          exact ⟨current, blockSize, cumulativeDifficulty, coinsGenerated, txs,
            newHeight, same.1, handed, same.1 ▸ adding⟩
      | error e db' => trivial)
    (show StoreView (fun db _ => db = chain.db) chain from ⟨rfl, pool⟩)
  rw [run] at outcome
  exact (outcome.1 rfl).1

/-! ## Invariants of the chain's calls -/

/-- A property of the chain that every step changing its state keeps, on
every run, successful or not. -/
structure ChainInvariant (Inv : Blockchain → Prop) : Prop where
  empty : Inv Blockchain.empty
  handleBlockToMainChain :
    ∀ env bl id, Maintains Inv (CryptonoteCore.handleBlockToMainChain env bl id)
  popBlockFromBlockchain : ∀ env,
    Maintains Inv (CryptonoteCore.popBlockFromBlockchain env)
  getDifficultyForNextBlock :
    Maintains Inv CryptonoteCore.getDifficultyForNextBlock
  addTxToPool :
    ∀ env tx keptByBlock relayed,
      Maintains Inv (CryptonoteCore.addTxToPool env tx keptByBlock relayed)
  resetDifficultyCache :
    ∀ chain, Inv chain → Inv { chain with timestampsAndDifficultiesHeight := 0 }
  blockMaps : ∀ chain alternativeChains invalidBlocks,
    Inv chain → Inv { chain with alternativeChains, invalidBlocks }
  blocksTxsCheck : ∀ chain blocksTxsCheck, Inv chain →
    Inv { chain with blocksTxsCheck }

namespace ChainInvariant

variable {Inv : Blockchain → Prop} (inv : ChainInvariant Inv)
include inv

theorem resetDifficultyCache_maintains :
    Maintains Inv CryptonoteCore.resetDifficultyCache :=
  Maintains.modify inv.resetDifficultyCache

theorem eraseAlternative_maintains (h : Hash) :
    Maintains Inv (eraseAlternative h) :=
  Maintains.modify fun chain holds => inv.blockMaps chain _ _ holds

theorem addBlockAsInvalid_maintains (bei : BlockExtendedInfo) (h : Hash) :
    Maintains Inv (addBlockAsInvalid bei h) := by
  refine Maintains.modifyGet fun chain holds => ?_
  split
  · exact holds
  · exact inv.blockMaps chain _ _ holds

theorem popBlocksToHeight_maintains (rollbackHeight : Nat) :
    ∀ count, Maintains Inv (popBlocksToHeight env rollbackHeight count)
  | 0 => Maintains.pure _
  | count + 1 =>
      Maintains.bind (Maintains.of_inspects Inspects.get) fun _ =>
        Maintains.ite (Maintains.pure _) <|
          Maintains.bind (inv.popBlockFromBlockchain env) fun _ =>
            popBlocksToHeight_maintains rollbackHeight count

theorem readdOriginalChain_maintains :
    ∀ originalChain, Maintains Inv (readdOriginalChain env originalChain)
  | [] => Maintains.pure _
  | bl :: rest =>
      Maintains.bind (inv.handleBlockToMainChain env bl _) fun _ =>
        Maintains.ite (readdOriginalChain_maintains rest) (Maintains.pure _)

theorem rollbackBlockchainSwitching_maintains (originalChain : List Block)
    (rollbackHeight : Nat) :
    Maintains Inv
      (rollbackBlockchainSwitching env originalChain rollbackHeight) :=
  Maintains.bind (Maintains.of_inspects Inspects.get) fun _ =>
    Maintains.ite (Maintains.pure _) <|
      Maintains.bind inv.resetDifficultyCache_maintains fun _ =>
        Maintains.bind
          (inv.popBlocksToHeight_maintains env rollbackHeight _) fun _ =>
          inv.readdOriginalChain_maintains env originalChain

theorem popBlocksToParent_maintains (prevId : Hash) :
    ∀ count disconnected,
      Maintains Inv (popBlocksToParent env prevId count disconnected)
  | 0, _ => Maintains.pure _
  | count + 1, _ =>
      Maintains.bind
        (Maintains.of_inspects (liftDb_inspects topBlockHash_inspects)) fun _ =>
        Maintains.ite (Maintains.pure _) <|
          Maintains.bind (inv.popBlockFromBlockchain env) fun _ =>
            popBlocksToParent_maintains prevId count _

theorem connectAltChain_maintains :
    ∀ altChain, Maintains Inv (connectAltChain env altChain)
  | [] => Maintains.pure _
  | entry :: rest =>
      Maintains.bind (inv.handleBlockToMainChain env entry.2.bl _) fun _ =>
        Maintains.ite (connectAltChain_maintains rest) (Maintains.pure _)

theorem invalidateAltChain_maintains (refused : Hash × BlockExtendedInfo)
    (rest : AltChain) : Maintains Inv (invalidateAltChain env refused rest) :=
  Maintains.bind (inv.addBlockAsInvalid_maintains _ _).map fun _ =>
    Maintains.bind (inv.eraseAlternative_maintains _) fun _ =>
      Maintains.forM fun _ _ =>
        Maintains.bind (inv.addBlockAsInvalid_maintains _ _).map fun _ =>
          inv.eraseAlternative_maintains _

theorem switchToAlternativeBlockchain_maintains
    {handleAlternative : Block → Hash → ChainM Bool}
    (handles : ∀ b id, Maintains Inv (handleAlternative b id))
    (altChain : AltChain) (discardDisconnectedChain : Bool) :
    Maintains Inv
      (switchToAlternativeBlockchain env handleAlternative altChain
        discardDisconnectedChain) := by
  unfold switchToAlternativeBlockchain
  refine Maintains.bind inv.resetDifficultyCache_maintains fun _ => ?_
  split
  · exact Maintains.pure _
  refine Maintains.bind
    (Maintains.of_inspects (liftDb_inspects (blockExists_inspects _)))
    fun _ => Maintains.ite (Maintains.pure _) ?_
  refine Maintains.bind (Maintains.of_inspects Inspects.get) fun _ => ?_
  refine Maintains.bind (inv.popBlocksToParent_maintains env _ _ _)
    fun disconnected => ?_
  refine Maintains.bind (Maintains.of_inspects Inspects.get) fun _ => ?_
  refine Maintains.bind (inv.connectAltChain_maintains env _) fun refused => ?_
  split
  · -- the alternative chain failed: roll back and invalidate the rest of it
    exact Maintains.bind
      (inv.rollbackBlockchainSwitching_maintains env _ _).map fun _ =>
      Maintains.bind (inv.invalidateAltChain_maintains env _ _) fun _ =>
        Maintains.pure _
  · exact Maintains.bind (Maintains.forM fun b _ => (handles b _).map) fun _ =>
      Maintains.bind
        (Maintains.forM fun _ _ => inv.eraseAlternative_maintains _)
        fun _ => Maintains.pure _

/-- Every depth of the recursion between `handle_alternative_block` and
`switch_to_alternative_blockchain` keeps the invariant. -/
theorem handleAlternativeBlock_maintains :
    ∀ fuel b id, Maintains Inv (handleAlternativeBlock env fuel b id)
  | 0, _, _ => Maintains.pure _
  | fuel + 1, b, id => by
      unfold handleAlternativeBlock
      refine Maintains.bind inv.resetDifficultyCache_maintains fun _ => ?_
      refine Maintains.bind (Maintains.of_inspects Inspects.get) fun _ => ?_
      refine Maintains.bind (Maintains.of_inspects (Inspects.pure _))
        fun passed => ?_
      refine Maintains.ite ?_ (Maintains.pure _)
      refine Maintains.bind
        (Maintains.of_inspects (liftDb_inspects (blockExists_inspects _)))
        fun _ => Maintains.ite (Maintains.pure _) ?_
      refine Maintains.bind
        (Maintains.of_inspects (checkAlternativeBlock_inspects env b id))
        fun checked => ?_
      rcases checked with _ |
        ⟨altChain, bei, isCheckpoint, mainChainCumulativeDifficulty⟩
      · exact Maintains.pure _
      refine Maintains.bind (Maintains.of_inspects Inspects.get) fun _ => ?_
      refine Maintains.ite (Maintains.pure _) ?_
      refine Maintains.bind
        (Maintains.modify fun chain holds => inv.blockMaps chain _ _ holds)
        fun _ => ?_
      -- the deeper calls are the ones the fuel pays for
      have deeper := handleAlternativeBlock_maintains fuel
      exact Maintains.ite
        (inv.switchToAlternativeBlockchain_maintains env deeper _ _) <|
        Maintains.ite
          (inv.switchToAlternativeBlockchain_maintains env deeper _ _)
            (Maintains.pure _)

theorem addNewBlock_maintains (fuel : Nat) (bl : Block) :
    Maintains Inv (addNewBlock env fuel bl) :=
  Maintains.bind (Maintains.of_inspects Inspects.get) fun _ =>
    Maintains.bind
      (Maintains.of_inspects
        (liftDb_inspects (blockExists_inspects _))) fun _ =>
      Maintains.ite (Maintains.pure _) <|
        Maintains.bind (Maintains.of_inspects getTailId_inspects) fun _ =>
          Maintains.ite (inv.handleAlternativeBlock_maintains env fuel bl _)
            (inv.handleBlockToMainChain env bl _)

/-- The state any call leaves keeps the invariant. -/
theorem run {chain : Blockchain} (call : ChainCall) (holds : Inv chain) :
    Inv (call.run env chain) := by
  have final : ∀ {α} {x : ChainM α}, Maintains Inv x →
      Inv (finalState (x chain)) := by
    intro _ x maintains
    have outcome := maintains holds
    cases run : x chain with
    | ok a chain' =>
        rw [run] at outcome
        exact outcome
    | error e chain' =>
        rw [run] at outcome
        exact outcome
  cases call with
  | handleBlockToMainChain bl id =>
      exact final (inv.handleBlockToMainChain env bl id)
  | addNewBlock fuel bl => exact final (inv.addNewBlock_maintains env fuel bl)
  | handleAlternativeBlock fuel b id =>
      exact final (inv.handleAlternativeBlock_maintains env fuel b id)
  | popBlockFromBlockchain => exact final (inv.popBlockFromBlockchain env)
  | switchToAlternativeBlockchain fuel altChain discardDisconnectedChain =>
      exact final (inv.switchToAlternativeBlockchain_maintains env
        (inv.handleAlternativeBlock_maintains env fuel) altChain
          discardDisconnectedChain)
  | rollbackBlockchainSwitching originalChain rollbackHeight =>
      exact final
        (inv.rollbackBlockchainSwitching_maintains env
          originalChain rollbackHeight)
  | getDifficultyForNextBlock => exact final inv.getDifficultyForNextBlock
  | addTx tx keptByBlock relayed =>
      exact final (inv.addTxToPool env tx keptByBlock relayed)
  | prepareHandleIncomingBlocks blocksTxsCheck =>
      exact inv.blocksTxsCheck chain blocksTxsCheck holds

omit inv in
/-- An invariant of the chain holds in every state a new chain reaches. -/
theorem reachable (inv : ChainInvariant Inv) {chain : Blockchain}
    (reachable : Reachable chain) : Inv chain := by
  induction reachable with
  | empty => exact inv.empty
  | call env call _ ih => exact inv.run env call ih

end ChainInvariant

end CryptonoteCore
end Citicash
