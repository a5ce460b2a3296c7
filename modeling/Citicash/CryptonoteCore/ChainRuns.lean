import Citicash.CryptonoteCore.Reorganize
import Citicash.BlockchainDb.KeyImages

/-!
# Runs of the chain

How a run of the chain relates to the store underneath.  Most of what the
chain does around `add_block` and `pop_block` reads the store, moves
transactions between the pool and a block, or updates the chain's own
caches and maps; `LeavesStore` says of such a step that it leaves the
store's tables as they were and keeps every pool transaction's inputs
`txin_to_key`, on every run, successful or not.  The steps of this kind get
their lemma here, one per definition of the model, for the invariants of
`Citicash.CryptonoteCore.SpentKeys` and the later modules.
-/

namespace Citicash
namespace CryptonoteCore

open Cryptonote StateRun BlockchainDb

variable {α β : Type}

/-! ## Lifting runs of the store -/

theorem liftDb_apply (x : DbM α) (chain : Blockchain) :
    liftDb x chain =
      match x chain.db with
      | .ok a db => .ok a { chain with db }
      | .error e db => .error e { chain with db } := rfl

/-- A store program that changes nothing changes nothing of the chain. -/
theorem liftDb_inspects {x : DbM α} (inspects : Inspects x) :
    Inspects (liftDb x) := by
  intro chain
  have unchanged := inspects chain.db
  rw [liftDb_apply]
  cases run : x chain.db with
  | ok a db =>
      rw [run] at unchanged
      change db = chain.db at unchanged
      change { chain with db } = chain
      rw [unchanged]
  | error e db =>
      rw [run] at unchanged
      change db = chain.db at unchanged
      change { chain with db } = chain
      rw [unchanged]

/-- A read of the store that succeeds leaves the chain as it was. -/
theorem liftDb_of_ok {x : DbM α} {chain : Blockchain} {a : α}
    (run : x chain.db = .ok a chain.db) : liftDb x chain = .ok a chain := by
  rw [liftDb_apply, run]

/-! ## Reads of the chain -/

variable (env : ChainEnv)

theorem getTailId_inspects : Inspects getTailId :=
  liftDb_inspects topBlockHash_inspects

theorem readPoint_inspects (height : Nat) : Inspects (readPoint height) :=
  Inspects.bind (getBlockTimestamp_inspects height) fun _ =>
    Inspects.bind (getBlockCumulativeDifficulty_inspects height)
      fun _ => Inspects.pure _

theorem readWindow_inspects (start stop : Nat) :
    Inspects (readWindow start stop) :=
  Inspects.bind (liftDb_inspects (Inspects.mapM readPoint_inspects))
    fun _ => Inspects.pure _

theorem checkBlockTimestamp_inspects (b : Block) :
    Inspects (checkBlockTimestamp env b) :=
  Inspects.bind Inspects.get fun _ =>
    Inspects.ite (Inspects.pure _) <| Inspects.ite (Inspects.pure _) <|
      Inspects.bind (liftDb_inspects (Inspects.mapM getBlockTimestamp_inspects))
        fun _ => Inspects.pure _

theorem getLastNBlocksSizes_inspects (count : Nat) :
    Inspects (getLastNBlocksSizes count) :=
  Inspects.bind Inspects.get fun _ =>
    liftDb_inspects (Inspects.mapM getBlockSize_inspects)

theorem validateMinerTransaction_inspects (b : Block)
    (cumulativeBlockSize fee alreadyGeneratedCoins : UInt64) :
    Inspects (validateMinerTransaction env b cumulativeBlockSize fee
      alreadyGeneratedCoins) := by
  refine Inspects.bind (getLastNBlocksSizes_inspects _) fun _ =>
    Inspects.bind Inspects.get fun _ => ?_
  split
  · exact Inspects.pure _
  · exact Inspects.ite (Inspects.pure _)
      (Inspects.ite (Inspects.pure _) (Inspects.pure _))

theorem generatedCoinsBelow_inspects (height : Nat) :
    Inspects (generatedCoinsBelow height) :=
  Inspects.ite (liftDb_inspects (getBlockAlreadyGeneratedCoins_inspects _))
    (Inspects.pure _)

theorem cumulativeDifficultyOnTop_inspects (height : Nat)
    (difficulty : UInt64) :
    Inspects (cumulativeDifficultyOnTop height difficulty) :=
  Inspects.ite (liftDb_inspects (getBlockCumulativeDifficulty_inspects _)).map
    (Inspects.pure _)

theorem completeTimestampsVector_inspects (startTopHeight : Nat)
    (timestamps : List UInt64) :
    Inspects (completeTimestampsVector startTopHeight timestamps) :=
  Inspects.bind Inspects.get fun _ =>
    Inspects.ite (Inspects.pure _) <| Inspects.ite (Inspects.pure _) <|
      Inspects.bind (liftDb_inspects (Inspects.mapM getBlockTimestamp_inspects))
        fun _ => Inspects.pure _

theorem getNextDifficultyForAlternativeChain_inspects (altChain : AltChain)
    (height : Nat) :
    Inspects (getNextDifficultyForAlternativeChain altChain height) :=
  Inspects.ite
    (Inspects.bind (readWindow_inspects _ _) fun _ =>
      Inspects.ite (Inspects.pure _) (Inspects.pure _))
    (Inspects.pure _)

theorem whenPasses_inspects {refused : α} {check : ChainM Bool}
    {rest : ChainM α} (checks : Inspects check) (continues : Inspects rest) :
    Inspects (whenPasses refused check rest) :=
  Inspects.bind checks fun _ => Inspects.ite continues (Inspects.pure _)

theorem joinAltChain_inspects (b : Block) (altChain : AltChain) :
    Inspects (joinAltChain b altChain) := by
  unfold joinAltChain
  split
  · refine Inspects.bind Inspects.get fun _ =>
      whenPasses_inspects (Inspects.pure _) <|
      whenPasses_inspects (liftDb_inspects (blockExists_inspects _)) <|
      Inspects.bind
        (liftDb_inspects (getBlockHashFromHeight_inspects _)) fun _ =>
      whenPasses_inspects (Inspects.pure _) <|
      Inspects.bind (liftDb_inspects (getBlockHeight_inspects _)) fun _ =>
        (completeTimestampsVector_inspects _ _).map
  · exact Inspects.bind (liftDb_inspects (getBlockHeight_inspects _)) fun _ =>
      (completeTimestampsVector_inspects _ _).map

theorem alternativeHeight_inspects (altChain : AltChain) (prevId : Hash) :
    Inspects (alternativeHeight altChain prevId) := by
  unfold alternativeHeight
  split
  · exact Inspects.pure _
  · exact (liftDb_inspects (getBlockHeight_inspects _)).map

theorem parentCumulativeDifficulty_inspects (altChain : AltChain)
    (prevId : Hash) :
    Inspects (parentCumulativeDifficulty altChain prevId) := by
  unfold parentCumulativeDifficulty
  split
  · exact Inspects.pure _
  · exact liftDb_inspects (Inspects.bind (getBlockHeight_inspects _) fun _ =>
      getBlockCumulativeDifficulty_inspects _)

theorem checkAlternativeBlock_inspects (b : Block) (id : Hash) :
    Inspects (checkAlternativeBlock env b id) := by
  unfold checkAlternativeBlock
  refine Inspects.bind Inspects.get fun _ => ?_
  refine Inspects.bind (joinAltChain_inspects _ _) fun joined => ?_
  rcases joined with _ | timestamps
  · exact Inspects.pure _
  refine whenPasses_inspects (Inspects.pure _) ?_
  refine Inspects.bind (alternativeHeight_inspects _ _) fun _ => ?_
  refine whenPasses_inspects (Inspects.pure _) ?_
  refine Inspects.bind
    (getNextDifficultyForAlternativeChain_inspects _ _) fun _ => ?_
  refine whenPasses_inspects (Inspects.pure _) <| whenPasses_inspects
    (Inspects.pure _) <|
    whenPasses_inspects (Inspects.pure _) ?_
  refine Inspects.bind Inspects.get fun _ => ?_
  refine Inspects.bind
    (liftDb_inspects (getBlockCumulativeDifficulty_inspects _)) fun _ => ?_
  exact Inspects.bind (parentCumulativeDifficulty_inspects _ _)
    fun _ => Inspects.pure _

/-- The rule for `whenPasses`: the check's answer decides between the
refusal and the rest. -/
theorem whenPasses_spec {pre onError : Blockchain → Prop}
    {mid : Bool → Blockchain → Prop} {post : α → Blockchain → Prop}
    {refused : α} {check : ChainM Bool} {rest : ChainM α}
    (checks : Spec pre check mid onError)
    (refuses : ∀ s, mid false s → post refused s)
    (continues : Spec (mid true) rest post onError) :
    Spec pre (whenPasses refused check rest) post onError := by
  refine Spec.bind checks fun passed => ?_
  cases passed with
  | false => exact Spec.ite (fun absurd => nomatch absurd) fun _ =>
               Spec.pure _ refuses
  | true => exact Spec.ite (fun _ => continues) fun absurd => (absurd rfl).elim

/-! ## Steps that leave the store alone -/

/-- The difficulty cache: `m_timestamps_and_difficulties_height`,
`m_timestamps` and `m_difficulties`. -/
abbrev DifficultyCache := Nat × List UInt64 × List UInt64

def Blockchain.difficultyCache (chain : Blockchain) : DifficultyCache :=
  (chain.timestampsAndDifficultiesHeight, chain.timestamps, chain.difficulties)

/-- A property of the store and the difficulty cache, with the pool holding
only transactions whose inputs are all `txin_to_key`. -/
def StoreView (P : BlockchainLmdb → DifficultyCache → Prop)
    (chain : Blockchain) : Prop :=
  P chain.db chain.difficultyCache ∧ OnlyToKeyInputs chain.txPool

/-- Every run of `x` leaves the store and the difficulty cache as they were
and keeps every pool transaction's inputs `txin_to_key`. -/
def LeavesStore (x : ChainM α) : Prop :=
  ∀ P, Maintains (StoreView P) x

/-- A store program keeps the difficulty cache and the pool, so what it
does for every cache it does for the store view. -/
theorem liftDb_storeView {P E : BlockchainLmdb → DifficultyCache → Prop}
    {Q : α → BlockchainLmdb → DifficultyCache → Prop} {x : DbM α}
    (spec : ∀ cache, Spec (fun db => P db cache) x (fun a db => Q a db cache)
      (fun db => E db cache)) :
    Spec (StoreView P) (liftDb x) (fun a => StoreView (Q a)) (StoreView E) := by
  intro chain holds
  rw [liftDb_apply]
  cases run : x chain.db with
  | ok a db => exact ⟨(spec chain.difficultyCache).of_ok holds.1 run, holds.2⟩
  | error e db =>
      exact ⟨(spec chain.difficultyCache).of_error holds.1 run, holds.2⟩

/-- A store program run from a pinned chain: what it does from that
chain's store it does for the store view. -/
theorem liftDb_at {chain : Blockchain} {R : Blockchain → Prop} {x : DbM α}
    {Q : α → BlockchainLmdb → DifficultyCache → Prop}
    {E : BlockchainLmdb → DifficultyCache → Prop}
    (spec : R chain →
      Spec (fun db => db = chain.db) x
        (fun a db => Q a db chain.difficultyCache)
    (fun db => E db chain.difficultyCache))
    (pool : R chain → OnlyToKeyInputs chain.txPool) :
    Spec (fun s => R s ∧ s = chain) (liftDb x) (fun a => StoreView (Q a))
    (StoreView E) := by
  rintro s ⟨holds, rfl⟩
  rw [liftDb_apply]
  cases run : x s.db with
  | ok a db => exact ⟨(spec holds).of_ok rfl run, pool holds⟩
  | error e db => exact ⟨(spec holds).of_error rfl run, pool holds⟩

namespace LeavesStore

theorem of_inspects {x : ChainM α} (inspects : Inspects x) : LeavesStore x :=
  fun _ => Maintains.of_inspects inspects

theorem pure (a : α) : LeavesStore (Pure.pure a : ChainM α) :=
  fun _ => Maintains.pure a

theorem bind {x : ChainM α} {f : α → ChainM β} (first : LeavesStore x)
    (rest : ∀ a, LeavesStore (f a)) : LeavesStore (x >>= f) :=
  fun P => Maintains.bind (first P) fun a => rest a P

theorem map {x : ChainM α} {g : α → β} (leaves : LeavesStore x) :
    LeavesStore (g <$> x) :=
  fun P => (leaves P).map

theorem ite {c : Prop} {_ : Decidable c} {x y : ChainM α} (yes : LeavesStore x)
    (no : LeavesStore y) : LeavesStore (if c then x else y) :=
  fun P => Maintains.ite (yes P) (no P)

theorem forM {l : List α} {f : α → ChainM PUnit}
    (round : ∀ a ∈ l, LeavesStore (f a)) : LeavesStore (l.forM f) :=
  fun P => Maintains.forM fun a mem => round a mem P

/-- An update of the chain's own fields. -/
theorem modify {f : Blockchain → Blockchain}
    (keeps : ∀ P chain, StoreView P chain → StoreView P (f chain)) :
    LeavesStore (modify f : ChainM PUnit) :=
  fun P => Maintains.modify (keeps P)

theorem modifyGet {f : Blockchain → α × Blockchain}
    (keeps : ∀ P chain, StoreView P chain → StoreView P (f chain).2) :
    LeavesStore (MonadStateOf.modifyGet f : ChainM α) :=
  fun P => Maintains.modifyGet (keeps P)

theorem whenPasses {refused : α} {check : ChainM Bool} {rest : ChainM α}
    (checks : LeavesStore check) (continues : LeavesStore rest) :
    LeavesStore (CryptonoteCore.whenPasses refused check rest) :=
  bind checks fun _ => ite continues (pure _)

end LeavesStore

/-! ## The pool's steps -/

theorem addTxToPool_leavesStore (tx : Transaction)
    (keptByBlock relayed : Bool) :
    LeavesStore (addTxToPool env tx keptByBlock relayed) :=
  LeavesStore.modifyGet fun _ _ holds =>
    ⟨holds.1, addTx_onlyToKeyInputs holds.2⟩

theorem returnTxToPool_leavesStore (txs : List Transaction) :
    LeavesStore (returnTxToPool env txs) :=
  LeavesStore.forM fun tx _ => (addTxToPool_leavesStore env tx true true).map

/-- `take_tx` keeps the pool's invariant, and what it hands out has only
`txin_to_key` inputs. -/
theorem takeTxFromPool_spec (id : Hash)
    (P : BlockchainLmdb → DifficultyCache → Prop) :
    Spec (StoreView P) (takeTxFromPool env id)
    (fun taken chain => StoreView P chain ∧ ∀ details, taken = some details →
      details.tx.checkInputsTypesSupported = true) (StoreView P) :=
  Spec.modifyGet fun _ holds =>
    let taken := takeTx_onlyToKeyInputs holds.2
    ⟨⟨holds.1, taken.1⟩, taken.2⟩

theorem addBlockAsInvalid_leavesStore (bei : BlockExtendedInfo) (h : Hash) :
    LeavesStore (addBlockAsInvalid bei h) := by
  refine LeavesStore.modifyGet fun _ _ holds => ?_
  split
  · exact holds
  · exact holds

/-! ## The difficulty cache and the checks of a new block -/

/-- `get_difficulty_for_next_block` reads the store and writes only the
cache, so it keeps every property of the store alone. -/
theorem getDifficultyForNextBlock_blind (Q : BlockchainLmdb → Prop) :
    Maintains (StoreView fun db _ => Q db) getDifficultyForNextBlock := by
  refine Maintains.bind (Maintains.of_inspects Inspects.get) fun _ => ?_
  refine Maintains.ite ?_ ?_
  · -- the cache takes the new top block
    refine Maintains.bind
      (Maintains.of_inspects
        (liftDb_inspects (getBlockTimestamp_inspects _))) fun _ => ?_
    refine Maintains.bind (Maintains.modify fun _ holds => holds) fun _ => ?_
    refine Maintains.bind
      (Maintains.of_inspects
        (liftDb_inspects (getBlockCumulativeDifficulty_inspects _)))
      fun _ => ?_
    exact Maintains.modifyGet fun _ holds => holds
  · -- the window is read again
    exact Maintains.bind
      (Maintains.of_inspects (readWindow_inspects _ _)) fun _ =>
      Maintains.modifyGet fun _ holds => holds

end CryptonoteCore
end Citicash
