import Citicash.CryptonoteCore.HardForkInvariant

/-!
# Rebuilding the hard-fork state from the store

`BlockchainDB::add_block` hands every block it stores to `add`
(`storeBlock`).  When all of them are accepted, the store holds at each
height the version that was in force when the block there was added, and the
window is the last `window_size` votes of the whole history.  From these two
facts `reorganize_from_block_height(h)` rebuilds, from the store, the state the
run had after the block at `h`: it steps the fork index down to the recorded
version, recounts the window and re-adds the blocks above, which the same
states accept again, recording the same versions.  `init` on such a store
rescans the last window and restores the state after the last block.

At the genesis block `reorganize_from_block_height` starts from
`original_version` instead of the recorded version, so the rebuild needs the
first fork to be of the original version, as the placeholder `init` adds is.
-/

namespace Citicash
namespace CryptonoteCore

open Cryptonote StateRun

/-! ## Objects configured alike -/

/-- The same window, original version, default threshold and forks: what no
call after `init` changes. -/
structure HardFork.Alike (hf hf' : HardFork) : Prop where
  windowSize : hf'.windowSize = hf.windowSize
  originalVersion : hf'.originalVersion = hf.originalVersion
  defaultThresholdPercent : hf'.defaultThresholdPercent =
    hf.defaultThresholdPercent
  heights : hf'.heights = hf.heights

namespace HardFork.Alike

variable {hf hf' hf'' : HardFork}

theorem refl (hf : HardFork) : hf.Alike hf := ⟨rfl, rfl, rfl, rfl⟩

theorem trans (first : hf.Alike hf') (second : hf'.Alike hf'') :
    hf.Alike hf'' :=
  ⟨second.windowSize.trans first.windowSize,
    second.originalVersion.trans first.originalVersion,
      second.defaultThresholdPercent.trans first.defaultThresholdPercent,
    second.heights.trans first.heights⟩

theorem symm (alike : hf.Alike hf') : hf'.Alike hf :=
  ⟨alike.windowSize.symm, alike.originalVersion.symm,
    alike.defaultThresholdPercent.symm, alike.heights.symm⟩

/-- Objects configured alike are equal when their windows, counters and fork
indices are. -/
theorem eq_of (alike : hf.Alike hf') (versions : hf.versions = hf'.versions)
    (lastVersions : hf.lastVersions = hf'.lastVersions)
    (currentForkIndex : hf.currentForkIndex =
      hf'.currentForkIndex) : hf = hf' :=
  HardFork.ext alike.windowSize.symm alike.originalVersion.symm
    alike.defaultThresholdPercent.symm
    alike.heights.symm versions lastVersions currentForkIndex

-- the updates of the window and of the fork index keep the configuration
theorem trimWindow_pushVote (hf : HardFork) (v : UInt8) :
    hf.Alike (hf.trimWindow.pushVote v) :=
  ⟨rfl, rfl, rfl, rfl⟩

theorem applyVotes (hf : HardFork) (height : Nat) :
    hf.Alike (hf.applyVotes height) :=
  ⟨applyVotes_windowSize _ _, applyVotes_originalVersion _ _,
    applyVotes_defaultThresholdPercent _ _, applyVotes_heights _ _⟩

theorem clearVotes (hf : HardFork) : hf.Alike hf.clearVotes :=
  ⟨rfl, rfl, rfl, rfl⟩

theorem pushVotes (hf : HardFork) (votes : List UInt8) :
    hf.Alike (hf.pushVotes votes) :=
  ⟨HardFork.pushVotes_windowSize _ _, HardFork.pushVotes_originalVersion _ _,
    HardFork.pushVotes_defaultThresholdPercent _ _,
      HardFork.pushVotes_heights _ _⟩

theorem withForkIndex (hf : HardFork) (index : Nat) :
    hf.Alike { hf with currentForkIndex := index } := ⟨rfl, rfl, rfl, rfl⟩

theorem addStep (blockVersion votingVersion : UInt8) (height : Nat)
    (s : HardForkState) :
    s.hf.Alike
      (CryptonoteCore.addStep blockVersion votingVersion height s).2.hf := by
  rw [addStep_hf]
  split
  · exact (trimWindow_pushVote _ _).trans (applyVotes _ _)
  · exact refl _

/-- Counters that count their windows are the same function when the windows
are the same. -/
theorem lastVersions_eq {hf hf' : HardFork} (counted : hf.Counted)
    (counted' : hf'.Counted) (versions : hf.versions = hf'.versions) :
    hf.lastVersions = hf'.lastVersions := by
  funext v
  rw [counted v, counted' v, versions]

end HardFork.Alike

theorem HardFork.getEffectiveVersion_of_heights {hf hf' : HardFork}
    (heights : hf'.heights = hf.heights) :
    hf'.getEffectiveVersion = hf.getEffectiveVersion := by
  unfold HardFork.getEffectiveVersion
  rw [heights]

/-! ## Storing blocks -/

/-- One `storeBlock`: what `add` answers and the state it leaves. -/
def storeStep (b : Block) (s : HardForkState) : Bool × HardForkState :=
  addStep (getBlockVersion b) (getBlockVote b) s.db.height
    { s with db := { s.db with blocks := s.db.blocks ++ [b] } }

theorem storeBlock_apply (b : Block) (s : HardForkState) :
    storeBlock b s = .ok (storeStep b s).1 (storeStep b s).2 := by
  rw [storeBlock, get_bind_apply, bind_apply, modify_apply]
  exact add_apply _ _ _ _

/-- Blocks stored one after another: what `add` answered for each, and the
state reached. -/
def storeBlocks : List Block → HardForkState → List Bool × HardForkState
  | [], s => ([], s)
  | b :: rest, s =>
      ((storeStep b s).1 :: (storeBlocks rest (storeStep b s).2).1,
        (storeBlocks rest (storeStep b s).2).2)

theorem mapM_storeBlock (blocks : List Block) :
    ∀ s, (blocks.mapM storeBlock) s = .ok (storeBlocks blocks s).1
      (storeBlocks blocks s).2 := by
  induction blocks with
  | nil => intro s; rfl
  | cons b rest ih =>
      intro s
      rw [List.mapM_cons, bind_of_ok (storeBlock_apply b s), bind_of_ok (ih _)]
      rfl

theorem storeBlocks_append (first : List Block) (rest : List Block) :
    ∀ s, storeBlocks (first ++ rest) s =
      ((storeBlocks first s).1 ++ (storeBlocks rest (storeBlocks first s).2).1,
        (storeBlocks rest (storeBlocks first s).2).2) := by
  induction first with
  | nil => intro s; rfl
  | cons b first ih =>
      intro s
      rw [List.cons_append, storeBlocks, storeBlocks, ih]
      rfl

theorem storeStep_blocks (b : Block) (s : HardForkState) :
    (storeStep b s).2.db.blocks = s.db.blocks ++ [b] := addStep_blocks _ _ _ _

theorem storeStep_hf_of_accepted {b : Block} {s : HardForkState}
    (accepted : (storeStep b s).1 = true) : (storeStep b s).2.hf =
      (s.hf.trimWindow.pushVote
        (s.hf.getEffectiveVersion (getBlockVote b))).applyVotes
          (s.db.height + 1) := by
  unfold storeStep at accepted ⊢
  rw [addStep_fst] at accepted
  rw [addStep_hf, if_pos accepted]

theorem storeStep_hfVersions_of_accepted {b : Block} {s : HardForkState}
    (accepted : (storeStep b s).1 = true) :
    (storeStep b s).2.db.hfVersions =
      Function.update s.db.hfVersions s.db.height
        (some s.hf.currentFork.version) := by
  unfold storeStep at accepted ⊢
  rw [addStep_fst] at accepted
  rw [addStep_db, if_pos accepted]
  rfl

theorem HardFork.Alike.storeStep (b : Block) (s : HardForkState) :
    s.hf.Alike (storeStep b s).2.hf :=
  HardFork.Alike.addStep (getBlockVersion b) (getBlockVote b) s.db.height
    { s with db := { s.db with blocks := s.db.blocks ++ [b] } }

theorem storeStep_currentForkIndex_le (b : Block) (s : HardForkState) :
    s.hf.currentForkIndex ≤ (storeStep b s).2.hf.currentForkIndex :=
  addStep_currentForkIndex_le (getBlockVersion b) (getBlockVote b) s.db.height
    { s with db := { s.db with blocks := s.db.blocks ++ [b] } }

/-- Storing a block is the store changing, then `add`. -/
theorem storeStep_reachable {s : HardForkState}
    (reachable : HardForkReachable s) (b : Block) :
    HardForkReachable (storeStep b s).2 := by
  have stored :=
    reachable.call (.storeChanged { s.db with blocks := s.db.blocks ++ [b] })
  have added :
      HardForkReachable
        (finalState
          (add (getBlockVersion b) (getBlockVote b) s.db.height
            { s with db := { s.db with blocks := s.db.blocks ++ [b] } })) :=
    stored.call (.add (getBlockVersion b) (getBlockVote b) s.db.height)
  rw [add_apply] at added
  exact added

/-! ## The window of a history -/

/-- The last `windowSize` votes of a history. -/
def lastWindow (windowSize : Nat) (votes : List UInt8) : List UInt8 :=
  votes.drop (votes.length - windowSize)

/-- `add`'s pop-then-push keeps the window the last votes of the history. -/
theorem HardFork.trimWindow_pushVote_lastWindow {hf : HardFork}
    {votes : List UInt8} (positive : 0 < hf.windowSize.toNat)
    (window : hf.versions = lastWindow hf.windowSize.toNat votes)
    (v : UInt8) :
    (hf.trimWindow.pushVote v).versions = lastWindow hf.windowSize.toNat
      (votes ++ [v]) := by
  rw [pushVote_versions, trimWindow_versions, window]
  unfold lastWindow
  rw [List.drop_drop, List.length_drop, List.length_append,
    List.length_singleton, List.drop_append_of_le_length (by omega)]
  congr 2
  omega

/-- The window recounted from the store: the votes from `height - windowSize`
up to `height`. -/
theorem lastWindow_map_range (windowSize height : Nat) (f : Nat → UInt8) :
    lastWindow windowSize ((List.range height).map f) =
      (List.range' (height - windowSize)
        (height - (height - windowSize))).map f := by
  unfold lastWindow
  rw [List.length_map, List.length_range, ← List.map_drop, List.range_eq_range',
    List.drop_range', Nat.zero_add, Nat.mul_one]

/-! ## Forks in increasing version -/

/-- The forks come in strictly increasing version, as `add_fork` keeps them. -/
def ForksIncreasing (heights : List ForkParams) : Prop :=
  heights.Pairwise fun earlier later => earlier.version < later.version

theorem ForksIncreasing.lt_getD {heights : List ForkParams}
    (increasing : ForksIncreasing heights) {i j : Nat} (before : i < j)
    (bound : j < heights.length) :
    (heights.getD i default).version < (heights.getD j default).version := by
  rw [List.getD_eq_getElem?_getD,
    List.getElem?_eq_getElem (Nat.lt_trans before bound), Option.getD_some,
    List.getD_eq_getElem?_getD, List.getElem?_eq_getElem bound,
    Option.getD_some]
  exact List.pairwise_iff_getElem.mp increasing i j
    (Nat.lt_trans before bound) bound before

/-- A fork appended above the last one keeps the versions increasing. -/
theorem ForksIncreasing.append {heights : List ForkParams}
    (increasing : ForksIncreasing heights) {fork : ForkParams}
    (above : ∀ last ∈ heights.getLast?, last.version < fork.version) :
    ForksIncreasing (heights ++ [fork]) := by
  refine List.pairwise_append.mpr ⟨increasing, List.pairwise_singleton _ _, ?_⟩
  intro earlier mem later single
  rw [List.mem_singleton.mp single]
  have nonempty : heights ≠ [] := List.ne_nil_of_mem mem
  have topAbove := above _ (List.getLast?_eq_some_getLast nonempty)
  rw [← List.dropLast_append_getLast nonempty] at mem
  rcases List.mem_append.mp mem with below | top
  · have ordered : ForksIncreasing heights := increasing
    unfold ForksIncreasing at ordered
    rw [← List.dropLast_append_getLast nonempty,
      List.pairwise_append] at ordered
    exact UInt8.lt_trans (ordered.2.2 _ below _ List.mem_cons_self) topAbove
  · rw [List.mem_singleton.mp top]
    exact topAbove

theorem HardForkConfigured.forksIncreasing {hf : HardFork}
    (configured : HardForkConfigured hf) : ForksIncreasing hf.heights := by
  induction configured with
  | new built =>
      rw [(HardFork.new_eq_some built).2.2.2.1]
      exact List.Pairwise.nil
  | addFork _ added ih =>
      obtain ⟨extended, above⟩ := HardFork.addFork_eq_some added
      rw [extended]
      exact ih.append fun last found => (above last found).1

/-- Stepping down from a fork at or above the one of `version` stops at it. -/
theorem lowerForkIndex_getD {heights : List ForkParams}
    (increasing : ForksIncreasing heights) {index : Nat} :
    ∀ {current : Nat}, index ≤ current → current < heights.length →
      lowerForkIndex heights
        (heights.getD index default).version current = index
  | 0, below, _ => (Nat.le_zero.mp below).symm
  | current + 1, below, bound => by
      unfold lowerForkIndex
      split
      · rename_i higher
        -- the fork at `current + 1` is above the version: `index` is lower
        have lower : index ≠ current + 1 := fun same => by
          rw [same] at higher
          exact UInt8.lt_irrefl _ higher
        exact lowerForkIndex_getD increasing (by omega) (by omega)
      · rename_i notHigher
        by_contra different
        exact notHigher (increasing.lt_getD (by omega) bound)

/-- `rescan_from_block_height` finds the fork of a recorded version. -/
theorem scanForkIndex_getD {heights : List ForkParams}
    (increasing : ForksIncreasing heights) :
    ∀ {index : Nat}, index < heights.length →
      scanForkIndex (heights.getD index default).version heights = index := by
  induction heights with
  | nil => intro index bound; exact absurd bound (Nat.not_lt_zero _)
  | cons fork rest ih =>
      intro index bound
      cases rest with
      | nil =>
          rw [List.length_singleton] at bound
          rw [Nat.lt_one_iff.mp bound]
          rfl
      | cons next rest =>
          have restIncreasing : ForksIncreasing (next :: rest) :=
            (List.pairwise_cons.mp increasing).2
          unfold scanForkIndex
          split
          · rename_i same
            by_contra nonzero
            have higher :=
              increasing.lt_getD (Nat.pos_of_ne_zero (Ne.symm nonzero)) bound
            rw [List.getD_cons_zero] at higher
            rw [same] at higher
            exact UInt8.lt_irrefl _ higher
          · rename_i different
            cases index with
            | zero => exact absurd rfl different
            | succ index =>
                rw [List.getD_cons_succ]
                rw [List.length_cons] at bound
                rw [ih restIncreasing (by omega)]

/-! ## Runs in which every block is accepted -/

theorem storeBlocks_blocks (blocks : List Block) :
    ∀ s, (storeBlocks blocks s).2.db.blocks = s.db.blocks ++ blocks := by
  induction blocks with
  | nil => intro s; exact (List.append_nil _).symm
  | cons b rest ih =>
      intro s
      rw [storeBlocks, ih, storeStep_blocks, List.append_assoc,
        List.singleton_append]

theorem storeBlocks_reachable (blocks : List Block) :
    ∀ {s}, HardForkReachable s →
      HardForkReachable (storeBlocks blocks s).2 := by
  induction blocks with
  | nil => exact fun reachable => reachable
  | cons b rest ih =>
      exact fun reachable => ih (storeStep_reachable reachable b)

theorem storeBlocks_alike (blocks : List Block) :
    ∀ s : HardForkState, s.hf.Alike (storeBlocks blocks s).2.hf := by
  induction blocks with
  | nil => intro s; exact .refl _
  | cons b rest ih =>
      intro s
      exact (HardFork.Alike.storeStep b s).trans (ih (storeStep b s).2)

/-- The vote counted for the `i`-th of `blocks`. -/
def HardFork.voteAt (hf : HardFork) (blocks : List Block) (i : Nat) : UInt8 :=
  hf.getEffectiveVersion (getBlockVote (blocks.getD i default))

/-- The state after the first `k` of `blocks`. -/
def prefixState (s0 : HardForkState) (blocks : List Block) (k : Nat) :
    HardForkState :=
  (storeBlocks (blocks.take k) s0).2

section AcceptedRun

/- A run from `s0`, a state with no blocks stored, in which `add` accepts
every block. -/
variable {s0 : HardForkState} {blocks : List Block}

theorem prefixState_blocks (empty : s0.db.blocks = []) (k : Nat) :
    (prefixState s0 blocks k).db.blocks = blocks.take k := by
  rw [prefixState, storeBlocks_blocks, empty, List.nil_append]

theorem prefixState_height (empty : s0.db.blocks = []) {k : Nat}
    (bound : k ≤ blocks.length) : (prefixState s0 blocks k).db.height = k := by
  rw [HardForkDb.height, prefixState_blocks empty, List.length_take,
    Nat.min_eq_left bound]

theorem prefixState_length :
    prefixState s0 blocks blocks.length = (storeBlocks blocks s0).2 := by
  rw [prefixState, List.take_length]

theorem prefixState_alike (k : Nat) :
    s0.hf.Alike (prefixState s0 blocks k).hf :=
  storeBlocks_alike _ _

theorem prefixState_consistent (reachable : HardForkReachable s0) (k : Nat) :
    (prefixState s0 blocks k).hf.Consistent :=
  (storeBlocks_reachable _ reachable).consistent

variable (accepted : ∀ a ∈ (storeBlocks blocks s0).1, a = true)
include accepted

/-- The block at `k` is accepted on the state after the blocks below it, and
leads to the state after it. -/
theorem prefixState_succ {k : Nat} (below : k < blocks.length) :
    (storeStep blocks[k] (prefixState s0 blocks k)).1 = true ∧
      prefixState s0 blocks (k + 1) =
        (storeStep blocks[k] (prefixState s0 blocks k)).2 := by
  constructor
  · have split : blocks = blocks.take k ++ blocks[k] ::
      blocks.drop (k + 1) := by
      rw [List.getElem_cons_drop, List.take_append_drop]
    have answers : (storeBlocks blocks s0).1 =
        (storeBlocks
          (blocks.take k ++ blocks[k] :: blocks.drop (k + 1)) s0).1 := by
      rw [← split]
    rw [storeBlocks_append] at answers
    apply accepted
    rw [answers]
    exact List.mem_append_right _ List.mem_cons_self
  · rw [prefixState, List.take_add_one, List.getElem?_eq_getElem below,
      Option.toList_some, storeBlocks_append]
    rfl

/-- The window after `k` blocks is the last `window_size` votes of the first
`k`. -/
theorem prefixState_versions (reachable : HardForkReachable s0)
    (empty : s0.db.blocks = []) (clear : s0.hf.versions = []) :
    ∀ {k}, k ≤ blocks.length → (prefixState s0 blocks k).hf.versions =
      lastWindow s0.hf.windowSize.toNat
        ((List.range k).map (s0.hf.voteAt blocks))
  | 0, _ => by
      rw [List.range_zero, List.map_nil, lastWindow, List.drop_nil]
      exact clear
  | k + 1, bound => by
      have ⟨acceptedHere, next⟩ := prefixState_succ accepted bound
      have alike : s0.hf.Alike (prefixState s0 blocks k).hf :=
        storeBlocks_alike _ _
      have positive : 0 < (prefixState s0 blocks k).hf.windowSize.toNat :=
        (storeBlocks_reachable _ reachable).consistent.windowPositive
      have window :=
        prefixState_versions reachable empty clear (Nat.le_of_succ_le bound)
      rw [← alike.windowSize] at window
      rw [next, storeStep_hf_of_accepted acceptedHere, applyVotes_versions,
        HardFork.trimWindow_pushVote_lastWindow positive window,
          alike.windowSize, List.range_succ,
        List.map_append, List.map_singleton, HardFork.voteAt,
          List.getD_eq_getElem?_getD,
        List.getElem?_eq_getElem bound, Option.getD_some,
        HardFork.getEffectiveVersion_of_heights alike.heights]

theorem prefixState_currentForkIndex_le {j : Nat} :
    ∀ {k}, j ≤ k → k ≤ blocks.length →
      (prefixState s0 blocks j).hf.currentForkIndex ≤
        (prefixState s0 blocks k).hf.currentForkIndex
  | 0, below, _ => by rw [Nat.le_zero.mp below]
  | k + 1, below, bound => by
      rcases Nat.lt_or_eq_of_le below with earlier | same
      · have ih :=
          prefixState_currentForkIndex_le (Nat.le_of_lt_succ earlier)
            (Nat.le_of_succ_le bound)
        rw [(prefixState_succ accepted bound).2]
        exact Nat.le_trans ih (storeStep_currentForkIndex_le _ _)
      · rw [same]

/-- The store records at each height the version in force when the block there
was added. -/
theorem prefixState_recorded (empty : s0.db.blocks = []) :
    ∀ {k}, k ≤ blocks.length → ∀ i < k,
      (prefixState s0 blocks k).db.hfVersions i =
        some (prefixState s0 blocks i).hf.currentFork.version
  | 0, _, _, below => absurd below (Nat.not_lt_zero _)
  | k + 1, bound, i, below => by
      have ⟨acceptedHere, next⟩ := prefixState_succ accepted bound
      rw [next, storeStep_hfVersions_of_accepted acceptedHere,
        prefixState_height empty (Nat.le_of_succ_le bound)]
      rcases Nat.lt_or_eq_of_le (Nat.le_of_lt_succ below) with earlier | same
      · rw [Function.update_of_ne (Nat.ne_of_lt earlier)]
        exact prefixState_recorded empty (Nat.le_of_succ_le bound) i earlier
      · rw [same, Function.update_self]

/-- An object configured as the run whose window holds the last votes of the
first `k + 1` blocks, counted, with the fork in force before the block at `k`,
is moved by the vote after that block to the state the run reached. -/
theorem prefixState_of_window (reachable : HardForkReachable s0)
    (empty : s0.db.blocks = []) (clear : s0.hf.versions = []) {k : Nat}
    (below : k < blocks.length) {hf : HardFork}
    (alike : s0.hf.Alike hf) (counted : hf.Counted)
    (window : hf.versions =
      lastWindow s0.hf.windowSize.toNat
        ((List.range (k + 1)).map (s0.hf.voteAt blocks)))
    (index : hf.currentForkIndex =
      (prefixState s0 blocks k).hf.currentForkIndex) :
    hf.applyVotes (k + 1) = (prefixState s0 blocks (k + 1)).hf := by
  have ⟨acceptedHere, next⟩ := prefixState_succ accepted below
  have after := prefixState_versions accepted reachable empty clear below
  rw [next, storeStep_hf_of_accepted acceptedHere, applyVotes_versions] at after
  rw [next, storeStep_hf_of_accepted acceptedHere,
    prefixState_height empty below.le]
  congr 1
  apply HardFork.Alike.eq_of
  · exact alike.symm.trans
      ((prefixState_alike k).trans (HardFork.Alike.trimWindow_pushVote _ _))
  · rw [after, window]
  · exact HardFork.Alike.lastVersions_eq counted
      ((prefixState_consistent reachable k).counted.trimWindow.pushVote _)
        (window.trans after.symm)
  · exact index

/-- `reorganize_from_block_height(h)`, from any later state of the run, rebuilds
the state after the block at `h`. -/
theorem rebuiltAt_eq_prefixState (reachable : HardForkReachable s0)
    (empty : s0.db.blocks = []) (clear : s0.hf.versions = [])
    (increasing : ForksIncreasing s0.hf.heights) {h : Nat}
    (below : h < blocks.length) {hf : HardFork} (alike : s0.hf.Alike hf)
    (above : (prefixState s0 blocks h).hf.currentForkIndex ≤
      hf.currentForkIndex)
    (inForce : hf.currentForkIndex < hf.heights.length) (db : HardForkDb)
    (stored : ∀ i ≤ h, db.blocks.getD i default = blocks.getD i default) :
    hf.rebuiltAt db h (prefixState s0 blocks h).hf.currentFork.version =
      (prefixState s0 blocks (h + 1)).hf := by
  have positive : 0 < s0.hf.windowSize.toNat :=
    reachable.consistent.windowPositive
  have rescanned : rescanHeightBelow hf.windowSize h = h + 1 -
      s0.hf.windowSize.toNat := by
    unfold rescanHeightBelow
    rw [alike.windowSize]
    split <;> omega
  unfold HardFork.rebuiltAt
  apply prefixState_of_window accepted reachable empty clear below
  · exact alike.trans ((HardFork.Alike.clearVotes hf).trans
      ((HardFork.Alike.withForkIndex _ _).trans (HardFork.Alike.pushVotes _ _)))
  · exact HardFork.Counted.pushVotes _ hf.clearVotes_counted
  · rw [HardFork.pushVotes_versions, lastWindow_map_range, rescanned]
    dsimp only
    rw [clearVotes_versions, List.nil_append]
    apply List.map_congr_left
    intro i mem
    rw [List.mem_range'_1] at mem
    unfold HardFork.storedVote HardFork.voteAt
    rw [stored i (by omega)]
    refine congrFun (HardFork.getEffectiveVersion_of_heights ?_) _
    exact alike.heights
  · rw [HardFork.pushVotes_currentForkIndex]
    dsimp only
    rw [HardFork.currentFork, (prefixState_alike h).heights, ← alike.heights]
    exact lowerForkIndex_getD (alike.heights ▸ increasing) above inForce

/-- `rescan_from_block_height` at the height `init` passes restores the state
after the last block. -/
theorem rescannedFrom_eq_prefixState (reachable : HardForkReachable s0)
    (empty : s0.db.blocks = []) (clear : s0.hf.versions = [])
    (increasing : ForksIncreasing s0.hf.heights) {k : Nat}
    (below : k < blocks.length) {hf : HardFork} (alike : s0.hf.Alike hf)
    {db : HardForkDb} (height : db.height = k + 1)
    (stored : ∀ i ≤ k, db.blocks.getD i default = blocks.getD i default) :
    hf.rescannedFrom db (k + 1 - s0.hf.windowSize.toNat)
    (prefixState s0 blocks k).hf.currentFork.version =
      (prefixState s0 blocks (k + 1)).hf := by
  have inForce : (prefixState s0 blocks k).hf.currentForkIndex <
      (prefixState s0 blocks k).hf.heights.length :=
        (prefixState_consistent reachable k).inForce
  unfold HardFork.rescannedFrom
  rw [height]
  apply prefixState_of_window accepted reachable empty clear below
  · exact alike.trans ((HardFork.Alike.clearVotes hf).trans
      ((HardFork.Alike.pushVotes _ _).trans (HardFork.Alike.withForkIndex _ _)))
  · exact HardFork.Counted.pushVotes _ hf.clearVotes_counted
  · dsimp only
    rw [HardFork.pushVotes_versions, clearVotes_versions, List.nil_append,
      lastWindow_map_range]
    apply List.map_congr_left
    intro i mem
    rw [List.mem_range'_1] at mem
    unfold HardFork.storedVote HardFork.voteAt
    rw [stored i (by omega)]
    refine congrFun (HardFork.getEffectiveVersion_of_heights ?_) _
    exact alike.heights
  · dsimp only
    rw [HardFork.pushVotes_heights, clearVotes_heights, HardFork.currentFork,
      (prefixState_alike k).heights, ← alike.heights]
    rw [(prefixState_alike k).heights] at inForce
    exact scanForkIndex_getD (alike.heights ▸ increasing)
      (alike.heights ▸ inForce)

/-- Re-adding the stored blocks from `m` on the state after `m` blocks accepts
each again and records the version already recorded: the run's last state. -/
theorem readdBlocks_prefixState (empty : s0.db.blocks = []) :
    ∀ d m, m + d = blocks.length →
      readdBlocks (List.range' m d)
        ⟨(prefixState s0 blocks m).hf, (storeBlocks blocks s0).2.db⟩ =
          (storeBlocks blocks s0).2
  | 0, m, total => by
      rw [Nat.add_zero] at total
      subst total
      rw [prefixState_length]
      rfl
  | d + 1, m, total => by
      have below : m < blocks.length := by omega
      have ⟨acceptedHere, next⟩ := prefixState_succ accepted below
      have read : (storeBlocks blocks s0).2.db.blocks.getD m
          default = blocks[m] := by
        rw [storeBlocks_blocks, empty, List.nil_append,
          List.getD_eq_getElem?_getD, List.getElem?_eq_getElem below,
          Option.getD_some]
      have recorded := prefixState_recorded accepted empty (le_refl _) m below
      rw [prefixState_length] at recorded
      have passes :
          (prefixState s0 blocks m).hf.doCheck (getBlockVersion blocks[m])
          (getBlockVote blocks[m]) = true := by
        rw [storeStep, addStep_fst] at acceptedHere
        exact acceptedHere
      -- the block is accepted as before and writes the version already recorded
      have again :
          (addStep (getBlockVersion blocks[m]) (getBlockVote blocks[m]) m
            ⟨(prefixState s0 blocks m).hf, (storeBlocks blocks s0).2.db⟩).2 =
          ⟨(prefixState s0 blocks (m + 1)).hf,
            (storeBlocks blocks s0).2.db⟩ := by
        rw [@addStep_of_passes _ _ m
          ⟨(prefixState s0 blocks m).hf, (storeBlocks blocks s0).2.db⟩ passes,
          next, storeStep_hf_of_accepted acceptedHere,
          prefixState_height empty below.le]
        dsimp only
        rw [HardForkDb.setHardForkVersion_of_eq recorded]
      rw [List.range'_succ, readdBlocks_cons]
      dsimp only
      rw [read, again]
      exact readdBlocks_prefixState empty d (m + 1) (by omega)

/-- The version `reorganize_from_block_height(h)` steps down to is the one in
force before the block at `h`: recorded above the genesis block, the original
one at it. -/
theorem startVersionAt_prefixState (empty : s0.db.blocks = [])
    (genesis : s0.hf.currentFork.version = s0.hf.originalVersion) {h : Nat}
    (below : h < blocks.length) {hf : HardFork} (alike : s0.hf.Alike hf)
    (db : HardForkDb)
    (versions : db.hfVersions = (storeBlocks blocks s0).2.db.hfVersions) :
    startVersionAt hf db h =
      some (prefixState s0 blocks h).hf.currentFork.version := by
  unfold startVersionAt
  split
  · rename_i atGenesis
    subst atGenesis
    rw [alike.originalVersion, ← genesis]
    rfl
  · rw [versions, ← prefixState_length]
    exact prefixState_recorded accepted empty (le_refl _) h below

/-- After the cut, `get(height)` answers at every height as it did when the run
had stored the blocks up to `h`. -/
theorem getVersion_of_truncated (empty : s0.db.blocks = []) {h : Nat}
    (below : h < blocks.length) (height : Nat) :
    ∃ version,
      getVersion height ⟨(prefixState s0 blocks (h + 1)).hf,
          { (storeBlocks blocks s0).2.db with
            blocks := (storeBlocks blocks s0).2.db.blocks.take (h + 1) }⟩ =
        .ok version ⟨(prefixState s0 blocks (h + 1)).hf,
          { (storeBlocks blocks s0).2.db with
            blocks := (storeBlocks blocks s0).2.db.blocks.take (h + 1) }⟩ ∧
      getVersion height (prefixState s0 blocks (h + 1)) =
        .ok version (prefixState s0 blocks (h + 1)) := by
  have cutHeight : ({ (storeBlocks blocks s0).2.db with
      blocks := (storeBlocks blocks s0).2.db.blocks.take (h + 1) } :
        HardForkDb).height = h + 1 := by
    rw [HardForkDb.height, storeBlocks_blocks, empty, List.nil_append,
      List.length_take]
    omega
  have runHeight : (prefixState s0 blocks (h + 1)).db.height = h + 1 :=
    prefixState_height empty below
  rcases Nat.lt_trichotomy height (h + 1) with lower | top | higher
  · -- both read the version recorded when the block at `height` was added
    refine ⟨(prefixState s0 blocks height).hf.currentFork.version,
      getVersion_of_lt (lower.trans_eq cutHeight.symm) ?_,
      getVersion_of_lt (lower.trans_eq runHeight.symm)
        (prefixState_recorded accepted empty below height lower)⟩
    dsimp only
    rw [← prefixState_length]
    exact prefixState_recorded accepted empty (le_refl _) height (by omega)
  · exact ⟨_, getVersion_top (cutHeight.trans top.symm),
      getVersion_top (runHeight.trans top.symm)⟩
  · exact ⟨255, getVersion_of_gt (cutHeight.trans_lt higher),
      getVersion_of_gt (runHeight.trans_lt higher)⟩

section Rebuilds

variable (reachable : HardForkReachable s0) (empty : s0.db.blocks = [])
    (clear : s0.hf.versions = [])
  (increasing : ForksIncreasing s0.hf.heights)
    (genesis : s0.hf.currentFork.version = s0.hf.originalVersion)
include reachable empty clear increasing genesis

/-- On the store the run left, `reorganize_from_block_height(h)` ends in the
run's last state. -/
theorem reorganizeFromBlockHeight_of_accepted {h : Nat}
    (below : h < blocks.length) :
    reorganizeFromBlockHeight h (storeBlocks blocks s0).2 =
      .ok true (storeBlocks blocks s0).2 := by
  have alike : s0.hf.Alike (prefixState s0 blocks blocks.length).hf :=
    prefixState_alike _
  have height : (storeBlocks blocks s0).2.db.height = blocks.length := by
    rw [← prefixState_length, prefixState_height empty (le_refl _)]
  have start :=
    startVersionAt_prefixState accepted empty genesis below alike _ rfl
  have rebuilt :=
    rebuiltAt_eq_prefixState accepted reachable empty clear
      increasing below alike
    (prefixState_currentForkIndex_le accepted below.le (le_refl _))
    (prefixState_consistent reachable blocks.length).inForce
      (storeBlocks blocks s0).2.db
    fun i _ => by rw [storeBlocks_blocks, empty, List.nil_append]
  rw [prefixState_length] at start rebuilt
  rw [reorganizeFromBlockHeight_run (height ▸ below) start, rebuilt, height,
    readdBlocks_prefixState accepted empty _ (h + 1) (by omega)]

/-- On the store cut back to the blocks up to `h`,
`reorganize_from_block_height(h)` ends in the state the run had after the block
at `h`. -/
theorem reorganizeFromBlockHeight_of_truncated {h : Nat}
    (below : h < blocks.length) :
    reorganizeFromBlockHeight h
      ⟨(storeBlocks blocks s0).2.hf,
        { (storeBlocks blocks s0).2.db with
          blocks := (storeBlocks blocks s0).2.db.blocks.take (h + 1) }⟩ =
            .ok true ⟨(prefixState s0 blocks (h + 1)).hf,
        { (storeBlocks blocks s0).2.db with
          blocks := (storeBlocks blocks s0).2.db.blocks.take (h + 1) }⟩ := by
  have alike : s0.hf.Alike (prefixState s0 blocks blocks.length).hf :=
    prefixState_alike _
  have kept : (storeBlocks blocks s0).2.db.blocks.take (h + 1) =
      blocks.take (h + 1) := by
    rw [storeBlocks_blocks, empty, List.nil_append]
  have height :
      ((storeBlocks blocks s0).2.db.blocks.take (h + 1)).length = h + 1 := by
    rw [kept, List.length_take]
    omega
  have start := startVersionAt_prefixState accepted empty genesis below alike
    { (storeBlocks blocks s0).2.db with
      blocks := (storeBlocks blocks s0).2.db.blocks.take (h + 1) } rfl
  have rebuilt :=
    rebuiltAt_eq_prefixState accepted reachable empty clear
      increasing below alike
    (prefixState_currentForkIndex_le accepted below.le (le_refl _))
    (prefixState_consistent reachable blocks.length).inForce
    { (storeBlocks blocks s0).2.db with
      blocks := (storeBlocks blocks s0).2.db.blocks.take (h + 1) }
    fun i atMost => by
      dsimp only
      rw [kept, List.getD_eq_getElem?_getD, List.getD_eq_getElem?_getD,
        List.getElem?_take_of_lt (Nat.lt_succ_of_le atMost)]
  rw [prefixState_length] at start rebuilt
  have cutHeight : h < ({ (storeBlocks blocks s0).2.db with
      blocks := (storeBlocks blocks s0).2.db.blocks.take (h + 1) } :
        HardForkDb).height := by
    rw [HardForkDb.height, height]
    exact Nat.lt_succ_self h
  rw [@reorganizeFromBlockHeight_run
    ⟨(storeBlocks blocks s0).2.hf, { (storeBlocks blocks s0).2.db with
    blocks := (storeBlocks blocks s0).2.db.blocks.take (h + 1) }⟩ h _
      cutHeight start, rebuilt]
  simp only [HardForkDb.height, height, Nat.sub_self, List.range'_zero]
  rfl

end Rebuilds

/-- `rescan_from_block_height` at the height `init` passes, on an object
configured as the run's, restores the run's last state. -/
theorem rescanFromBlockHeight_of_accepted (reachable : HardForkReachable s0)
    (empty : s0.db.blocks = []) (clear : s0.hf.versions = [])
    (increasing : ForksIncreasing s0.hf.heights) {hf : HardFork}
    (alike : s0.hf.Alike hf) (nonempty : 0 < blocks.length) :
    rescanFromBlockHeight (blocks.length - s0.hf.windowSize.toNat)
      ⟨hf, (storeBlocks blocks s0).2.db⟩ =
        .ok true (storeBlocks blocks s0).2 := by
  have positive := reachable.consistent.windowPositive
  have height : (storeBlocks blocks s0).2.db.height = blocks.length := by
    rw [← prefixState_length, prefixState_height empty (le_refl _)]
  obtain ⟨k, total⟩ : ∃ k, blocks.length = k + 1 :=
    ⟨blocks.length - 1, by omega⟩
  have below : k < blocks.length := by omega
  have recorded := prefixState_recorded accepted empty (le_refl _)
  rw [prefixState_length] at recorded
  have top :
      (storeBlocks blocks s0).2.db.hfVersions
        ((storeBlocks blocks s0).2.db.height - 1) =
      some (prefixState s0 blocks k).hf.currentFork.version := by
    rw [height, total, Nat.add_sub_cancel]
    exact recorded k below
  have restored :=
    rescannedFrom_eq_prefixState accepted reachable empty clear
      increasing below alike
    (height.trans total)
      fun i _ => by rw [storeBlocks_blocks, empty, List.nil_append]
  have last : prefixState s0 blocks (k + 1) = (storeBlocks blocks s0).2 := by
    rw [← total, prefixState_length]
  rw [last] at restored
  have run :=
    @rescanFromBlockHeight_run ⟨hf, (storeBlocks blocks s0).2.db⟩
      (k + 1 - s0.hf.windowSize.toNat)
    _ (by dsimp only; rw [height]; omega) top
  dsimp only at run
  rw [restored] at run
  rw [total]
  exact run

/-- `init` on the store the run left, of an object that `init` resets to the
run's first state, restores the run's last state. -/
theorem init_of_accepted (reachable : HardForkReachable s0)
    (empty : s0.db.blocks = []) (clear : s0.hf.versions = [])
    (increasing : ForksIncreasing s0.hf.heights) {g : HardFork}
    (reset : g.reset = s0.hf) (stamped : s0.db.hfVersions 0 ≠ none) :
    init ⟨g, (storeBlocks blocks s0).2.db⟩ = .ok ()
    (storeBlocks blocks s0).2 := by
  have positive := reachable.consistent.windowPositive
  have height : (storeBlocks blocks s0).2.db.height = blocks.length := by
    rw [← prefixState_length, prefixState_height empty (le_refl _)]
  rcases Nat.eq_zero_or_pos blocks.length with none | nonempty
  · -- no block stored: `init` finds the store as it left it
    obtain rfl : blocks = [] := List.length_eq_zero_iff.mp none
    show init ⟨g, s0.db⟩ = .ok () s0
    rw [init_apply, reset]
    dsimp only
    rw [if_neg stamped]
    have nothingStored : s0.db.height = 0 := by
      rw [HardForkDb.height, empty]
      rfl
    exact discard_of_ok
      (rescanFromBlockHeight_of_le (nothingStored.trans_le (Nat.zero_le _)))
  · have stampedNow : (storeBlocks blocks s0).2.db.hfVersions 0 ≠ none := by
      have recorded :=
        prefixState_recorded accepted empty (le_refl _) 0 nonempty
      rw [prefixState_length] at recorded
      rw [recorded]
      exact Option.some_ne_none _
    have rescanned :
        initRescanHeight s0.hf.windowSize
          (storeBlocks blocks s0).2.db.height - 1 =
        blocks.length - s0.hf.windowSize.toNat := by
      unfold initRescanHeight
      rw [height]
      split <;> omega
    rw [init_apply, reset, if_neg stampedNow, rescanned]
    exact discard_of_ok
      (rescanFromBlockHeight_of_accepted accepted reachable empty
        clear increasing (HardFork.Alike.refl s0.hf) nonempty)

end AcceptedRun

/-! ## From `init` on a new store -/

/-- `init` on a new store finds nothing to rescan and marks the genesis
height with the original version. -/
theorem init_on_new_store (hf : HardFork) :
    init ⟨hf, ⟨[], fun _ => none⟩⟩ =
      .ok () ⟨hf.reset, (⟨[], fun _ => none⟩ : HardForkDb).setHardForkVersion 0
        hf.originalVersion⟩ := by
  rw [init_apply, if_pos rfl, bind_apply,
    discard_of_ok (reorganizeFromBlockHeight_of_le (Nat.zero_le _))]
  dsimp only
  rw [modify_apply, HardFork.reset_originalVersion]

theorem HardFork.reset_forksIncreasing {hf : HardFork}
    (configured : HardForkConfigured hf) :
    ForksIncreasing hf.reset.heights := by
  rw [HardFork.reset_heights]
  split
  · exact List.pairwise_singleton _ _
  · exact configured.forksIncreasing

/-- With the first fork of the original version, the version in force after
`init` is the original one. -/
theorem HardFork.reset_genesis {hf : HardFork}
    (genesisFork : ∀ fork ∈ hf.heights.head?,
      fork.version = hf.originalVersion) :
    hf.reset.currentFork.version = hf.reset.originalVersion := by
  rw [HardFork.currentFork, HardFork.reset_currentForkIndex,
    HardFork.reset_originalVersion, HardFork.reset_heights]
  split
  · rfl
  · rename_i added
    obtain ⟨first, rest, listed⟩ := List.exists_cons_of_ne_nil added
    rw [listed] at genesisFork ⊢
    exact genesisFork first rfl

/-- `init` resets every object configured as the one it reset before to the
same state. -/
theorem HardFork.reset_of_alike {hf g : HardFork} (alike : hf.reset.Alike g) :
    g.reset = hf.reset := by
  have placed : g.heights ≠ [] := alike.heights ▸ hf.reset_heights_ne_nil
  apply HardFork.Alike.eq_of
  · refine ⟨?_, ?_, ?_, ?_⟩
    · simp only [HardFork.reset_windowSize, alike.windowSize]
    · simp only [HardFork.reset_originalVersion, alike.originalVersion]
    · simp only [HardFork.reset_defaultThresholdPercent,
        alike.defaultThresholdPercent]
    · rw [HardFork.reset_heights g, if_neg placed, alike.heights]
  · rw [HardFork.reset_versions, HardFork.reset_versions]
  · rw [HardFork.reset_lastVersions, HardFork.reset_lastVersions]
  · rw [HardFork.reset_currentForkIndex, HardFork.reset_currentForkIndex]

/-- The blocks a node stores after `init` on a new store, all accepted by `add`,
are rebuilt the same way by every rebuild: `reorganize_from_block_height(h)` on
the store as left, or cut back to the blocks up to `h`,
`rescan_from_block_height` at the height `init` passes, and `init` itself, of
the object as configured or as the run left it. Needs the first fork to be of
the original version, which `reorganize_from_block_height(0)` steps down to. -/
theorem hardFork_rebuild_matches_incremental_run {hf : HardFork}
    (configured : HardForkConfigured hf)
    (genesisFork : ∀ fork ∈ hf.heights.head?, fork.version = hf.originalVersion)
    {blocks : List Block} {accepted : List Bool} {s : HardForkState}
    (run : (blocks.mapM storeBlock)
      (finalState (init ⟨hf, ⟨[], fun _ => none⟩⟩)) = .ok accepted s)
    (allAccepted : ∀ a ∈ accepted, a = true) :
    (∀ h < blocks.length, reorganizeFromBlockHeight h s = .ok true s) ∧
    (∀ h < blocks.length, ∀ acceptedBelow sh,
      ((blocks.take (h + 1)).mapM storeBlock)
    (finalState (init ⟨hf, ⟨[], fun _ => none⟩⟩)) = .ok acceptedBelow sh →
        reorganizeFromBlockHeight h
          ⟨s.hf, { s.db with blocks := s.db.blocks.take (h + 1) }⟩ =
            .ok true ⟨sh.hf, { s.db with blocks := s.db.blocks.take (h + 1) }⟩ ∧
          ∀ height, ∃ version,
            getVersion height
              ⟨sh.hf, { s.db with blocks := s.db.blocks.take (h + 1) }⟩ =
                .ok version
                  ⟨sh.hf, { s.db with blocks := s.db.blocks.take (h + 1) }⟩ ∧
              getVersion height sh = .ok version sh) ∧
    (0 < blocks.length →
      rescanFromBlockHeight (blocks.length - hf.windowSize.toNat)
        s = .ok true s) ∧
    init ⟨hf, s.db⟩ = .ok () s ∧ init ⟨s.hf, s.db⟩ = .ok () s := by
  rw [init_on_new_store] at run
  -- the state `init` leaves on a new store, from which every block is stored
  let s0 : HardForkState :=
    ⟨hf.reset, (⟨[], fun _ => none⟩ : HardForkDb).setHardForkVersion 0
      hf.originalVersion⟩
  have reachable : HardForkReachable s0 := by
    have initialised :=
      @HardForkReachable.init hf ⟨[], fun _ => none⟩ configured
    rwa [init_on_new_store] at initialised
  have empty : s0.db.blocks = [] := rfl
  have clear : s0.hf.versions = [] := HardFork.reset_versions hf
  have increasing : ForksIncreasing s0.hf.heights :=
    HardFork.reset_forksIncreasing configured
  have genesis : s0.hf.currentFork.version = s0.hf.originalVersion :=
    HardFork.reset_genesis genesisFork
  have stamped : s0.db.hfVersions 0 ≠ none := by
    rw [HardForkDb.setHardForkVersion_hfVersions_self]
    exact Option.some_ne_none _
  rw [mapM_storeBlock] at run
  obtain ⟨rfl, rfl⟩ := EStateM.Result.ok.inj run
  have alike : s0.hf.Alike (storeBlocks blocks s0).2.hf := by
    rw [← prefixState_length]
    exact prefixState_alike _
  refine ⟨fun h below => ?_, fun h below acceptedBelow sh runBelow => ?_,
    fun nonempty => ?_, ?_, ?_⟩
  · exact reorganizeFromBlockHeight_of_accepted allAccepted reachable empty
      clear increasing genesis below
  · -- the shorter run is the prefix of the longer one
    rw [init_on_new_store, mapM_storeBlock] at runBelow
    obtain ⟨-, rfl⟩ := EStateM.Result.ok.inj runBelow
    exact ⟨reorganizeFromBlockHeight_of_truncated allAccepted reachable empty
      clear increasing genesis below,
        getVersion_of_truncated allAccepted empty below⟩
  · have window : s0.hf.windowSize = hf.windowSize :=
      HardFork.reset_windowSize hf
    rw [← window]
    exact rescanFromBlockHeight_of_accepted allAccepted reachable empty clear
      increasing alike nonempty
  · exact init_of_accepted allAccepted reachable empty clear
      increasing rfl stamped
  · exact init_of_accepted allAccepted reachable empty clear increasing
      (HardFork.reset_of_alike alike) stamped

/-- A main-network node that stores two blocks of version 1 after `init`. -/
theorem hardFork_rebuild_on_new_node :
    let hf := (blockchainHardFork false).get rfl
    let blocks : List Block :=
      [{ (default : Block) with majorVersion := 1 },
        { (default : Block) with majorVersion := 1 }]
    ∃ accepted s,
      HardForkConfigured hf ∧
      (∀ fork ∈ hf.heights.head?, fork.version = hf.originalVersion) ∧
      (blocks.mapM storeBlock) (finalState (init ⟨hf, ⟨[], fun _ => none⟩⟩)) =
        .ok accepted s ∧
      (∀ a ∈ accepted, a = true) ∧
      (∀ h < blocks.length, reorganizeFromBlockHeight h s = .ok true s) ∧
      (∀ h < blocks.length, ∀ acceptedBelow sh,
        ((blocks.take (h + 1)).mapM storeBlock)
          (finalState (init ⟨hf, ⟨[], fun _ => none⟩⟩)) =
            .ok acceptedBelow sh →
          reorganizeFromBlockHeight h
            ⟨s.hf, { s.db with blocks := s.db.blocks.take (h + 1) }⟩ =
              .ok true ⟨sh.hf,
                { s.db with blocks := s.db.blocks.take (h + 1) }⟩ ∧
            ∀ height, ∃ version,
              getVersion height
                ⟨sh.hf, { s.db with blocks := s.db.blocks.take (h + 1) }⟩ =
                  .ok version
                    ⟨sh.hf, { s.db with blocks := s.db.blocks.take (h + 1) }⟩ ∧
                getVersion height sh = .ok version sh) ∧
      (0 < blocks.length →
        rescanFromBlockHeight (blocks.length - hf.windowSize.toNat)
          s = .ok true s) ∧
      init ⟨hf, s.db⟩ = .ok () s ∧ init ⟨s.hf, s.db⟩ = .ok () s := by
  intro hf blocks
  have configured : HardForkConfigured hf :=
    blockchainHardFork_configured (Option.some_get _).symm
  have genesisFork : ∀ fork ∈ hf.heights.head?,
      fork.version = hf.originalVersion := by decide
  have allAccepted : ∀ a ∈ (storeBlocks blocks
      (finalState (init ⟨hf, ⟨[], fun _ => none⟩⟩))).1, a = true := by
    decide
  exact ⟨_, _, configured, genesisFork, mapM_storeBlock _ _, allAccepted,
    hardFork_rebuild_matches_incremental_run configured genesisFork
      (mapM_storeBlock _ _) allAccepted⟩

/-- With a first fork of another version than the original one,
`reorganize_from_block_height(0)` steps down to the original version, pushes
the vote of the genesis block alone and refuses the next block again. -/
theorem reorganizeFromBlockHeight_genesis_uses_original_version :
    ∃ (hf : HardFork) (blocks : List Block) (accepted : List Bool)
    (s : HardForkState), HardForkConfigured hf ∧
      (blocks.mapM storeBlock) (finalState (init ⟨hf, ⟨[], fun _ => none⟩⟩)) =
        .ok accepted s ∧
      (∀ a ∈ accepted, a = true) ∧ 0 < blocks.length ∧
      (finalState (reorganizeFromBlockHeight 0 s)).hf.versions ≠
        s.hf.versions := by
  -- window 1; version 1 from height 0, version 2 from height 1 on every vote
  let hf : HardFork :=
    ⟨1, 2, 80, [⟨1, 0, 0, 0⟩, ⟨2, 100, 1, 1⟩], [], fun _ => 0, 0⟩
  let blocks : List Block :=
    [{ (default : Block) with majorVersion := 1, minorVersion := 1 },
      { (default : Block) with majorVersion := 1, minorVersion := 2 }]
  have built : HardForkConfigured ⟨1, 2, 80, [], [], fun _ => 0, 0⟩ :=
    .new (by rfl : HardFork.new 2 1 80 = _)
  have configured : HardForkConfigured hf :=
    @HardForkConfigured.addFork _ hf 2 1 100 1
      (@HardForkConfigured.addFork _ _ 1 0 0 0 built rfl) rfl
  refine ⟨hf, blocks, _, _, configured, mapM_storeBlock _ _, ?_⟩
  decide

end CryptonoteCore
end Citicash
