import Citicash.CryptonoteCore.HardFork

/-!
# The vote window and the fork index over every run

`HardFork` keeps three things in step: the window `versions` holds at most
`window_size` votes, `last_versions[v]` counts the votes for `v` in it (as a
`uint32_t`, so modulo `2^32`), and `current_fork_index` points into
`heights`.  `add` keeps them by popping the oldest votes while the window is
full before it pushes one; `reorganize_from_block_height` and `init` clear
the window and refill it with at most `window_size` votes.  `Consistent`
states the three facts, and every call the blockchain makes keeps it, so it
holds on every run from `init` of an object the constructor built.

`rescan_from_block_height` refills the window with the votes of every block
from its height up: at most `window_size` votes at the height `init` asks
for, more when it is asked for a lower one.
-/

namespace Citicash
namespace CryptonoteCore

open StateRun

/-! ## The counters -/

/-- `last_versions[v]` is the number of votes for `v` in the window, as a
`uint32_t`. -/
def HardFork.Counted (hf : HardFork) : Prop :=
  ∀ v, hf.lastVersions v = UInt32.ofNat (hf.versions.count v)

theorem HardFork.clearVotes_counted (hf : HardFork) :
    hf.clearVotes.Counted := fun _ => rfl

theorem HardFork.Counted.pushVote {hf : HardFork}
    (counted : hf.Counted) (v : UInt8) : (hf.pushVote v).Counted := by
  intro u
  simp only [HardFork.pushVote, List.count_append,
    List.count_singleton, beq_iff_eq]
  by_cases same : u = v
  · subst same
    rw [Function.update_self, counted u, if_pos rfl, UInt32.ofNat_add]
    rfl
  · rw [Function.update_of_ne same, counted u,
      if_neg (Ne.symm same), Nat.add_zero]

theorem HardFork.Counted.pushVotes (votes : List UInt8) :
    ∀ {hf : HardFork}, hf.Counted → (hf.pushVotes votes).Counted := by
  induction votes with
  | nil => exact fun counted => counted
  | cons v rest ih =>
      intro hf counted
      rw [HardFork.pushVotes_cons]
      exact ih (counted.pushVote v)

/-! ## The window -/

/-- The loop of `add` drops the oldest votes until one more fits. -/
theorem trimVotes_fst (windowSize : UInt64) :
    ∀ (votes : List UInt8) (lastVersions : UInt8 → UInt32),
      (trimVotes windowSize votes lastVersions).1 =
        votes.drop (votes.length + 1 - windowSize.toNat)
  | [], _ => List.drop_nil.symm
  | old :: rest, lastVersions => by
      unfold trimVotes
      split
      · rename_i full
        have dropped : (old :: rest).length + 1 - windowSize.toNat =
            rest.length + 1 - windowSize.toNat + 1 := by
          rw [List.length_cons] at full ⊢
          omega
        rw [trimVotes_fst windowSize rest, dropped, List.drop_succ_cons]
      · rename_i room
        have kept : (old :: rest).length + 1 - windowSize.toNat = 0 := by
          rw [List.length_cons] at room ⊢
          omega
        rw [kept, List.drop_zero]

/-- Each vote the loop drops is taken off its counter. -/
theorem trimVotes_counted (windowSize : UInt64) :
    ∀ (votes : List UInt8) (lastVersions : UInt8 → UInt32),
      (∀ v, lastVersions v = UInt32.ofNat (votes.count v)) →
        ∀ v, (trimVotes windowSize votes lastVersions).2 v =
          UInt32.ofNat ((trimVotes windowSize votes lastVersions).1.count v)
  | [], _, counted => counted
  | old :: rest, lastVersions, counted => by
      unfold trimVotes
      split
      · apply trimVotes_counted windowSize rest
        intro v
        by_cases same : v = old
        · subst same
          rw [Function.update_self, counted v, List.count_cons_self,
            UInt32.ofNat_add]
          exact UInt32.add_sub_cancel _ _
        · rw [Function.update_of_ne same, counted v,
            List.count_cons_of_ne (Ne.symm same)]
      · exact counted

@[simp] theorem HardFork.trimWindow_versions (hf : HardFork) :
    hf.trimWindow.versions =
      hf.versions.drop (hf.versions.length + 1 - hf.windowSize.toNat) :=
  trimVotes_fst _ _ _

theorem HardFork.Counted.trimWindow {hf : HardFork} (counted : hf.Counted) :
    hf.trimWindow.Counted :=
  trimVotes_counted _ _ _ counted

/-- After the loop of `add` and its push the window holds at most
`window_size` votes. -/
theorem HardFork.trimWindow_pushVote_length (hf : HardFork)
    (positive : 0 < hf.windowSize.toNat) (v : UInt8) :
    (hf.trimWindow.pushVote v).versions.length ≤ hf.windowSize.toNat := by
  rw [pushVote_versions, trimWindow_versions, List.length_append,
    List.length_drop, List.length_singleton]
  omega

/-! ## The fork index -/

/-- `get_voted_fork_index` returns the fork in force or one of the forks it
scanned. -/
theorem HardFork.votedForkIndexFrom_mem (hf : HardFork) (height : Nat) :
    ∀ (indices : List Nat) (accumulatedVotes : UInt32),
      hf.votedForkIndexFrom height indices accumulatedVotes =
        hf.currentForkIndex ∨
          hf.votedForkIndexFrom height indices accumulatedVotes ∈ indices
  | [], _ => .inl rfl
  | n :: rest, accumulatedVotes => by
      unfold HardFork.votedForkIndexFrom
      dsimp only
      split
      · exact .inr List.mem_cons_self
      · rcases hf.votedForkIndexFrom_mem height rest _ with kept | later
        · exact .inl kept
        · exact .inr (List.mem_cons_of_mem n later)

theorem HardFork.getVotedForkIndex_lt {hf : HardFork}
    (inForce : hf.currentForkIndex < hf.heights.length) (height : Nat) :
    hf.getVotedForkIndex height < hf.heights.length := by
  unfold HardFork.getVotedForkIndex
  rcases hf.votedForkIndexFrom_mem height _ 0 with kept | scanned
  · rw [kept]
    exact inForce
  · rw [List.mem_reverse, List.mem_range'_1] at scanned
    omega

/-- The vote never lowers the fork index. -/
theorem HardFork.currentForkIndex_le_applyVotes (hf : HardFork) (height : Nat) :
    hf.currentForkIndex ≤ (hf.applyVotes height).currentForkIndex := by
  rw [applyVotes_eq]
  exact Nat.le_max_left _ _

theorem HardFork.applyVotes_lt {hf : HardFork}
    (inForce : hf.currentForkIndex < hf.heights.length) (height : Nat) :
    (hf.applyVotes height).currentForkIndex < hf.heights.length := by
  have voted := hf.getVotedForkIndex_lt inForce height
  have truncated := Nat.mod_le (hf.getVotedForkIndex height) 256
  rw [applyVotes_eq]
  exact Nat.max_lt.mpr ⟨inForce, by omega⟩

theorem lowerForkIndex_le (heights : List ForkParams) (startVersion : UInt8) :
    ∀ index, lowerForkIndex heights startVersion index ≤ index
  | 0 => le_rfl
  | index + 1 => by
      unfold lowerForkIndex
      split
      · exact (lowerForkIndex_le heights startVersion index).trans
          (Nat.le_succ index)
      · exact le_rfl

theorem scanForkIndex_lt (lastVersion : UInt8) :
    ∀ heights : List ForkParams, heights ≠ [] →
      scanForkIndex lastVersion heights < heights.length
  | [], nonempty => absurd rfl nonempty
  | [_], _ => Nat.zero_lt_one
  | fork :: next :: rest, _ => by
      have later :=
        scanForkIndex_lt lastVersion (next :: rest) (List.cons_ne_nil _ _)
      unfold scanForkIndex
      split
      · exact Nat.zero_lt_succ _
      · rw [List.length_cons]
        omega

/-! ## The invariant -/

/-- What `HardFork` keeps between calls: a positive window holding at most
`window_size` votes, counters that count them, and a fork in force that is
one of `heights`. -/
structure HardFork.Consistent (hf : HardFork) : Prop where
  windowPositive : 0 < hf.windowSize.toNat
  windowed : hf.versions.length ≤ hf.windowSize.toNat
  counted : hf.Counted
  inForce : hf.currentForkIndex < hf.heights.length

namespace HardFork.Consistent

variable {hf : HardFork}

theorem clearVotes (consistent : hf.Consistent) : hf.clearVotes.Consistent :=
  ⟨consistent.windowPositive, Nat.zero_le _, hf.clearVotes_counted,
    consistent.inForce⟩

theorem withForkIndex (consistent : hf.Consistent) {index : Nat}
    (inForce : index < hf.heights.length) :
    { hf with currentForkIndex := index }.Consistent :=
  ⟨consistent.windowPositive, consistent.windowed, consistent.counted, inForce⟩

theorem pushVotes (consistent : hf.Consistent) {votes : List UInt8}
    (fits : hf.versions.length + votes.length ≤ hf.windowSize.toNat) :
    (hf.pushVotes votes).Consistent where
  windowPositive := by
    rw [pushVotes_windowSize]
    exact consistent.windowPositive
  windowed := by
    rw [pushVotes_versions, pushVotes_windowSize, List.length_append]
    exact fits
  counted := consistent.counted.pushVotes votes
  inForce := by
    rw [pushVotes_currentForkIndex, pushVotes_heights]
    exact consistent.inForce

theorem applyVotes (consistent : hf.Consistent) (height : Nat) :
    (hf.applyVotes height).Consistent where
  windowPositive := by
    rw [applyVotes_windowSize]
    exact consistent.windowPositive
  windowed := by
    rw [applyVotes_versions, applyVotes_windowSize]
    exact consistent.windowed
  counted := by
    intro v
    rw [applyVotes_lastVersions, applyVotes_versions]
    exact consistent.counted v
  inForce := by
    rw [applyVotes_heights]
    exact applyVotes_lt consistent.inForce height

/-- The update of an accepted `add`. -/
theorem vote (consistent : hf.Consistent) (v : UInt8) (height : Nat) :
    ((hf.trimWindow.pushVote v).applyVotes height).Consistent := by
  apply applyVotes
  exact
    { windowPositive := consistent.windowPositive
      windowed := hf.trimWindow_pushVote_length consistent.windowPositive v
      counted := consistent.counted.trimWindow.pushVote v
      inForce := consistent.inForce }

/-- The window `reorganize_from_block_height` rebuilds holds the votes of at
most `window_size` blocks. -/
theorem rebuiltAt (consistent : hf.Consistent) (db : HardForkDb) (height : Nat)
    (startVersion : UInt8) :
    (hf.rebuiltAt db height startVersion).Consistent := by
  have lowered : lowerForkIndex hf.heights startVersion hf.currentForkIndex <
      hf.clearVotes.heights.length :=
    Nat.lt_of_le_of_lt (lowerForkIndex_le _ _ _) consistent.inForce
  have fits : height + 1 - rescanHeightBelow hf.windowSize height ≤
      hf.windowSize.toNat := by
    have positive := consistent.windowPositive
    unfold rescanHeightBelow
    split <;> omega
  apply applyVotes
  apply pushVotes (consistent.clearVotes.withForkIndex lowered)
  dsimp only
  rw [clearVotes_versions, clearVotes_windowSize, List.length_nil, Nat.zero_add,
    List.length_map, List.length_range']
  exact fits

/-- `rescan_from_block_height(height)` keeps the window when the blocks from
`height` up fit in it. -/
theorem rescannedFrom (consistent : hf.Consistent)
    {db : HardForkDb} {height : Nat}
    (fits : db.height - height ≤ hf.windowSize.toNat) (lastVersion : UInt8) :
    (hf.rescannedFrom db height lastVersion).Consistent := by
  have counted :
      (hf.clearVotes.pushVotes
        ((List.range' height (db.height - height)).map
          (hf.clearVotes.storedVote db))).Consistent := by
    apply consistent.clearVotes.pushVotes
    rw [clearVotes_versions, clearVotes_windowSize, List.length_nil,
      Nat.zero_add, List.length_map, List.length_range']
    exact fits
  have nonempty : hf.heights ≠ [] :=
    List.ne_nil_of_length_pos
      (Nat.lt_of_le_of_lt (Nat.zero_le _) consistent.inForce)
  apply applyVotes
  apply counted.withForkIndex
  rw [pushVotes_heights]
  exact scanForkIndex_lt lastVersion _ nonempty

end HardFork.Consistent

/-! ## Every call keeps the invariant

The run equations of `HardFork` give each operation's ends; each end keeps
`Consistent` by one of the lemmas above. -/

theorem addStep_currentForkIndex_le
    (blockVersion votingVersion : UInt8) (height : Nat) (s : HardForkState) :
    s.hf.currentForkIndex ≤
      (addStep blockVersion votingVersion height s).2.hf.currentForkIndex := by
  unfold addStep
  split
  · exact HardFork.currentForkIndex_le_applyVotes (s.hf.trimWindow.pushVote _) _
  · exact le_rfl

theorem addStep_consistent (blockVersion votingVersion : UInt8) (height : Nat)
    {s : HardForkState} (consistent : s.hf.Consistent) :
    (addStep blockVersion votingVersion height s).2.hf.Consistent := by
  unfold addStep
  split
  · exact consistent.vote _ _
  · exact consistent

theorem add_consistent (blockVersion votingVersion : UInt8) (height : Nat) :
    Maintains (fun s : HardForkState => s.hf.Consistent)
    (add blockVersion votingVersion height) := by
  intro s consistent
  rw [add_apply]
  exact addStep_consistent blockVersion votingVersion height consistent

theorem readdBlocks_consistent (heights : List Nat) :
    ∀ {s : HardForkState}, s.hf.Consistent →
      (readdBlocks heights s).hf.Consistent := by
  induction heights with
  | nil => exact fun consistent => consistent
  | cons h rest ih =>
      exact fun consistent => ih (addStep_consistent _ _ h consistent)

/-- `reorganize_from_block_height` declines above the store, rebuilds and
re-adds, or throws when the version at the height is missing. -/
theorem reorganizeFromBlockHeight_cases (height : Nat) (s : HardForkState) :
    reorganizeFromBlockHeight height s = .ok false s ∨
      (∃ startVersion, reorganizeFromBlockHeight height s =
        .ok true
          (readdBlocks (List.range' (height + 1) (s.db.height - (height + 1)))
            ⟨s.hf.rebuiltAt s.db height startVersion, s.db⟩)) ∨
      reorganizeFromBlockHeight height s =
        .error .dbError { s with hf := s.hf.clearVotes } := by
  by_cases above : s.db.height ≤ height
  · exact .inl (reorganizeFromBlockHeight_of_le above)
  · have below := Nat.lt_of_not_le above
    cases start : startVersionAt s.hf s.db height with
    | some startVersion =>
        exact .inr
          (.inl ⟨startVersion, reorganizeFromBlockHeight_run below start⟩)
    | none =>
        exact .inr (.inr (reorganizeFromBlockHeight_of_missing below start))

theorem reorganizeFromBlockHeight_consistent (height : Nat) :
    Maintains (fun s : HardForkState => s.hf.Consistent)
    (reorganizeFromBlockHeight height) := by
  intro s consistent
  rcases reorganizeFromBlockHeight_cases height s with
    run | ⟨startVersion, run⟩ | run
  · rw [run]
    exact consistent
  · rw [run]
    exact readdBlocks_consistent _
      (consistent.rebuiltAt s.db height startVersion)
  · rw [run]
    exact consistent.clearVotes

theorem reorganizeFromChainHeight_consistent (height : Nat) :
    Maintains (fun s : HardForkState => s.hf.Consistent)
    (reorganizeFromChainHeight height) := by
  unfold reorganizeFromChainHeight
  exact Maintains.ite (Maintains.pure false)
    (reorganizeFromBlockHeight_consistent _)

/-- `rescan_from_block_height(height)` keeps the invariant when the blocks
from `height` up fit in the window. -/
theorem rescanFromBlockHeight_consistent (height : Nat) :
    Spec (fun s : HardForkState => s.hf.Consistent ∧ s.db.height - height ≤
      s.hf.windowSize.toNat) (rescanFromBlockHeight height)
        (fun _ s => s.hf.Consistent) (fun s => s.hf.Consistent) := by
  intro s ⟨consistent, fits⟩
  by_cases above : s.db.height ≤ height
  · rw [rescanFromBlockHeight_of_le above]
    exact consistent
  · have below := Nat.lt_of_not_le above
    cases top : s.db.hfVersions (s.db.height - 1) with
    | some lastVersion =>
        rw [rescanFromBlockHeight_run below top]
        exact consistent.rescannedFrom fits lastVersion
    | none =>
        rw [rescanFromBlockHeight_of_missing below top]
        apply consistent.clearVotes.pushVotes
        rw [clearVotes_versions, clearVotes_windowSize,
          List.length_nil, Nat.zero_add, List.length_map, List.length_range']
        exact fits

/-- Writes to the store leave the object as it is. -/
theorem modifyDb_consistent (f : HardForkState → HardForkDb) :
    Maintains (fun s : HardForkState => s.hf.Consistent)
    (modify fun s => { s with db := f s } : HardForkM Unit) :=
  Maintains.modify fun _ consistent => consistent

/-- `init` leaves the placeholder or the first added fork in force over an
empty window. -/
theorem HardFork.reset_consistent {hf : HardFork}
    (positive : 0 < hf.windowSize.toNat) : hf.reset.Consistent := by
  have placed : 0 < hf.reset.heights.length := by
    unfold HardFork.reset
    split
    · exact Nat.zero_lt_one
    · rename_i added
      exact List.length_pos_of_ne_nil added
  exact ⟨by rwa [reset_windowSize], Nat.zero_le _, fun _ => rfl, placed⟩

/-- The blocks `init` rescans fit in the window. -/
theorem initRescanHeight_fits (windowSize : UInt64) (height : Nat)
    (positive : 0 < windowSize.toNat) :
    height - (initRescanHeight windowSize height - 1) ≤ windowSize.toNat := by
  unfold initRescanHeight
  split <;> omega

theorem init_consistent :
    Spec (fun s : HardForkState => 0 < s.hf.windowSize.toNat) init
      (fun _ s => s.hf.Consistent) (fun s => s.hf.Consistent) := by
  intro s positive
  have reset : (⟨s.hf.reset, s.db⟩ : HardForkState).hf.Consistent :=
    HardFork.reset_consistent positive
  rw [init_apply]
  by_cases stored : s.db.hfVersions 0 = none
  · -- no versions stored: rebuilt from the genesis block, which is then marked
    rw [if_pos stored]
    exact Maintains.bind (Spec.discard (reorganizeFromBlockHeight_consistent 0))
      (fun _ => modifyDb_consistent _) reset
  · rw [if_neg stored]
    apply Spec.discard (rescanFromBlockHeight_consistent _)
    refine ⟨reset, initRescanHeight_fits _ _ ?_⟩
    rw [HardFork.reset_windowSize]
    exact positive

/-! ## Runs of a constructed object -/

theorem HardForkConfigured.windowPositive {hf : HardFork}
    (configured : HardForkConfigured hf) : 0 < hf.windowSize.toNat := by
  induction configured with
  | new built =>
      obtain ⟨positive, window, -⟩ := HardFork.new_eq_some built
      rw [window]
      exact UInt64.lt_iff_toNat_lt.mp (UInt64.pos_iff_ne_zero.mpr positive)
  | addFork _ added ih =>
      obtain ⟨extended, -⟩ := HardFork.addFork_eq_some added
      rw [extended]
      exact ih

theorem HardForkCall.run_consistent (call : HardForkCall) {s : HardForkState}
    (consistent : s.hf.Consistent) : (call.run s).hf.Consistent := by
  cases call with
  | init => exact init_consistent.finalState_holds consistent.windowPositive
  | add blockVersion votingVersion height =>
      exact (add_consistent blockVersion votingVersion
        height).finalState_holds consistent
  | reorganizeFromBlockHeight height =>
      exact (reorganizeFromBlockHeight_consistent
        height).finalState_holds consistent
  | reorganizeFromChainHeight height =>
      exact (reorganizeFromChainHeight_consistent
        height).finalState_holds consistent
  | storeChanged db => exact consistent

theorem HardForkReachable.consistent {s : HardForkState}
    (reachable : HardForkReachable s) : s.hf.Consistent := by
  induction reachable with
  | init configured =>
      exact init_consistent.finalState_holds configured.windowPositive
  | call c _ ih => exact c.run_consistent ih

/-! ## On every run -/

end CryptonoteCore
end Citicash
