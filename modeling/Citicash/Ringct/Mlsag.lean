import Citicash.Ringct.RctOps

/-!
# MLSAG signatures

`MLSAG_Gen` signs a message with the secret keys of one column of a key
matrix: starting after the signer's column it walks the ring, deriving each
column's challenge from the one before with random scalars, and closes the
ring at the signer's column with `ss = alpha - c xx`.  `MLSAG_Ver` walks the
whole ring from column 0 and accepts when it comes back to the challenge it
started from.

Both walks take the same step, the challenge a column derives from the one
entering it (`mlsagChallenge`): `L = s G + c P` for every row and
`R = s Hp(P) + c I` for the double-spend rows, hashed with the message and the
keys in the layout of `toHash` (`mlsagToHash`).  Generation's walk is
described by the challenges entering the columns after the signer's
(`walkChallenges`, `foldl_mlsagGenStep`).  At the signer's column the closing
scalars give back `alpha G` and `alpha Hp(P)`, so the step there yields the
first challenge again (`mlsagChallenge_closing`).  Every step of the ring thus
leads to the next column's challenge, and a walk with that property comes
back to where it started (`foldl_range_of_cycle`): verification accepts what
generation signs (`mlsag_ring_closes`).

The random scalars of `skpkGen` and `skvGen` are arguments and arbitrary; the
`sc_check`s of `MLSAG_Ver` pass on every scalar of the model, which is reduced.
-/

namespace Citicash
namespace Cryptonote
namespace Rct

/-! ## A walk around a ring -/

/-- A walk over `0, …, n - 1` in which each step leads from the value
attached to a place to the value attached to the next place, around the ring,
comes back to the value it started from. -/
theorem foldl_range_of_cycle {α : Type} {n : Nat} (step : Nat → α → α)
    (attached : Nat → α)
    (follows : ∀ i < n, step i (attached i) = attached ((i + 1) % n)) :
    (List.range n).foldl (fun value i => step i value)
    (attached 0) = attached 0 := by
  have walked : ∀ m ≤ n,
      (List.range m).foldl (fun value i => step i value) (attached 0) =
        attached (m % n) := by
    intro m
    induction m with
    | zero => simp
    | succ m ih =>
      intro within
      rw [List.range_succ, List.foldl_append, ih (by omega),
        List.foldl_cons, List.foldl_nil, Nat.mod_eq_of_lt (by omega : m < n),
        follows m (by omega)]
  rw [walked n (le_refl n), Nat.mod_self]

/-- The step at which a walk around a ring of `n` places from `start` reaches
place `i`. -/
theorem ring_offset {n start i : Nat} (startWithin : start < n)
    (within : i < n) :
    (i + n - start) % n = if start ≤ i then i - start else i + n - start := by
  split
  · rw [show i + n - start = (i - start) + n by omega, Nat.add_mod_right,
      Nat.mod_eq_of_lt (by omega)]
  · rw [Nat.mod_eq_of_lt (by omega)]

/-- The place a walk around a ring of `n` places from `start` is at after `k`
steps. -/
theorem ring_position {n start k : Nat} (within : start + k < 2 * n) :
    (start + k) % n = if start + k < n then start + k else start + k - n := by
  split
  · exact Nat.mod_eq_of_lt ‹_›
  · rw [Nat.mod_eq_sub_mod (by omega), Nat.mod_eq_of_lt (by omega)]

theorem succ_mod_eq_zero_iff {v n : Nat} (within : v < n) :
    (v + 1) % n = 0 ↔ v + 1 = n := by
  constructor
  · intro wrapped
    by_contra short
    rw [Nat.mod_eq_of_lt (by omega)] at wrapped
    omega
  · intro full
    rw [full, Nat.mod_self]

/-- The walk from `start` is at place `i` after as many steps as its offset. -/
theorem ring_offset_eq_iff {n start i m : Nat} (startWithin : start < n)
    (within : i < n) (steps : m < n) :
    (i + n - start) % n = m ↔ i = (start + m) % n := by
  rw [ring_offset startWithin within, ring_position (by omega)]
  split_ifs <;> omega

/-- The walk from the place after `index` reaches `index` last. -/
theorem ring_offset_of_start {n index : Nat} (within : index < n) :
    (index + n - (index + 1) % n) % n = n - 1 := by
  refine (ring_offset_eq_iff (Nat.mod_lt _ (by omega)) within (by omega)).2 ?_
  rw [Nat.mod_add_mod, show index + 1 + (n - 1) = index + n by omega,
    Nat.add_mod_right,
    Nat.mod_eq_of_lt within]

/-- One step on from a place that is not the walk's last is one step further. -/
theorem ring_offset_succ {n start i : Nat} (startWithin : start < n)
    (within : i < n) (short : (i + n - start) % n + 1 < n) :
    ((i + 1) % n + n - start) % n = (i + n - start) % n + 1 := by
  have reached :=
    (ring_offset_eq_iff startWithin within (m := (i + n - start) % n)
    (by omega)).1 rfl
  refine (ring_offset_eq_iff startWithin (Nat.mod_lt _ (by omega)) short).2 ?_
  rw [← Nat.add_assoc, ← Nat.mod_add_mod (start + _), ← reached]

theorem getD_map_range {α : Type} (f : Nat → α) {n j : Nat} (within : j < n)
    (fallback : α) :
    ((List.range n).map f).getD j fallback = f j := by
  simp [List.getD_eq_getElem?_getD, within]

theorem getD_set {α : Type} (l : List α) (i j : Nat) (a fallback : α) :
    (l.set i a).getD j fallback = if i = j ∧
      j < l.length then a else l.getD j fallback := by
  simp only [List.getD_eq_getElem?_getD, List.getElem?_set]
  split_ifs with same within <;> simp_all

theorem getD_of_forall₂ {α β : Type} {R : α → β → Prop}
    {l : List α} {l' : List β} (related : List.Forall₂ R l l') (a : α) (b : β)
    {j : Nat} (within : j < l.length) :
    R (l.getD j a) (l'.getD j b) := by
  induction related generalizing j with
  | nil => simp at within
  | cons head _ ih =>
    cases j with
    | zero => simpa using head
    | succ j => simpa using ih (by simpa using within)

theorem getD_mem {α : Type} {l : List α} {i : Nat} (within : i < l.length)
    (fallback : α) :
    l.getD i fallback ∈ l := by
  rw [← List.getElem_eq_getD fallback]
  exact List.getElem_mem within

theorem forall_mem_of_getD {α : Type} {P : α → Prop} {l : List α} (fallback : α)
    (each : ∀ i < l.length, P (l.getD i fallback)) : ∀ a ∈ l, P a := by
  intro a member
  obtain ⟨i, within, rfl⟩ := List.getElem_of_mem member
  have holds := each i within
  rwa [← List.getElem_eq_getD fallback] at holds

section Mlsag

variable {Point : Type} [AddCommGroup Point] [Module Scalar Point]
    (curve : Curve Point)

/-! ## The model -/

/-- The vector `toHash` of `MLSAG_Gen` and `MLSAG_Ver`: the message, then for
each double-spend row its key, `L` and `R`, then for each other row its key and
`L`. -/
def mlsagToHash (message : Point) (column ls rs : List Point)
    (dsRows rows : Nat) : List Point :=
  message ::
    ((List.range dsRows).flatMap fun j =>
      [column.getD j 0, ls.getD j 0, rs.getD j 0]) ++
    (List.range (rows - dsRows)).flatMap fun ii =>
      [column.getD (dsRows + ii) 0, ls.getD (dsRows + ii) 0]

/-- The body of the loops of `MLSAG_Gen` and `MLSAG_Ver`: the challenge a
column with keys `column` and scalars `ss` derives from the challenge `cOld`
entering it. -/
def mlsagChallenge (message : Point) (column : List Point) (ss : List Scalar)
    (II : List Point) (dsRows rows : Nat) (cOld : Scalar) : Scalar :=
  let ls :=
    (List.range rows).map fun j => addKeys2 curve (ss.getD j 0) cOld
      (column.getD j 0)
  let rs := (List.range dsRows).map fun j =>
    addKeys3 (ss.getD j 0) (curve.hashToPoint (column.getD j 0))
      cOld (II.getD j 0)
  curve.hashToScalar (mlsagToHash message column ls rs dsRows rows)

/-- One round of the `while` loop of `MLSAG_Gen` at column `i`: the column's
random scalars (`skvGen`), the challenge it derives, and `cc` when the walk
next enters column 0. -/
def mlsagGenStep (message : Point) (pk : List (List Point)) (II : List Point)
    (dsRows rows : Nat) (ssRandom : Nat → Nat → Scalar)
    (state : Scalar × List (List Scalar) × Scalar) (i : Nat) :
    Scalar × List (List Scalar) × Scalar :=
  let column := (List.range rows).map (ssRandom i)
  let c := mlsagChallenge curve message (pk.getD i []) column II
      dsRows rows state.1
  (c, state.2.1.set i column, if (i + 1) % pk.length = 0 then c else state.2.2)

/-- `MLSAG_Gen(message, pk, xx, index, dsRows)`, with `alpha j` the secret of
the `skpkGen` of row `j` and `ssRandom i j` the scalar `skvGen` draws for row
`j` of column `i`.  The loop visits the `cols - 1` columns after `index`, in
ring order.  (`rv.ss` starts as copies of `aG` in the source; every column of it
is written before it is returned.) -/
def mlsagGen (message : Point) (pk : List (List Point)) (xx : List Scalar)
    (index dsRows : Nat) (alpha : Nat → Scalar)
    (ssRandom : Nat → Nat → Scalar) : Except String (MgSig Scalar Point) := do
  let cols := pk.length
  if cols < 2 then throw "Error! What is c if cols = 1!"
  if cols ≤ index then throw "Index out of range"
  let rows := (pk.getD 0 []).length
  if rows < 1 then throw "Empty pk"
  if (pk.drop 1).any (fun column => column.length != rows)
    then throw "pk is not rectangular"
  if xx.length ≠ rows then throw "Bad xx size"
  if rows < dsRows then throw "Bad dsRows size"
  let signer := pk.getD index []
  let aG := (List.range rows).map fun i => scalarmultBase curve (alpha i)
  let aHP := (List.range dsRows).map fun i =>
    scalarmultKey (curve.hashToPoint (signer.getD i 0)) (alpha i)
  let II := (List.range dsRows).map fun i =>
    scalarmultKey (curve.hashToPoint (signer.getD i 0)) (xx.getD i 0)
  let cOld := curve.hashToScalar (mlsagToHash message signer aG aHP dsRows rows)
  let start := (index + 1) % cols
  let (c, ss, cc) :=
    ((List.range (cols - 1)).map fun k => (start + k) % cols).foldl
      (mlsagGenStep curve message pk II dsRows rows ssRandom)
      (cOld, List.replicate cols [], if start = 0 then cOld else 0)
  pure
    ⟨ss.set index
      ((List.range rows).map fun j => alpha j - c * xx.getD j 0), cc, II⟩

/-- The challenges of generation's walk: `firstChallenge` enters the column
after the signer's, and the column the walk is at after `k` steps derives
challenge `k + 1` from challenge `k`. -/
def walkChallenges (message : Point) (pk : List (List Point)) (II : List Point)
    (dsRows rows : Nat) (ssRandom : Nat → Nat → Scalar) (start : Nat)
    (firstChallenge : Scalar) :
    Nat → Scalar
  | 0 => firstChallenge
  | k + 1 =>
    let i := (start + k) % pk.length
    mlsagChallenge curve message (pk.getD i [])
      ((List.range rows).map (ssRandom i)) II dsRows rows
      (walkChallenges message pk II dsRows rows ssRandom start firstChallenge k)

/-- `MLSAG_Ver(message, pk, rv, dsRows)`: the walk from `cc` over columns
`0, …, cols - 1` must end at `cc`.  (The `sc_check`s of `ss` and `cc` pass on
reduced scalars.) -/
def mlsagVer (message : Point) (pk : List (List Point))
    (rv : MgSig Scalar Point) (dsRows : Nat) :
    Bool :=
  let cols := pk.length
  let rows := (pk.getD 0 []).length
  if cols < 2 then false
  else if rows < 1 then false
  else if (pk.drop 1).any (fun column => column.length != rows) then false
  else if rv.II.length ≠ dsRows then false
  else if rv.ss.length ≠ cols then false
  else if rv.ss.any (fun column => column.length != rows) then false
  else if rows < dsRows then false
  else
    let c := (List.range cols).foldl (fun cOld i =>
      mlsagChallenge curve message (pk.getD i []) (rv.ss.getD i []) rv.II dsRows
        rows cOld) rv.cc
    decide (c - rv.cc = 0)

/-! ## The signer's column -/

/-- The closing scalar `alpha - c x` against the key `x P` and challenge `c`
gives back `alpha P`. -/
theorem closing_smul (alpha c x : Scalar) (P : Point) :
    (alpha - c * x) • P + c • (x • P) = alpha • P := by
  rw [sub_smul, mul_smul, sub_add_cancel]

/-- At the signer's column the closing scalars `alpha j - c xx[j]` against
the key images `xx[j] Hp(P[j])` give back `alpha G` and `alpha Hp(P)`: the step
there yields the challenge generation started from, whatever `c` is. -/
theorem mlsagChallenge_closing (message : Point) (signer : List Point)
    (xx : List Scalar) (alpha : Nat → Scalar) {dsRows rows : Nat}
    (dsWithin : dsRows ≤ rows)
    (secret : ∀ j < rows,
      signer.getD j 0 = scalarmultBase curve (xx.getD j 0)) (c : Scalar) :
    mlsagChallenge curve message signer
      ((List.range rows).map fun j => alpha j - c * xx.getD j 0)
        ((List.range dsRows).map fun j =>
          scalarmultKey (curve.hashToPoint (signer.getD j 0))
    (xx.getD j 0)) dsRows rows c =
      curve.hashToScalar (mlsagToHash message signer
        ((List.range rows).map fun j => scalarmultBase curve (alpha j))
        ((List.range dsRows).map fun j =>
          scalarmultKey (curve.hashToPoint (signer.getD j 0)) (alpha j))
            dsRows rows) := by
  have ls : ((List.range rows).map fun j => addKeys2 curve
        (((List.range rows).map fun j => alpha j - c * xx.getD j 0).getD j 0) c
          (signer.getD j 0)) =
      (List.range rows).map fun j => scalarmultBase curve (alpha j) := by
    refine List.map_congr_left fun j member => ?_
    have within := List.mem_range.1 member
    rw [getD_map_range _ within, secret j within, addKeys2_eq,
      scalarmultBase_eq, scalarmultBase_eq, closing_smul]
  have rs : ((List.range dsRows).map fun j => addKeys3
        (((List.range rows).map fun j => alpha j - c * xx.getD j 0).getD j 0)
        (curve.hashToPoint (signer.getD j 0)) c
        (((List.range dsRows).map fun j =>
          scalarmultKey (curve.hashToPoint (signer.getD j 0))
            (xx.getD j 0)).getD j 0)) =
      (List.range dsRows).map fun j =>
        scalarmultKey (curve.hashToPoint (signer.getD j 0)) (alpha j) := by
    refine List.map_congr_left fun j member => ?_
    have within := List.mem_range.1 member
    rw [getD_map_range _ (by omega), getD_map_range _ within, addKeys3_eq,
      scalarmultKey_eq, scalarmultKey_eq, closing_smul]
  simp only [mlsagChallenge, ls, rs]

/-! ## Verification -/

/-- Verification accepts a signature of the right shape whose challenges close
the ring: the step at each column leads from the challenge attached to it to the
one attached to the next column, and `cc` is the one attached to column 0. -/
theorem mlsagVer_of_cycle (message : Point) (pk : List (List Point))
    (rv : MgSig Scalar Point) {rows dsRows : Nat} (columns : 2 ≤ pk.length)
    (rectangular : ∀ column ∈ pk, column.length = rows) (nonempty : 1 ≤ rows)
    (dsWithin : dsRows ≤ rows) (images : rv.II.length = dsRows)
    (ssColumns : rv.ss.length = pk.length)
    (ssRows : ∀ column ∈ rv.ss, column.length = rows)
    (attached : Nat → Scalar) (entry : attached 0 = rv.cc)
    (follows : ∀ i < pk.length, mlsagChallenge curve message (pk.getD i [])
      (rv.ss.getD i []) rv.II dsRows rows (attached i) =
        attached ((i + 1) % pk.length)) :
    mlsagVer curve message pk rv dsRows = true := by
  have rowsEq : (pk.getD 0 []).length = rows :=
    rectangular _ (getD_mem (by omega) [])
  have pkRectangular :
      ((pk.drop 1).any fun column => column.length != rows) = false := by
    rw [List.any_eq_false]
    intro column member
    simp [rectangular column (List.mem_of_mem_drop member)]
  have ssRectangular :
      (rv.ss.any fun column => column.length != rows) = false := by
    rw [List.any_eq_false]
    intro column member
    simp [ssRows column member]
  simp only [mlsagVer, rowsEq, pkRectangular, ssRectangular, images, ssColumns,
    if_neg (show ¬pk.length < 2 by omega), if_neg (show ¬rows < 1 by omega),
    if_neg (show ¬rows < dsRows by omega), if_neg Bool.false_ne_true, ne_eq,
      not_true_eq_false,
    if_false]
  rw [← entry, foldl_range_of_cycle _ attached follows, sub_self]
  rfl

/-! ## Generation's walk -/

section Walk

variable (message : Point) (pk : List (List Point)) (II : List Point)
    (dsRows rows : Nat)
  (ssRandom : Nat → Nat → Scalar) {start : Nat}
    (startWithin : start < pk.length)
  (firstChallenge : Scalar)
include startWithin

/-- After `m` rounds of generation's loop: the challenge of step `m`, the random
columns of the places visited, and `cc` once the walk has entered column 0. -/
theorem foldl_mlsagGenStep {m : Nat} (steps : m < pk.length) :
    let state := ((List.range m).map fun k => (start + k) % pk.length).foldl
      (mlsagGenStep curve message pk II dsRows rows ssRandom)
      (firstChallenge, List.replicate pk.length [],
        if start = 0 then firstChallenge else 0)
    state.1 = walkChallenges curve message pk II dsRows rows ssRandom start
      firstChallenge m ∧
      state.2.1.length = pk.length ∧
      (∀ i < pk.length, state.2.1.getD i [] =
        if (i + pk.length - start) % pk.length < m
          then (List.range rows).map (ssRandom i)
        else []) ∧
      state.2.2 = if start = 0 ∨ pk.length - start ≤ m then
          walkChallenges curve message pk II dsRows rows ssRandom
            start firstChallenge
            ((pk.length - start) % pk.length)
        else 0 := by
  induction m with
  | zero =>
    refine ⟨rfl, by simp, fun i _ => ?_, ?_⟩
    · simp only [List.range_zero, List.map_nil, List.foldl_nil,
        List.getD_eq_getElem?_getD, List.getElem?_replicate,
        Nat.not_lt_zero, if_false]
      split <;> rfl
    by_cases first : start = 0
    · subst first
      simp [Nat.mod_self, walkChallenges]
    · simp only [List.range_zero, List.map_nil, List.foldl_nil, if_neg first]
      rw [if_neg (by omega)]
  | succ m ih =>
    obtain ⟨challenge, length, columns, cc⟩ := ih (by omega)
    intro state
    -- the round at place `(start + m) % n`
    have visited : (start + m) % pk.length < pk.length :=
      Nat.mod_lt _ (by omega)
    simp only [state, List.range_succ, List.map_append, List.map_singleton,
      List.foldl_append, List.foldl_cons, List.foldl_nil, mlsagGenStep]
    refine ⟨?_, ?_, fun i within => ?_, ?_⟩
    · rw [challenge]
      rfl
    · rw [List.length_set, length]
    · rw [getD_set, columns i within]
      have reached := ring_offset_eq_iff (m := m) startWithin within (by omega)
      by_cases here : (start + m) % pk.length = i
      · rw [if_pos ⟨here, by rw [length]; exact within⟩,
          if_pos (by omega), here]
      · rw [if_neg (fun both => here both.1)]
        by_cases earlier : (i + pk.length - start) % pk.length < m
        · rw [if_pos earlier, if_pos (by omega)]
        · rw [if_neg earlier,
            if_neg (fun later => here (reached.1 (by omega)).symm)]
    · -- `cc` is written once, when the walk leaves column `n - 1`
      rw [cc, challenge]
      have position := @ring_position pk.length start m (by omega)
      by_cases last : start + m + 1 = pk.length
      · have wrapped : ((start + m) % pk.length + 1) % pk.length = 0 := by
          rw [succ_mod_eq_zero_iff visited, position, if_pos (by omega)]
          exact last
        rw [if_pos wrapped, if_pos (by omega),
          show (pk.length - start) % pk.length = m +
              1 by rw [Nat.mod_eq_of_lt (by omega)]; omega]
        rfl
      · have unwrapped : ((start + m) % pk.length + 1) % pk.length ≠ 0 := by
          rw [Ne, succ_mod_eq_zero_iff visited, position]
          split_ifs <;> omega
        rw [if_neg unwrapped]
        by_cases entered : start = 0 ∨ pk.length - start ≤ m
        · rw [if_pos entered, if_pos (by omega)]
        · rw [if_neg entered, if_neg (by omega)]

/-- The signature generation assembles from its walk (the columns drawn on
the walk, a closing column at the signer's, and `cc`) passes verification when
the closing column leads from the walk's last challenge back to its first. -/
theorem mlsagVer_walk {index : Nat} (within : index < pk.length)
    (after : start = (index + 1) % pk.length) (columns : 2 ≤ pk.length)
    (rectangular : ∀ column ∈ pk, column.length = rows) (nonempty : 1 ≤ rows)
    (dsWithin : dsRows ≤ rows) (images : II.length = dsRows)
    (closing : Scalar → List Scalar)
    (closingRows : ∀ c, (closing c).length = rows)
    (closes : ∀ c, mlsagChallenge curve message (pk.getD index []) (closing c)
      II dsRows rows c = firstChallenge) :
    let state :=
      ((List.range (pk.length - 1)).map fun k => (start + k) % pk.length).foldl
      (mlsagGenStep curve message pk II dsRows rows ssRandom)
      (firstChallenge, List.replicate pk.length [],
        if start = 0 then firstChallenge else 0)
    mlsagVer curve message pk
      ⟨state.2.1.set index (closing state.1), state.2.2, II⟩ dsRows =
      true := by
  intro state
  obtain ⟨challenge, length, drawn, cc⟩ :=
    foldl_mlsagGenStep curve message pk II dsRows rows
    ssRandom startWithin firstChallenge (m := pk.length - 1) (by omega)
  simp only [state]
  -- the walk reaches the signer's column last
  have last : (index + pk.length - start) % pk.length = pk.length - 1 :=
    after ▸ ring_offset_of_start within
  have lastPlace : index = (start + (pk.length - 1)) % pk.length :=
    (ring_offset_eq_iff startWithin within (by omega)).1 last
  have early : ∀ i < pk.length, i ≠ index →
      (i + pk.length - start) % pk.length < pk.length - 1 := by
    intro i row other
    have below :=
      Nat.mod_lt (i + pk.length - start) (show 0 < pk.length by omega)
    have notLast :
        (i + pk.length - start) % pk.length ≠ pk.length - 1 := fun atLast =>
      other (((ring_offset_eq_iff startWithin row (by omega)).1 atLast).trans
        lastPlace.symm)
    omega
  -- the signature's columns: the closing one at the signer's, the drawn ones
  -- elsewhere
  have signed : ∀ i < pk.length,
      (state.2.1.set index (closing state.1)).getD i [] =
      if i = index then closing state.1
        else (List.range rows).map (ssRandom i) := by
    intro i row
    rw [getD_set, drawn i row]
    by_cases signer : i = index
    · rw [if_pos ⟨signer.symm, by rw [length]; exact row⟩, if_pos signer]
    · rw [if_neg (fun both => signer both.1.symm),
        if_pos (early i row signer), if_neg signer]
  refine mlsagVer_of_cycle curve message pk _ columns rectangular
    nonempty dsWithin images
    (by rw [List.length_set, length]) ?_
    (fun i => walkChallenges curve message pk II dsRows rows ssRandom
      start firstChallenge ((i + pk.length - start) % pk.length)) ?_ ?_
  · refine forall_mem_of_getD [] fun i row => ?_
    rw [List.length_set, length] at row
    rw [signed i row]
    split
    · exact closingRows _
    · simp
  · -- `cc` is the challenge entering column 0
    dsimp only
    rw [cc, if_pos (by omega), Nat.zero_add]
  · intro i row
    rw [signed i row]
    by_cases signer : i = index
    · -- the closing column leads back to the first challenge
      subst signer
      rw [if_pos rfl, last, ← challenge, closes, ← after,
        Nat.add_sub_cancel_left, Nat.mod_self]
      rfl
    · -- a drawn column is the walk's next step
      have short := early i row signer
      rw [if_neg signer, ring_offset_succ startWithin row (by omega)]
      have reached := (ring_offset_eq_iff startWithin row
        (m := (i + pk.length - start) % pk.length) (by omega)).1 rfl
      simp only [walkChallenges, ← reached]

end Walk

/-! ## Generation and verification -/

/-- **Completeness of MLSAG.** For a rectangular key matrix of at least two
columns, a signer column whose keys are `xx G`, any random scalars, and any
hash functions, `MLSAG_Gen` returns a signature and `MLSAG_Ver` accepts it. -/
theorem mlsag_ring_closes (message : Point)
    (pk : List (List Point)) (rows : Nat) (columns : 2 ≤ pk.length)
    (rectangular : ∀ column ∈ pk, column.length = rows)
    (nonempty : 1 ≤ rows) (dsRows : Nat)
    (dsWithin : dsRows ≤ rows) (index : Nat)
    (within : index < pk.length) (xx : List Scalar)
    (secret : List.Forall₂ (fun key x => key = scalarmultBase curve x)
      (pk.getD index []) xx)
    (alpha : Nat → Scalar) (ssRandom : Nat → Nat → Scalar) :
    ∃ rv, mlsagGen curve message pk xx index dsRows alpha ssRandom = .ok rv ∧
      mlsagVer curve message pk rv dsRows = true := by
  -- the checks of generation pass
  have rowsEq : (pk.getD 0 []).length = rows :=
    rectangular _ (getD_mem (by omega) [])
  have signerRows : (pk.getD index []).length = rows :=
    rectangular _ (getD_mem within [])
  have pkRectangular :
      ((pk.drop 1).any fun column => column.length != rows) = false := by
    rw [List.any_eq_false]
    intro column member
    simp [rectangular column (List.mem_of_mem_drop member)]
  have xxRows : xx.length = rows := secret.length_eq ▸ signerRows
  have keys : ∀ j < rows, (pk.getD index []).getD j 0 = scalarmultBase curve
      (xx.getD j 0) :=
    fun j row => getD_of_forall₂ secret 0 0 (by omega)
  simp only [mlsagGen, rowsEq, pkRectangular, xxRows,
    if_neg (show ¬pk.length < 2 by omega),
    if_neg (show ¬pk.length ≤ index by omega), if_neg (show ¬rows < 1 by omega),
    if_neg (show ¬rows < dsRows by omega), if_neg Bool.false_ne_true, ne_eq,
      not_true_eq_false,
    if_false]
  refine ⟨_, rfl, ?_⟩
  exact mlsagVer_walk curve message pk _ dsRows rows ssRandom
    (Nat.mod_lt _ (by omega)) _ within
    rfl columns rectangular nonempty dsWithin (by simp)
    (fun c => (List.range rows).map fun j => alpha j - c * xx.getD j 0)
      (fun c => by simp)
    (fun c => mlsagChallenge_closing curve message _ xx alpha dsWithin keys c)

/-- A ring of two one-row columns, with points the scalars themselves, signed
at column 0. -/
theorem mlsag_ring_closes_two_columns :
    ∃ rv, mlsagGen (⟨1, 2, id, List.sum, id⟩ : Curve Scalar) 0 [[1], [2]]
    [1] 0 1 (fun _ => 0)
        (fun _ _ => 0) = .ok rv ∧
      mlsagVer (⟨1, 2, id, List.sum, id⟩ : Curve Scalar) 0
        [[1], [2]] rv 1 = true :=
  mlsag_ring_closes _ 0 [[1], [2]] 1 (by decide) (by decide) le_rfl 1 le_rfl
    0 (by decide) [1]
    (.cons (by simp) .nil) (fun _ => 0) (fun _ _ => 0)


end Mlsag

end Rct
end Cryptonote
end Citicash
