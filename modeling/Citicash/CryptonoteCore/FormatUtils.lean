import Mathlib.Data.List.Sort
import Citicash.CryptonoteCore.Address

/-!
# Output offsets and amounts as text

A `txin_to_key` lists the global indices of its ring members as offsets:
`construct_tx_and_get_tx_key` sorts the absolute indices and stores each one
as its distance from the one before (`absolute_output_offsets_to_relative`),
and readers add them up again (`relative_output_offsets_to_absolute`).

`absolute_output_offsets_to_relative` works in place on a sorted copy of the
vector; the model keeps its loop as the source has it, over `List.set`, and
`std::sort` is `List.mergeSort` on `≤`: equal `uint64_t` values cannot be told
apart, so every sorting algorithm gives the same list.  Each loop is described
by what it leaves at every place (`getElem_relativeOutputOffsetsToAbsolute`,
`getElem_absoluteOutputOffsetsToRelative`), and the round trips follow from
these: the differences of the sorted list add up to it in `uint64_t` arithmetic
whatever it holds, and the running sums of a list whose sums do not wrap are
already sorted.

`print_money` writes an amount in atomic units as a decimal number of coins
with nine decimals, and `parse_amount` reads one back.  Strings are lists of
characters; `std::isspace` and `std::isdigit` are those of the classic
locale.  `boost::lexical_cast<uint64_t>` is modelled by what it does on the
digit strings `parse_amount` hands it: it reads a nonempty string of digits
and fails past `2^64 - 1`.  What `parse_amount` accepts is described exactly
(`parseAmount_eq_some_iff`), and it reads back everything `print_money`
writes.
-/

namespace Citicash
namespace CryptonoteCore

/-! ## The two loops -/

/-- The loop of `relative_output_offsets_to_absolute` after the running sum
`total`. -/
def absoluteOffsetsFrom (total : UInt64) : List UInt64 → List UInt64
  | [] => []
  | offset :: rest =>
      (total + offset) :: absoluteOffsetsFrom (total + offset) rest

/-- `relative_output_offsets_to_absolute`: each offset plus all before it, in
64-bit arithmetic. -/
def relativeOutputOffsetsToAbsolute (offsets : List UInt64) : List UInt64 :=
  absoluteOffsetsFrom 0 offsets

/-- One round of the loop of `absolute_output_offsets_to_relative`:
`res[i] -= res[i-1]`. -/
def absoluteStep (res : List UInt64) (i : Nat) : List UInt64 :=
  res.set i (res.getD i 0 - res.getD (i - 1) 0)

/-- `absolute_output_offsets_to_relative`: an empty vector is returned as it
is; otherwise the copy is sorted and each place from the last down to the
second has the one before it subtracted. -/
def absoluteOutputOffsetsToRelative (off : List UInt64) : List UInt64 :=
  if off.isEmpty then off
  else
    let res := off.mergeSort fun a b => decide (a ≤ b)
    (List.range' 1 (res.length - 1)).reverse.foldl absoluteStep res

@[simp] theorem length_absoluteStep (res : List UInt64) (i : Nat) :
    (absoluteStep res i).length = res.length := by
  simp [absoluteStep]

/-- Both loops only overwrite places, so they keep the length. -/
theorem length_foldl_of_length {step : List UInt64 → Nat → List UInt64}
    (keeps : ∀ res i, (step res i).length = res.length) (indices : List Nat)
    (res : List UInt64) :
    (indices.foldl step res).length = res.length := by
  induction indices generalizing res with
  | nil => rfl
  | cons i rest ih => rw [List.foldl_cons, ih, keeps]

/-- Overwriting one place, read back at any place. -/
theorem getD_set (l : List UInt64) (i j : Nat) (v : UInt64) :
    (l.set i v).getD j 0 = if j = i ∧ i < l.length then v else l.getD j 0 := by
  rw [List.getD_eq_getElem?_getD, List.getElem?_set, List.getD_eq_getElem?_getD]
  by_cases here : i = j
  · subst here
    by_cases within : i < l.length
    · simp [within]
    · simp [within]
  · simp [here, Ne.symm here]

/-! ## What each loop leaves -/

/-- The running sums from `total` on, at every place. -/
theorem getElem_absoluteOffsetsFrom (total : UInt64)
    (offsets : List UInt64) (j : Nat)
    (within : j < (absoluteOffsetsFrom total offsets).length) :
    (absoluteOffsetsFrom total offsets)[j] = total +
      (offsets.take (j + 1)).sum := by
  induction offsets generalizing total j with
  | nil => cases within
  | cons offset rest ih =>
    cases j with
    | zero => simp [absoluteOffsetsFrom]
    | succ j =>
      simp only [absoluteOffsetsFrom, List.getElem_cons_succ,
        List.take_succ_cons, List.sum_cons]
      rw [ih, UInt64.add_assoc]

@[simp] theorem length_absoluteOffsetsFrom (total : UInt64)
    (offsets : List UInt64) :
    (absoluteOffsetsFrom total offsets).length = offsets.length := by
  induction offsets generalizing total with
  | nil => rfl
  | cons offset rest ih => simp [absoluteOffsetsFrom, ih]

@[simp] theorem length_relativeOutputOffsetsToAbsolute (off : List UInt64) :
    (relativeOutputOffsetsToAbsolute off).length = off.length :=
  length_absoluteOffsetsFrom 0 off

/-- `relative_output_offsets_to_absolute` leaves at each place the
`uint64_t` sum of the offsets up to it. -/
theorem getElem_relativeOutputOffsetsToAbsolute (off : List UInt64) (j : Nat)
    (within : j < (relativeOutputOffsetsToAbsolute off).length) :
    (relativeOutputOffsetsToAbsolute off)[j] = (off.take (j + 1)).sum := by
  rw [← UInt64.zero_add (List.sum _)]
  exact getElem_absoluteOffsetsFrom 0 off j within

/-- After the rounds of the backward loop from place `m` down to place `1`,
each of those places holds its value less the one before it, read from the
list as it was: a round changes only its own place, and every later round
reads places below it. -/
theorem getD_foldl_absoluteStep (res : List UInt64) (m : Nat) (j : Nat) :
    ((List.range' 1 m).reverse.foldl absoluteStep res).getD j 0 =
      if 1 ≤ j ∧ j ≤ m ∧ j < res.length then res.getD j 0 - res.getD (j - 1) 0
      else res.getD j 0 := by
  induction m generalizing res j with
  | zero => rw [if_neg (by omega)]; rfl
  | succ m ih =>
    rw [List.range'_concat, List.reverse_append, List.reverse_singleton,
      List.singleton_append,
      List.foldl_cons, ih, length_absoluteStep, show 1 + 1 * m = m + 1 by omega]
    -- the round at `m + 1` changed that place only
    have written : ∀ k, (absoluteStep res (m + 1)).getD k 0 =
        if k = m + 1 ∧ m + 1 < res.length then res.getD (m + 1) 0 - res.getD m 0
        else res.getD k 0 := by
      intro k
      rw [absoluteStep, getD_set, Nat.add_sub_cancel]
    simp only [written]
    by_cases lower : 1 ≤ j ∧ j ≤ m ∧ j < res.length
    · rw [if_pos lower,
        if_neg (show ¬(j = m + 1 ∧ m + 1 < res.length) by omega),
        if_neg (show ¬(j - 1 = m + 1 ∧ m + 1 < res.length) by omega),
        if_pos (show 1 ≤ j ∧ j ≤ m + 1 ∧ j < res.length by omega)]
    · rw [if_neg lower]
      by_cases here : j = m + 1 ∧ m + 1 < res.length
      · obtain ⟨rfl, within⟩ := here
        rw [if_pos ⟨rfl, within⟩, if_pos ⟨by omega, le_refl _, within⟩,
          Nat.add_sub_cancel]
      · rw [if_neg here, if_neg (by omega)]

/-- The list `absolute_output_offsets_to_relative` sorts. -/
def sortedOffsets (off : List UInt64) : List UInt64 :=
  off.mergeSort fun a b => decide (a ≤ b)

@[simp] theorem length_sortedOffsets (off : List UInt64) :
    (sortedOffsets off).length = off.length :=
  List.length_mergeSort off

@[simp] theorem length_absoluteOutputOffsetsToRelative (off : List UInt64) :
    (absoluteOutputOffsetsToRelative off).length = off.length := by
  unfold absoluteOutputOffsetsToRelative
  split
  · rfl
  · rw [length_foldl_of_length length_absoluteStep, List.length_mergeSort]

/-- `absolute_output_offsets_to_relative` leaves the first of the sorted
offsets in place and every later one less the one before it. -/
theorem getD_absoluteOutputOffsetsToRelative (off : List UInt64) (j : Nat) :
    (absoluteOutputOffsetsToRelative off).getD j 0 =
      if 1 ≤ j ∧ j < off.length
        then (sortedOffsets off).getD j 0 - (sortedOffsets off).getD (j - 1) 0
      else (sortedOffsets off).getD j 0 := by
  unfold absoluteOutputOffsetsToRelative
  split
  · next empty =>
    rw [List.isEmpty_iff.1 empty]
    simp [sortedOffsets]
  · rw [getD_foldl_absoluteStep, List.length_mergeSort]
    simp only [show 1 ≤ j ∧ j ≤ off.length - 1 ∧ j < off.length ↔ 1 ≤ j ∧
      j < off.length by omega]
    rfl

/-! ## Round trips -/

/-- A list whose places after the first hold the differences of `s` adds up
to `s`, in `uint64_t` arithmetic. -/
theorem sum_take_of_differences (d s : List UInt64)
    (first : d.getD 0 0 = s.getD 0 0)
    (differences : ∀ j, 1 ≤ j → j < s.length → d.getD j 0 = s.getD j 0 -
      s.getD (j - 1) 0)
    (same : d.length = s.length) (j : Nat) (within : j < s.length) :
    (d.take (j + 1)).sum = s.getD j 0 := by
  induction j with
  | zero =>
    obtain ⟨head, tail, rfl⟩ := List.exists_cons_of_length_pos (same ▸ within)
    simpa using first
  | succ j ih =>
    have next : d[j + 1]? = some (d.getD (j + 1) 0) := by
      rw [List.getD_eq_getElem?_getD, List.getElem?_eq_getElem (by omega)]
      rfl
    rw [List.take_add_one, List.sum_append, ih (by omega), next,
      Option.toList_some, List.sum_singleton,
      differences (j + 1) (by omega) within, Nat.add_sub_cancel,
      UInt64.add_comm, UInt64.sub_add_cancel]

theorem getD_eq_getElem_of_lt {l : List UInt64} {j : Nat}
    (within : j < l.length) : l.getD j 0 = l[j] := by
  rw [List.getD_eq_getElem?_getD, List.getElem?_eq_getElem within,
    Option.getD_some]

/-- **Offsets made relative and made absolute again are the sorted offsets.** -/
theorem relativeOutputOffsetsToAbsolute_absoluteOutputOffsetsToRelative
    (v : List UInt64) :
    relativeOutputOffsetsToAbsolute (absoluteOutputOffsetsToRelative v) =
      sortedOffsets v := by
  apply List.ext_getElem (by simp)
  intro j within within'
  rw [getElem_relativeOutputOffsetsToAbsolute, ← getD_eq_getElem_of_lt within']
  simp only [length_relativeOutputOffsetsToAbsolute,
    length_absoluteOutputOffsetsToRelative] at within
  refine sum_take_of_differences _ _ ?_ ?_ (by simp) j (by simpa using within)
  · rw [getD_absoluteOutputOffsetsToRelative, if_neg (by omega)]
  · intro k low high
    rw [getD_absoluteOutputOffsetsToRelative, if_pos ⟨low, by simpa using high⟩]

/-- The running sums of offsets whose sums do not wrap, as numbers. -/
theorem toNat_getElem_relativeOutputOffsetsToAbsolute (r : List UInt64)
    (noWrap : ∀ k ≤ r.length, ((r.take k).map UInt64.toNat).sum <
      2 ^ 64) (j : Nat)
    (within : j < (relativeOutputOffsetsToAbsolute r).length) :
    (relativeOutputOffsetsToAbsolute r)[j].toNat =
      ((r.take (j + 1)).map UInt64.toNat).sum := by
  have sum := toNat_sum_map (r.take (j + 1)) id
  simp only [List.map_id, id_eq] at sum
  have fits : j + 1 ≤ r.length := by
    simp only [length_relativeOutputOffsetsToAbsolute] at within
    omega
  rw [Nat.mod_eq_of_lt (noWrap (j + 1) fits)] at sum
  rw [getElem_relativeOutputOffsetsToAbsolute, sum]

/-- Running sums that do not wrap never decrease. -/
theorem pairwise_relativeOutputOffsetsToAbsolute (r : List UInt64)
    (noWrap : ∀ k ≤ r.length, ((r.take k).map UInt64.toNat).sum < 2 ^ 64) :
    (relativeOutputOffsetsToAbsolute r).Pairwise (· ≤ ·) := by
  rw [List.pairwise_iff_getElem]
  intro i j within within' before
  rw [UInt64.le_iff_toNat_le,
    toNat_getElem_relativeOutputOffsetsToAbsolute r noWrap,
    toNat_getElem_relativeOutputOffsetsToAbsolute r noWrap]
  -- the first `i + 1` offsets are a prefix of the first `j + 1`
  have split := List.take_append_drop (i + 1) (r.take (j + 1))
  rw [List.take_take, Nat.min_eq_left (by omega)] at split
  rw [← split, List.map_append, List.sum_append]
  exact Nat.le_add_right _ _

/-- Consecutive running sums differ by one offset. -/
theorem sum_take_succ_sub (r : List UInt64) (j : Nat) (within : j < r.length) :
    (r.take (j + 1)).sum - (r.take j).sum = r[j] := by
  rw [List.take_add_one, List.getElem?_eq_getElem within, Option.toList_some,
    List.sum_append, List.sum_singleton, UInt64.add_comm, UInt64.add_sub_cancel]

/-- **Offsets made absolute and made relative again are the offsets**, as
long as their running sums stay below `2^64`. -/
theorem absoluteOutputOffsetsToRelative_relativeOutputOffsetsToAbsolute
    (r : List UInt64)
    (noWrap : ∀ k ≤ r.length, ((r.take k).map UInt64.toNat).sum < 2 ^ 64) :
    absoluteOutputOffsetsToRelative
      (relativeOutputOffsetsToAbsolute r) = r := by
  have sorted : sortedOffsets (relativeOutputOffsetsToAbsolute r) =
      relativeOutputOffsetsToAbsolute r :=
    List.mergeSort_eq_self (fun a b : UInt64 => a ≤ b)
      (pairwise_relativeOutputOffsetsToAbsolute r noWrap)
  apply List.ext_getElem (by simp)
  intro j within within'
  simp only [length_absoluteOutputOffsetsToRelative,
    length_relativeOutputOffsetsToAbsolute] at within
  rw [← getD_eq_getElem_of_lt, getD_absoluteOutputOffsetsToRelative, sorted,
    length_relativeOutputOffsetsToAbsolute]
  by_cases first : j = 0
  · subst first
    rw [if_neg (by omega), getD_eq_getElem_of_lt (by simpa using within),
      getElem_relativeOutputOffsetsToAbsolute,
        ← sum_take_succ_sub r 0 within, List.take_zero,
      List.sum_nil, UInt64.sub_zero]
  · rw [if_pos ⟨by omega, within⟩,
      getD_eq_getElem_of_lt (by simpa using within),
      getD_eq_getElem_of_lt (by simp; omega),
      getElem_relativeOutputOffsetsToAbsolute,
      getElem_relativeOutputOffsetsToAbsolute, Nat.sub_add_cancel (by omega),
      sum_take_succ_sub r j within]

/-- **The two offset encodings are inverse**: made relative and absolute
again, offsets come back sorted; made absolute and relative again, offsets
whose running sums stay below `2^64` come back as they were. -/
theorem outputOffsets_round_trips :
    (∀ v : List UInt64,
      relativeOutputOffsetsToAbsolute (absoluteOutputOffsetsToRelative v) =
        v.mergeSort fun a b => decide (a ≤ b)) ∧
    ∀ r : List UInt64,
      (∀ k ≤ r.length, ((r.take k).map UInt64.toNat).sum < 2 ^ 64) →
        absoluteOutputOffsetsToRelative
          (relativeOutputOffsetsToAbsolute r) = r :=
  ⟨relativeOutputOffsetsToAbsolute_absoluteOutputOffsetsToRelative,
    absoluteOutputOffsetsToRelative_relativeOutputOffsetsToAbsolute⟩

/-- The offsets of a three-member ring. -/
theorem outputOffsets_round_trips_on_ring :
    (∀ k ≤ ([3, 1, 4] : List UInt64).length,
      ((([3, 1, 4] : List UInt64).take k).map UInt64.toNat).sum < 2 ^ 64) ∧
    absoluteOutputOffsetsToRelative
      (relativeOutputOffsetsToAbsolute [3, 1, 4]) = [3, 1, 4] :=
  ⟨by decide, outputOffsets_round_trips.2 [3, 1, 4] (by decide)⟩

/-! ## Amounts as text -/

/-- `CRYPTONOTE_DISPLAY_DECIMAL_POINT`. -/
def cryptonoteDisplayDecimalPoint : Nat := 9

/-- `print_money(amount)`: `std::to_string(amount)` padded with zeros to one
digit more than the display precision, with a point before the last nine. -/
def printMoney (amount : UInt64) : List Char :=
  let s := Nat.toDigits 10 amount.toNat
  let s :=
    if s.length < cryptonoteDisplayDecimalPoint + 1 then
      List.replicate (cryptonoteDisplayDecimalPoint + 1 - s.length) '0' ++ s
    else s
  s.take (s.length - cryptonoteDisplayDecimalPoint) ++
    '.' :: s.drop (s.length - cryptonoteDisplayDecimalPoint)

/-- `boost::algorithm::trim` in the classic locale. -/
def trim (str : List Char) : List Char :=
  ((str.dropWhile isSpace).reverse.dropWhile isSpace).reverse

/-- The `while` loop of `parse_amount`: while the fraction is longer than the
display precision and the string ends in `0`, the zero is erased. -/
def eraseFractionZeros (strAmount : List Char) : Nat → List Char × Nat
  | 0 => (strAmount, 0)
  | fractionSize + 1 =>
    if cryptonoteDisplayDecimalPoint < fractionSize + 1 ∧
      strAmount.getLast? = some '0' then
      eraseFractionZeros strAmount.dropLast fractionSize
    else (strAmount, fractionSize + 1)

/-- `string_tools::get_xtype_from_string` for `uint64_t`: only decimal digits,
then `boost::lexical_cast`, which refuses the empty string and a value past
64 bits. -/
def getXtypeFromString (strId : List Char) : Option UInt64 :=
  if !strId.all Char.isDigit || strId.isEmpty then none
  else
    let value :=
      BlockCodec.digitsValue 10 (strId.map fun c => c.toNat - '0'.toNat)
    if value < 2 ^ 64 then some value.toUInt64 else none

/-- `parse_amount(amount, str_amount)`: a decimal amount, in atomic units. -/
def parseAmount (strAmount : List Char) : Option UInt64 := do
  let strAmount := trim strAmount
  let (strAmount, fractionSize) ←
    match strAmount.idxOf? '.' with
    | some pointIndex =>
      let (strAmount, fractionSize) :=
        eraseFractionZeros strAmount (strAmount.length - pointIndex - 1)
      if cryptonoteDisplayDecimalPoint < fractionSize then none
      else some (strAmount.eraseIdx pointIndex, fractionSize)
    | none => some (strAmount, 0)
  if strAmount.isEmpty then none
  else
    let strAmount :=
      if fractionSize < cryptonoteDisplayDecimalPoint then
        strAmount ++
          List.replicate (cryptonoteDisplayDecimalPoint - fractionSize) '0'
      else strAmount
    getXtypeFromString strAmount

/-! ## Money read back -/

theorem trim_of_forall_not_space {str : List Char}
    (plain : ∀ c ∈ str, isSpace c = false) : trim str = str := by
  have keep : ∀ l : List Char, (∀ c ∈ l, isSpace c = false) →
      l.dropWhile isSpace = l := by
    intro l plain
    cases l with
    | nil => rfl
    | cons c rest => simp [plain c List.mem_cons_self]
  rw [trim, keep str plain, keep str.reverse (by simpa using plain),
    List.reverse_reverse]

theorem isSpace_of_isDigit {c : Char} (digit : c.isDigit) :
    isSpace c = false := by
  cases spaced : isSpace c
  · rfl
  · simp only [isSpace, Bool.or_eq_true, decide_eq_true_eq] at spaced
    rcases spaced with ((((rfl | rfl) | rfl) | rfl) | rfl) | rfl <;>
      exact absurd digit (by decide)

/-- The place of the first `a` in a list that has none before it. -/
theorem idxOf?_append_cons {front back : List Char} {a : Char}
    (absent : a ∉ front) :
    (front ++ a :: back).idxOf? a = some front.length := by
  rw [List.idxOf?_eq_some_iff]
  refine ⟨by simp, by simp, fun j before => ?_⟩
  rw [List.getElem_append_left before]
  exact fun found => absent (found ▸ List.getElem_mem before)

/-- `std::to_string` writes digits that read back as the number. -/
theorem digitsValue_toDigits (n : Nat) :
    BlockCodec.digitsValue 10
      ((Nat.toDigits 10 n).map fun c => c.toNat - '0'.toNat) = n := by
  induction n using Nat.strong_induction_on with
  | _ n ih =>
    by_cases small : n < 10
    · rw [Nat.toDigits_of_lt_base small]
      simp [BlockCodec.digitsValue, Nat.toNat_digitChar_of_lt_ten small]
    · have lastDigit : n % 10 < 10 := Nat.mod_lt n (by decide)
      have split :=
        Nat.toDigits_append_toDigits (by decide)
          (by omega : 0 < n / 10) lastDigit
      rw [Nat.div_add_mod, Nat.toDigits_of_lt_base lastDigit] at split
      rw [← split, List.map_append, List.map_singleton,
        BlockCodec.digitsValue_append_singleton, ih (n / 10) (by omega),
        Nat.toNat_digitChar_of_lt_ten lastDigit]
      simp only [Char.reduceToNat]
      omega

theorem eraseFractionZeros_of_le (strAmount : List Char) {fractionSize : Nat}
    (short : fractionSize ≤ cryptonoteDisplayDecimalPoint) :
    eraseFractionZeros strAmount fractionSize = (strAmount, fractionSize) := by
  cases fractionSize with
  | zero => rfl
  | succ fractionSize => rw [eraseFractionZeros, if_neg (by omega)]

theorem getXtypeFromString_of_digits {strId : List Char} (nonempty : strId ≠ [])
    (digits : ∀ c ∈ strId, c.isDigit)
    (fits : BlockCodec.digitsValue 10
      (strId.map fun c => c.toNat - '0'.toNat) < 2 ^ 64) :
    getXtypeFromString strId =
      some (BlockCodec.digitsValue 10
        (strId.map fun c => c.toNat - '0'.toNat)).toUInt64 := by
  rw [getXtypeFromString, List.all_eq_true.2 digits,
    List.isEmpty_eq_false_iff.2 nonempty]
  simp only [Bool.not_true, Bool.or_false, Bool.false_eq_true, if_false]
  rw [if_pos fits]

/-- `parse_amount` reads digits with a point before the last nine as the number
the digits spell, when it fits in 64 bits. -/
theorem parseAmount_of_digits {intPart fraction : List Char}
    (intNonempty : intPart ≠ [])
    (fractionLength : fraction.length = cryptonoteDisplayDecimalPoint)
    (digits : ∀ c ∈ intPart ++ fraction, c.isDigit)
    (fits : BlockCodec.digitsValue 10
      ((intPart ++ fraction).map fun c => c.toNat - '0'.toNat) < 2 ^ 64) :
    parseAmount (intPart ++ '.' :: fraction) =
      some (BlockCodec.digitsValue 10
        ((intPart ++ fraction).map fun c => c.toNat - '0'.toNat)).toUInt64 := by
  have pointFree : '.' ∉ intPart := fun member => by
    simpa using digits '.' (List.mem_append_left _ member)
  have plain : ∀ c ∈ intPart ++ '.' :: fraction, isSpace c = false := by
    intro c member
    rcases List.mem_append.1 member with front | point
    · exact isSpace_of_isDigit (digits c (List.mem_append_left _ front))
    rcases List.mem_cons.1 point with rfl | back
    · decide
    · exact isSpace_of_isDigit (digits c (List.mem_append_right _ back))
  have fractionSize : (intPart ++ '.' :: fraction).length - intPart.length - 1 =
      cryptonoteDisplayDecimalPoint := by
    simp [fractionLength]
  have erased : (intPart ++ '.' :: fraction).eraseIdx intPart.length =
      intPart ++ fraction := by
    rw [List.eraseIdx_append_of_length_le (le_refl _), Nat.sub_self,
      List.eraseIdx_cons_zero]
  simp only [parseAmount, trim_of_forall_not_space plain,
    idxOf?_append_cons pointFree, fractionSize,
    eraseFractionZeros_of_le _ (le_refl _), lt_irrefl, if_false, erased,
    Option.bind_eq_bind, Option.bind_some]
  rw [if_neg (by simp [intNonempty]),
    getXtypeFromString_of_digits (by simp [intNonempty]) digits fits]

/-- `print_money` writes digits with a point before the last nine, and the
digits spell the amount. -/
theorem printMoney_eq (amount : UInt64) :
    ∃ intPart fraction, printMoney amount = intPart ++ '.' ::
      fraction ∧ intPart ≠ [] ∧
      fraction.length = cryptonoteDisplayDecimalPoint ∧
      (∀ c ∈ intPart ++ fraction, c.isDigit) ∧
      BlockCodec.digitsValue 10
        ((intPart ++ fraction).map fun c => c.toNat - '0'.toNat) =
          amount.toNat := by
  obtain ⟨s, sDef⟩ : ∃ s, s = Nat.toDigits 10 amount.toNat := ⟨_, rfl⟩
  obtain ⟨padded, paddedDef⟩ : ∃ padded, padded =
      if s.length < cryptonoteDisplayDecimalPoint + 1 then
        List.replicate (cryptonoteDisplayDecimalPoint + 1 - s.length) '0' ++ s
      else s := ⟨_, rfl⟩
  have written : printMoney amount =
      padded.take (padded.length - cryptonoteDisplayDecimalPoint) ++
        '.' :: padded.drop (padded.length - cryptonoteDisplayDecimalPoint) := by
    subst paddedDef sDef
    rfl
  have sDigits : ∀ c ∈ s, c.isDigit := fun c member =>
    Nat.isDigit_of_mem_toDigits (by decide) (by decide) (sDef ▸ member)
  have sValue :
      BlockCodec.digitsValue 10
        (s.map fun c => c.toNat - '0'.toNat) = amount.toNat :=
    sDef ▸ digitsValue_toDigits amount.toNat
  have paddedLength : cryptonoteDisplayDecimalPoint + 1 ≤ padded.length := by
    rw [paddedDef]
    split
    · rw [List.length_append, List.length_replicate]
      omega
    · omega
  have paddedDigits : ∀ c ∈ padded, c.isDigit := by
    rw [paddedDef]
    split
    · intro c member
      rcases List.mem_append.1 member with zero | digit
      · rw [List.eq_of_mem_replicate zero]
        decide
      · exact sDigits c digit
    · exact sDigits
  have paddedValue :
      BlockCodec.digitsValue 10 (padded.map fun c => c.toNat - '0'.toNat) =
      amount.toNat := by
    rw [paddedDef]
    split
    -- the zeros in front are digits of value zero
    · rw [List.map_append, List.map_replicate, Nat.sub_self,
        BlockCodec.digitsValue_replicate_zero_append, sValue]
    · exact sValue
  refine ⟨padded.take (padded.length - cryptonoteDisplayDecimalPoint),
    padded.drop (padded.length - cryptonoteDisplayDecimalPoint),
      written, ?_, ?_, ?_, ?_⟩
  · apply List.ne_nil_of_length_pos
    rw [List.length_take]
    omega
  · rw [List.length_drop]
    omega
  · rw [List.take_append_drop]
    exact paddedDigits
  · rw [List.take_append_drop]
    exact paddedValue

/-- `parse_amount` reads back what `print_money` writes. -/
theorem parseAmount_printMoney (amount : UInt64) :
    parseAmount (printMoney amount) = some amount := by
  obtain ⟨intPart, fraction, written, intNonempty, fractionLength,
    digits, value⟩ :=
    printMoney_eq amount
  rw [written, parseAmount_of_digits intNonempty fractionLength digits
    (value ▸ amount.toNat_lt), value, Nat.toUInt64_eq, UInt64.ofNat_toNat]

/-! ## What `parse_amount` accepts -/

/-- The number a string of decimal digits spells. -/
def decimalValue (digits : List Char) : Nat :=
  BlockCodec.digitsValue 10 (digits.map fun c => c.toNat - '0'.toNat)

/-- The end of `parse_amount`, once the point is gone: an empty string
fails, and a fraction shorter than nine digits is padded with zeros. -/
def parseAmountDigits (strAmount : List Char) (fractionSize : Nat) :
    Option UInt64 :=
  if strAmount.isEmpty then none
  else
    getXtypeFromString
      (if fractionSize < cryptonoteDisplayDecimalPoint then
        strAmount ++
          List.replicate (cryptonoteDisplayDecimalPoint - fractionSize) '0'
      else strAmount)

/-- A decimal amount of `v` atomic units: digits with at most one point, not
the point alone, no nonzero digit past the ninth decimal, and the value times
`10^9` is `v`. -/
def AmountText (text : List Char) (v : UInt64) : Prop :=
  ∃ intPart fracPart : List Char,
    (text = intPart ∧ fracPart = [] ∨ text = intPart ++ '.' :: fracPart) ∧
    (∀ c ∈ intPart ++ fracPart, c.isDigit) ∧ intPart ++ fracPart ≠ [] ∧
    (∀ c ∈ fracPart.drop cryptonoteDisplayDecimalPoint, c = '0') ∧
    decimalValue (intPart ++ fracPart) * 10 ^ cryptonoteDisplayDecimalPoint =
      v.toNat * 10 ^ fracPart.length

/-- Zeros appended to a decimal string multiply its value. -/
theorem decimalValue_append_zeros (digits : List Char) (count : Nat) :
    decimalValue (digits ++ List.replicate count '0') = decimalValue digits *
      10 ^ count := by
  have zeros := BlockCodec.digitsValue_replicate_zero_append 10 count []
  rw [List.append_nil, BlockCodec.digitsValue_nil] at zeros
  rw [decimalValue, decimalValue, List.map_append, List.map_replicate,
    BlockCodec.digitsValue_append, List.length_replicate, Nat.sub_self,
    zeros, Nat.add_zero]

/-- `get_xtype_from_string` succeeds with `v` on exactly the nonempty digit
strings of value `v`. -/
theorem getXtypeFromString_eq_some_iff (strId : List Char) (v : UInt64) :
    getXtypeFromString strId = some v ↔
      (∀ c ∈ strId, c.isDigit) ∧ strId ≠ [] ∧ decimalValue strId = v.toNat := by
  unfold decimalValue
  by_cases digits : ∀ c ∈ strId, c.isDigit
  · by_cases nonempty : strId ≠ []
    · by_cases fits :
        BlockCodec.digitsValue 10
          (strId.map fun c => c.toNat - '0'.toNat) < 2 ^ 64
      · rw [getXtypeFromString_of_digits nonempty digits fits,
          Option.some.injEq]
        constructor
        · intro read
          refine ⟨digits, nonempty, ?_⟩
          rw [← read, UInt64.toNat_ofNat', Nat.mod_eq_of_lt fits]
        · rintro ⟨-, -, value⟩
          apply UInt64.toNat_inj.1
          rw [UInt64.toNat_ofNat', Nat.mod_eq_of_lt fits]
          exact value
      · -- a value past 64 bits is refused
        have refused : getXtypeFromString strId = none := by
          rw [getXtypeFromString, List.all_eq_true.2 digits,
            List.isEmpty_eq_false_iff.2 nonempty]
          exact if_neg fits
        rw [refused]
        constructor
        · exact fun none_eq => nomatch none_eq
        · rintro ⟨-, -, value⟩
          exact absurd (value ▸ v.toNat_lt) fits
    · rw [not_not] at nonempty
      subst nonempty
      simp [getXtypeFromString]
  · have refused : getXtypeFromString strId = none := by
      rw [getXtypeFromString, show strId.all Char.isDigit =
        false by simpa using digits]
      rfl
    rw [refused]
    constructor
    · exact fun none_eq => nomatch none_eq
    · rintro ⟨allDigits, -⟩
      exact absurd allDigits digits

/-- The end of `parse_amount` reads a nonempty digit string, scaled to nine
decimals. -/
theorem parseAmountDigits_eq_some_iff (strAmount : List Char)
    (fractionSize : Nat)
    (short : fractionSize ≤ cryptonoteDisplayDecimalPoint) (v : UInt64) :
    parseAmountDigits strAmount fractionSize = some v ↔
      strAmount ≠ [] ∧ (∀ c ∈ strAmount, c.isDigit) ∧
        decimalValue strAmount *
          10 ^ (cryptonoteDisplayDecimalPoint - fractionSize) = v.toNat := by
  unfold parseAmountDigits
  by_cases empty : strAmount.isEmpty
  · rw [if_pos empty, List.isEmpty_iff.1 empty]
    simp
  rw [if_neg empty]
  have nonempty : strAmount ≠ [] := fun nil => empty (List.isEmpty_iff.2 nil)
  split
  · rw [getXtypeFromString_eq_some_iff, decimalValue_append_zeros]
    simp only [List.mem_append, List.mem_replicate]
    constructor
    · rintro ⟨digits, -, value⟩
      exact ⟨nonempty, fun c member => digits c (.inl member), value⟩
    · rintro ⟨-, digits, value⟩
      refine ⟨?_, by simp [nonempty], value⟩
      rintro c (member | ⟨-, rfl⟩)
      · exact digits c member
      · rfl
  · rw [getXtypeFromString_eq_some_iff, show cryptonoteDisplayDecimalPoint -
      fractionSize = 0 by
      unfold cryptonoteDisplayDecimalPoint at *; omega,
        Nat.pow_zero, Nat.mul_one]
    constructor
    · rintro ⟨digits, -, value⟩
      exact ⟨nonempty, digits, value⟩
    · rintro ⟨-, digits, value⟩
      exact ⟨digits, nonempty, value⟩

/-- A fraction with only zeros past its ninth digit is cut to nine digits
(or left alone when shorter). -/
theorem eraseFractionZeros_of_zeros (pre fraction : List Char)
    (zeros : ∀ c ∈ fraction.drop cryptonoteDisplayDecimalPoint, c = '0') :
    eraseFractionZeros (pre ++ fraction) fraction.length =
      (pre ++ fraction.take cryptonoteDisplayDecimalPoint,
        min fraction.length cryptonoteDisplayDecimalPoint) := by
  induction fraction using List.reverseRecOn with
  | nil => rfl
  | append_singleton init last ih =>
    rw [List.length_append, List.length_singleton, eraseFractionZeros,
      ← List.append_assoc,
      List.getLast?_append_of_ne_nil _ (List.cons_ne_nil last []),
      List.getLast?_singleton]
    by_cases long : cryptonoteDisplayDecimalPoint < init.length + 1
    · -- the last digit is past the ninth, so a zero, and goes
      have tail : (init ++ [last]).drop cryptonoteDisplayDecimalPoint =
          init.drop cryptonoteDisplayDecimalPoint ++ [last] :=
        List.drop_append_of_le_length (by omega)
      have lastZero : last = '0' := zeros last (by rw [tail]; simp)
      rw [if_pos ⟨long, by rw [lastZero]⟩, List.dropLast_concat,
        ih (fun c member =>
          zeros c (by rw [tail]; exact List.mem_append_left _ member)),
        List.take_append_of_le_length (by omega)]
      congr 1
      unfold cryptonoteDisplayDecimalPoint at *
      omega
    · rw [if_neg (fun taken => long taken.1),
        List.take_of_length_le (by simp; omega), Nat.min_eq_left (by omega),
        List.append_assoc]

/-- A fraction with a nonzero digit past its ninth keeps more than nine
digits. -/
theorem lt_eraseFractionZeros_of_nonzero (pre fraction : List Char)
    (nonzero : ∃ c ∈ fraction.drop cryptonoteDisplayDecimalPoint, c ≠ '0') :
    cryptonoteDisplayDecimalPoint <
      (eraseFractionZeros (pre ++ fraction) fraction.length).2 := by
  induction fraction using List.reverseRecOn with
  | nil => simp at nonzero
  | append_singleton init last ih =>
    obtain ⟨c, member, notZero⟩ := nonzero
    have long : cryptonoteDisplayDecimalPoint < init.length + 1 := by
      have := List.length_pos_of_mem member
      simp at this
      omega
    have tail : (init ++ [last]).drop cryptonoteDisplayDecimalPoint =
        init.drop cryptonoteDisplayDecimalPoint ++ [last] :=
      List.drop_append_of_le_length (by omega)
    rw [List.length_append, List.length_singleton, eraseFractionZeros,
      ← List.append_assoc,
      List.getLast?_append_of_ne_nil _ (List.cons_ne_nil last []),
      List.getLast?_singleton]
    by_cases lastZero : last = '0'
    · -- a trailing zero goes, and the nonzero digit is still past the ninth
      rw [if_pos ⟨long, by rw [lastZero]⟩, List.dropLast_concat]
      rw [tail, List.mem_append, List.mem_singleton] at member
      refine ih
        ⟨c, member.resolve_right fun same =>
          notZero (same.trans lastZero), notZero⟩
    · rw [if_neg (fun taken => lastZero (Option.some.inj taken.2))]
      exact long

/-- A string whose first point is at `pointIndex` splits there. -/
theorem eq_append_point_of_idxOf? {text : List Char} {pointIndex : Nat}
    (found : text.idxOf? '.' = some pointIndex) :
    text = text.take pointIndex ++ '.' :: text.drop (pointIndex + 1) ∧
      '.' ∉ text.take pointIndex := by
  obtain ⟨within, point, before⟩ := List.idxOf?_eq_some_iff.1 found
  refine ⟨?_, fun member => ?_⟩
  · conv => lhs; rw [← List.take_append_drop pointIndex text]
    rw [List.drop_eq_getElem_cons within, point]
  · obtain ⟨j, inTake, same⟩ := List.getElem_of_mem member
    rw [List.getElem_take] at same
    exact before j (by simp at inTake; omega) same

/-- Cutting the zeros past the ninth decimal and padding the fraction to
nine digits scales the digits' value as the point does. -/
theorem decimalValue_take_scaled (intPart fracPart : List Char)
    (zeros : ∀ c ∈ fracPart.drop cryptonoteDisplayDecimalPoint, c = '0') :
    decimalValue (intPart ++ fracPart.take cryptonoteDisplayDecimalPoint) *
        10 ^ (cryptonoteDisplayDecimalPoint -
          min fracPart.length cryptonoteDisplayDecimalPoint) *
        10 ^ fracPart.length =
      decimalValue (intPart ++ fracPart) *
        10 ^ cryptonoteDisplayDecimalPoint := by
  have padding : fracPart.drop cryptonoteDisplayDecimalPoint =
      List.replicate (fracPart.length - cryptonoteDisplayDecimalPoint) '0' :=
    List.eq_replicate_iff.2 ⟨by simp, zeros⟩
  have split : intPart ++ fracPart =
      (intPart ++ fracPart.take cryptonoteDisplayDecimalPoint) ++
      List.replicate (fracPart.length - cryptonoteDisplayDecimalPoint) '0' := by
    rw [← padding, List.append_assoc, List.take_append_drop]
  rw [split, decimalValue_append_zeros, Nat.mul_assoc, Nat.mul_assoc,
    ← Nat.pow_add, ← Nat.pow_add]
  congr 2
  unfold cryptonoteDisplayDecimalPoint
  omega

/-- `parse_amount` of a string with a point, before the digits are read. -/
theorem parseAmount_of_point (strAmount intPart fracPart : List Char)
    (trimmed : trim strAmount = intPart ++ '.' :: fracPart)
    (noPoint : '.' ∉ intPart) :
    parseAmount strAmount =
      if ∀ c ∈ fracPart.drop cryptonoteDisplayDecimalPoint, c = '0' then
        parseAmountDigits
          (intPart ++ fracPart.take cryptonoteDisplayDecimalPoint)
    (min fracPart.length cryptonoteDisplayDecimalPoint)
      else none := by
  have fraction : (intPart ++ '.' :: fracPart).length - intPart.length - 1 =
      fracPart.length := by
    simp
  have regrouped : intPart ++ '.' :: fracPart = (intPart ++ ['.']) ++
      fracPart := by simp
  simp only [parseAmount, trimmed, idxOf?_append_cons noPoint, fraction]
  rw [regrouped]
  by_cases zeros : ∀ c ∈ fracPart.drop cryptonoteDisplayDecimalPoint, c = '0'
  · have erased :
      (intPart ++ ['.'] ++ fracPart.take cryptonoteDisplayDecimalPoint).eraseIdx
        intPart.length = intPart ++
          fracPart.take cryptonoteDisplayDecimalPoint := by
      rw [List.append_assoc, List.singleton_append,
        List.eraseIdx_append_of_length_le (le_refl _), Nat.sub_self,
        List.eraseIdx_cons_zero]
    rw [if_pos zeros, eraseFractionZeros_of_zeros _ _ zeros,
      if_neg (by unfold cryptonoteDisplayDecimalPoint; omega)]
    simp only [erased, Option.bind_eq_bind, Option.bind_some]
    rfl
  · -- a nonzero digit past the ninth leaves a fraction that is too long
    have long :=
      lt_eraseFractionZeros_of_nonzero (intPart ++ ['.']) fracPart
        (by simpa using zeros)
    rw [if_neg zeros, if_pos long]
    rfl

/-- `parse_amount` of a string with no point, before the digits are read. -/
theorem parseAmount_of_no_point (strAmount : List Char)
    (noPoint : '.' ∉ trim strAmount) :
    parseAmount strAmount = parseAmountDigits (trim strAmount) 0 := by
  simp only [parseAmount, List.idxOf?_eq_none_iff.2 noPoint,
    Option.bind_eq_bind, Option.bind_some]
  rfl

/-- A point is not a digit. -/
theorem not_mem_of_isDigit {digits : List Char}
    (allDigits : ∀ c ∈ digits, c.isDigit) : '.' ∉ digits :=
  fun member => absurd (allDigits '.' member) (by decide)

/-- **What `parse_amount` accepts.**  It succeeds with `v` exactly on the
strings that, trimmed, are a decimal amount of `v` atomic units. -/
theorem parseAmount_eq_some_iff (strAmount : List Char) (v : UInt64) :
    parseAmount strAmount = some v ↔ AmountText (trim strAmount) v := by
  constructor
  · intro parsed
    cases found : (trim strAmount).idxOf? '.' with
    | none =>
      -- no point: the whole trimmed string is the integer part
      rw [parseAmount_of_no_point _ (List.idxOf?_eq_none_iff.1 found),
        parseAmountDigits_eq_some_iff _ _ (Nat.zero_le _)] at parsed
      obtain ⟨nonempty, digits, value⟩ := parsed
      refine ⟨trim strAmount, [],
        .inl ⟨rfl, rfl⟩, by simpa using digits, by simpa using nonempty,
        by simp, ?_⟩
      rw [List.append_nil, ← value, Nat.sub_zero, List.length_nil,
        Nat.pow_zero, Nat.mul_one]
    | some pointIndex =>
      obtain ⟨split, noPoint⟩ := eq_append_point_of_idxOf? found
      rw [parseAmount_of_point _ _ _ split noPoint] at parsed
      split at parsed
      · next zeros =>
        rw [parseAmountDigits_eq_some_iff _ _ (Nat.min_le_right _ _)] at parsed
        obtain ⟨nonempty, digits, value⟩ := parsed
        refine ⟨_, _, .inr split, fun c member => ?_, ?_, zeros, ?_⟩
        · -- the digits past the ninth decimal are zeros, so digits too
          rcases List.mem_append.1 member with inInt | inFrac
          · exact digits c (List.mem_append_left _ inInt)
          · rw [← List.take_append_drop cryptonoteDisplayDecimalPoint
              (List.drop _ _), List.mem_append] at inFrac
            rcases inFrac with inTaken | inDropped
            · exact digits c (List.mem_append_right _ inTaken)
            · rw [zeros c inDropped]
              rfl
        · intro empty
          rw [List.append_eq_nil_iff] at empty
          exact nonempty
            (by rw [empty.1, empty.2, List.take_nil, List.append_nil])
        · rw [← decimalValue_take_scaled _ _ zeros, value]
      · cases parsed
  · rintro ⟨intPart, fracPart, form, digits, nonempty, zeros, value⟩
    rcases form with ⟨whole, rfl⟩ | split
    · -- no point
      rw [List.append_nil] at digits nonempty value
      rw [parseAmount_of_no_point _ (whole ▸ not_mem_of_isDigit digits),
        parseAmountDigits_eq_some_iff _ _ (Nat.zero_le _), whole]
      refine ⟨nonempty, digits, ?_⟩
      rw [Nat.sub_zero, value, List.length_nil, Nat.pow_zero, Nat.mul_one]
    · have noPoint : '.' ∉ intPart :=
        not_mem_of_isDigit fun c member =>
          digits c (List.mem_append_left _ member)
      rw [parseAmount_of_point _ _ _ split noPoint, if_pos zeros,
        parseAmountDigits_eq_some_iff _ _ (Nat.min_le_right _ _)]
      refine ⟨fun empty => nonempty ?_, fun c member => ?_, ?_⟩
      · -- nine decimals of a nonempty fraction are not empty
        rw [List.append_eq_nil_iff, List.take_eq_nil_iff] at empty
        rw [empty.1, empty.2.resolve_left (by decide), List.append_nil]
      · rcases List.mem_append.1 member with inInt | inTaken
        · exact digits c (List.mem_append_left _ inInt)
        · exact digits c
            (List.mem_append_right _ (List.mem_of_mem_take inTaken))
      · have scaled := decimalValue_take_scaled intPart fracPart zeros
        rw [value] at scaled
        exact Nat.eq_of_mul_eq_mul_right (Nat.pow_pos (by decide)) scaled

/-- **`parse_amount` is the exact decimal reader inverse to `print_money`**:
it reads back every amount `print_money` writes, and it succeeds with `v` on
exactly the strings that, trimmed, are a decimal amount of `v` atomic units. -/
theorem parseAmount_exact_reader :
    (∀ amount : UInt64, parseAmount (printMoney amount) = some amount) ∧
    ∀ (strAmount : List Char) (v : UInt64),
      parseAmount strAmount = some v ↔ AmountText (trim strAmount) v :=
  ⟨parseAmount_printMoney, parseAmount_eq_some_iff⟩

end CryptonoteCore
end Citicash
