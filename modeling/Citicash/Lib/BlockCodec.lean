import Mathlib.Algebra.GroupWithZero.Nat
import Mathlib.Algebra.Order.Group.Nat
import Mathlib.Data.List.Basic
import Mathlib.Data.List.Induction
import Mathlib.Tactic.Ring

/-!
# Fixed-width numerals and block codecs

A block codec cuts its input into blocks of one size, writes the number each
block stands for as a numeral of a fixed width in another base, and joins the
numerals.  This module has the two halves of that:

* `fixedDigits base width value`, the numeral of `value` with exactly `width`
  digits, most significant first, and `digitsValue base digits`, the number a
  digit string stands for.  Below `base ^ width` they are inverse
  (`digitsValue_fixedDigits`, `fixedDigits_digitsValue`).
* the lemmas that undo a join of equally long pieces
  (`drop_take_flatten_map_range`, `drop_flatten_map_range`,
  `flatten_map_range_drop_take`) and take apart a `mapM` that succeeded
  (`mapM_range_eq_some`).
-/

namespace Citicash
namespace BlockCodec

/-! ## Numerals -/

section Numerals

variable (base : Nat)

/-- `value` written with `width` digits in base `base`, most significant first;
digits above the width are dropped. -/
def fixedDigits : Nat → Nat → List Nat
  | 0, _ => []
  | width + 1, value => fixedDigits width (value / base) ++ [value % base]

/-- The number a digit string stands for, most significant digit first. -/
def digitsValue (digits : List Nat) : Nat :=
  digits.foldl (fun acc digit => acc * base + digit) 0

@[simp] theorem fixedDigits_zero_width (value : Nat) :
    fixedDigits base 0 value = [] := rfl

theorem fixedDigits_succ (width value : Nat) :
    fixedDigits base (width + 1) value = fixedDigits base width
      (value / base) ++ [value % base] :=
  rfl

@[simp] theorem length_fixedDigits (width value : Nat) :
    (fixedDigits base width value).length = width := by
  induction width generalizing value with
  | zero => rfl
  | succ width ih => simp [fixedDigits_succ, ih]

theorem fixedDigits_of_zero (width : Nat) :
    fixedDigits base width 0 = List.replicate width 0 := by
  induction width with
  | zero => rfl
  | succ width ih =>
      rw [fixedDigits_succ, Nat.zero_div, ih, Nat.zero_mod,
        List.replicate_succ']

theorem lt_of_mem_fixedDigits {base : Nat} (positive : 0 < base)
    {width value digit : Nat} (member : digit ∈ fixedDigits base width value) :
    digit < base := by
  induction width generalizing value with
  | zero => simp at member
  | succ width ih =>
    rw [fixedDigits_succ, List.mem_append, List.mem_singleton] at member
    rcases member with earlier | rfl
    · exact ih earlier
    · exact Nat.mod_lt _ positive

/-- The fold from an accumulator: what is already read is shifted past every
digit. -/
theorem foldl_digits (acc : Nat) (digits : List Nat) :
    digits.foldl (fun acc digit => acc * base + digit) acc =
      acc * base ^ digits.length + digitsValue base digits := by
  induction digits generalizing acc with
  | nil => simp [digitsValue]
  | cons digit rest ih =>
    simp only [digitsValue, List.foldl_cons, List.length_cons] at ih ⊢
    rw [ih, ih (0 * base + digit), Nat.pow_succ]
    ring

@[simp] theorem digitsValue_nil : digitsValue base [] = 0 := rfl

theorem digitsValue_cons (digit : Nat) (rest : List Nat) :
    digitsValue base (digit :: rest) = digit * base ^ rest.length +
      digitsValue base rest := by
  rw [digitsValue, List.foldl_cons, foldl_digits]
  simp

theorem digitsValue_append_singleton (digits : List Nat) (digit : Nat) :
    digitsValue base (digits ++ [digit]) = digitsValue base digits *
      base + digit := by
  simp [digitsValue, List.foldl_append]

theorem digitsValue_append (front back : List Nat) :
    digitsValue base (front ++ back) =
      digitsValue base front * base ^ back.length + digitsValue base back := by
  rw [digitsValue, List.foldl_append, foldl_digits]
  rfl

/-- The digit of `base ^ j` stands `j` places from the right. -/
theorem fixedDigits_eq_map_range (width value : Nat) :
    fixedDigits base width value =
      (List.range width).reverse.map fun j => value / base ^ j % base := by
  induction width generalizing value with
  | zero => rfl
  | succ width ih =>
    rw [fixedDigits_succ, ih, List.range_succ_eq_map, List.reverse_cons,
      List.map_append, List.map_reverse, List.map_reverse, List.map_map]
    congr 2
    · refine List.map_congr_left fun j _ => ?_
      simp [Nat.pow_succ', Nat.div_div_eq_div_mul]
    · simp

/-- A wider numeral is the narrower one with the higher digits in front. -/
theorem fixedDigits_add (width extra value : Nat) :
    fixedDigits base (width + extra) value =
      fixedDigits base width (value / base ^ extra) ++
        fixedDigits base extra value := by
  induction extra generalizing value with
  | zero => simp
  | succ extra ih =>
    rw [← Nat.add_assoc, fixedDigits_succ, ih, fixedDigits_succ,
      List.append_assoc, Nat.div_div_eq_div_mul, Nat.pow_succ']

/-- A numeral reads back as its value below `base ^ width`. -/
theorem digitsValue_fixedDigits (width value : Nat) :
    digitsValue base (fixedDigits base width value) = value % base ^ width := by
  induction width generalizing value with
  | zero => simp [Nat.mod_one]
  | succ width ih =>
    rw [fixedDigits_succ, digitsValue_append_singleton, ih,
      Nat.pow_succ', Nat.mod_mul]
    ring

/-- A numeral's value digit by digit: the digit `j` places from the right
counts `base ^ j` times. -/
theorem digitsValue_reverse_map_range (f : Nat → Nat) (width : Nat) :
    digitsValue base ((List.range width).reverse.map f) =
      ((List.range width).map fun j => f j * base ^ j).sum := by
  induction width with
  | zero => rfl
  | succ width ih =>
    rw [List.range_succ, List.reverse_append, List.reverse_singleton,
      List.singleton_append, List.map_cons, digitsValue_cons, List.length_map,
      List.length_reverse, List.length_range, ih,
      List.map_append, List.sum_append, List.map_singleton,
        List.sum_singleton, Nat.add_comm]

/-- The low `width` digits of a number, as a sum of digits times powers of
the base. -/
theorem mod_pow_eq_sum_digits (width value : Nat) :
    value % base ^ width =
      ((List.range width).map fun j => value / base ^ j % base *
        base ^ j).sum := by
  rw [← digitsValue_fixedDigits, fixedDigits_eq_map_range,
    digitsValue_reverse_map_range]

/-- Leading zeros do not change a numeral's value. -/
theorem digitsValue_replicate_zero_append (count : Nat) (digits : List Nat) :
    digitsValue base (List.replicate count 0 ++ digits) =
      digitsValue base digits := by
  rw [digitsValue_append, ← fixedDigits_of_zero,
    digitsValue_fixedDigits, Nat.zero_mod, Nat.zero_mul, Nat.zero_add]

theorem digitsValue_lt {digits : List Nat}
    (small : ∀ digit ∈ digits, digit < base) :
    digitsValue base digits < base ^ digits.length := by
  induction digits with
  | nil => simp
  | cons digit rest ih =>
    have digitSmall := small digit (by simp)
    have restSmall := ih fun later member => small later (by simp [member])
    rw [digitsValue_cons, List.length_cons, Nat.pow_succ']
    calc digit * base ^ rest.length + digitsValue base rest
        < digit * base ^ rest.length + base ^ rest.length := by omega
      _ = (digit + 1) * base ^ rest.length := by ring
      _ ≤ base * base ^ rest.length := Nat.mul_le_mul_right _ digitSmall

/-- A string of digits below the base is the numeral of its value. -/
theorem fixedDigits_digitsValue {digits : List Nat}
    (small : ∀ digit ∈ digits, digit < base) :
    fixedDigits base digits.length (digitsValue base digits) = digits := by
  induction digits using List.reverseRecOn with
  | nil => rfl
  | append_singleton init digit ih =>
    have digitSmall : digit < base := small digit (by simp)
    have positive : 0 < base := Nat.lt_of_le_of_lt (Nat.zero_le _) digitSmall
    rw [List.length_append, List.length_singleton, fixedDigits_succ,
      digitsValue_append_singleton, Nat.mul_comm, Nat.mul_add_div positive,
      Nat.div_eq_of_lt digitSmall, Nat.add_zero, Nat.mul_add_mod,
        Nat.mod_eq_of_lt digitSmall,
      ih fun earlier member => small earlier (by simp [member])]

end Numerals

/-! ## Blocks -/

section Blocks

variable {α β : Type}

/-- Cutting a list into its first `count` blocks and joining them again. -/
theorem flatten_map_range_drop_take (size count : Nat) (l : List α) :
    ((List.range count).map fun i => (l.drop (i * size)).take size).flatten =
      l.take (count * size) := by
  induction count with
  | zero => simp
  | succ count ih =>
    rw [List.range_succ, List.map_append, List.flatten_append, ih,
      List.map_singleton, List.flatten_singleton, Nat.succ_mul, List.take_add]

section Uniform

variable (f : Nat → List α) {size count : Nat}
    (uniform : ∀ i < count, (f i).length = size)
include uniform

theorem length_flatten_map_range :
    ((List.range count).map f).flatten.length = count * size := by
  induction count with
  | zero => simp
  | succ count ih =>
    rw [List.range_succ, List.map_append, List.flatten_append,
      List.length_append, ih fun i within => uniform i (by omega),
      List.map_singleton, List.flatten_singleton,
      uniform count (by omega), Nat.succ_mul]

/-- Past `count` pieces of one length is what follows them. -/
theorem drop_flatten_map_range (rest : List α) :
    (((List.range count).map f).flatten ++ rest).drop
      (count * size) = rest := by
  rw [List.drop_append_of_le_length
    (by rw [length_flatten_map_range f uniform]),
    List.drop_of_length_le (by rw [length_flatten_map_range f uniform]),
    List.nil_append]

/-- The `i`-th piece of a join of pieces of one length. -/
theorem drop_take_flatten_map_range {i : Nat} (within : i < count)
    (rest : List α) :
    ((((List.range count).map f).flatten ++ rest).drop (i * size)).take
      size = f i := by
  obtain ⟨later, rfl⟩ := Nat.exists_eq_add_of_lt within
  have split : List.range (i + later + 1) =
      List.range i ++ [i] ++ (List.range later).map (i + 1 + ·) := by
    rw [Nat.add_assoc, Nat.add_comm later, ← Nat.add_assoc, List.range_add,
      List.range_succ]
  rw [split, List.map_append, List.map_append, List.flatten_append,
    List.flatten_append, List.append_assoc, List.append_assoc,
    drop_flatten_map_range f (fun j within' => uniform j (by omega)),
      List.map_singleton,
    List.flatten_singleton,
      List.take_append_of_le_length (by rw [uniform i (by omega)])]
  exact List.take_of_length_le (by rw [uniform i (by omega)])

end Uniform

/-- A `mapM` into `Option` over `0, …, count - 1` that succeeds gives a result
for each index. -/
theorem mapM_range_eq_some [Inhabited β] {g : Nat → Option β} {count : Nat}
    {results : List β} (mapped : (List.range count).mapM g = some results) :
    ∃ f : Nat → β, (∀ i < count, g i = some (f i)) ∧
      results = (List.range count).map f := by
  induction count generalizing results with
  | zero =>
    simp only [List.range_zero, List.mapM_nil, Option.pure_def,
      Option.some.injEq] at mapped
    exact ⟨fun _ => default,
      fun _ none => absurd none (Nat.not_lt_zero _), by simp [mapped]⟩
  | succ count ih =>
    rw [List.range_succ, List.mapM_append] at mapped
    cases earlierMapped : (List.range count).mapM g with
    | none => simp [earlierMapped] at mapped
    | some earlier =>
      cases lastMapped : g count with
      | none => simp [earlierMapped, lastMapped] at mapped
      | some value =>
        simp only [earlierMapped, lastMapped, List.mapM_cons, List.mapM_nil,
          Option.bind_eq_bind, Option.bind_some, Option.pure_def,
          Option.some.injEq] at mapped
        obtain ⟨f, each, rfl⟩ := ih earlierMapped
        refine ⟨fun i => if i = count then value else f i,
          fun i within => ?_, ?_⟩
        · by_cases same : i = count
          · subst same
            simpa using lastMapped
          · simpa [same] using each i (by omega)
        · rw [← mapped, List.range_succ, List.map_append,
            List.map_singleton, if_pos rfl]
          congr 1
          refine List.map_congr_left fun i member => ?_
          simp [Nat.ne_of_lt (List.mem_range.1 member)]

/-- A `mapM` into `Option` that succeeds at every index gives the list of
results. -/
theorem mapM_range_of_forall {g : Nat → Option β} (f : Nat → β) {count : Nat}
    (each : ∀ i < count, g i = some (f i)) :
    (List.range count).mapM g = some ((List.range count).map f) := by
  induction count with
  | zero => rfl
  | succ count ih =>
    rw [List.range_succ, List.mapM_append,
      ih fun i within => each i (by omega), List.mapM_cons,
      each count (by omega)]
    simp

end Blocks

end BlockCodec
end Citicash
