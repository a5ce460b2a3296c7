import Mathlib.Data.List.Sort
import Mathlib.Algebra.Order.BigOperators.Group.List
import Mathlib.Algebra.GroupWithZero.Nat
import Mathlib.Tactic.Ring

/-!
# The outputs of a miner transaction

`decompose_amount_into_digits` splits an amount into its decimal digits, each
times its power of ten, lowest first; the low digits whose running sum stays
within the dust threshold are handed over once, together, as dust.
`construct_miner_tx` decomposes the reward with threshold 0 and merges the
smallest amounts until at most `max_outs` remain.

The loop works in 64-bit arithmetic; its state before the round of `10^k`
(`DecomposeInv`) keeps every sum it forms below the amount, so nothing wraps.
The calls then add up to the amount, dust comes at most once and within the
threshold, and the chunks are single digits times rising powers of ten, each in
`valid_decomposed_outputs` (`decomposeAmountIntoDigits_spec`); the merge keeps
the sum and positivity and leaves at most `max_outs` amounts
(`minerOutAmounts_spec`).
-/

namespace Citicash
namespace CryptonoteCore

/-! ## `decompose_amount_into_digits` -/

/-- A call `decompose_amount_into_digits` makes to one of its two handlers. -/
inductive DecomposeCall
  | chunk (value : UInt64)
  | dust (value : UInt64)
  deriving DecidableEq, Repr

namespace DecomposeCall

/-- The amount handed to the handler. -/
def value : DecomposeCall → UInt64
  | chunk value => value
  | dust value => value

/-- The amount of a `chunk_handler` call. -/
def chunk? : DecomposeCall → Option UInt64
  | chunk value => some value
  | dust _ => none

/-- The amount of a `dust_handler` call. -/
def dust? : DecomposeCall → Option UInt64
  | chunk _ => none
  | dust value => some value

end DecomposeCall

/-- The amounts `chunk_handler` receives, in order. -/
def chunkAmounts (calls : List DecomposeCall) : List UInt64 :=
  calls.filterMap DecomposeCall.chunk?

/-- The amounts `dust_handler` receives, in order. -/
def dustAmounts (calls : List DecomposeCall) : List UInt64 :=
  calls.filterMap DecomposeCall.dust?

/-- What the handlers receive in all. -/
def callsTotal (calls : List DecomposeCall) : Nat :=
  (calls.map fun call => call.value.toNat).sum

@[simp] theorem chunkAmounts_append (first second : List DecomposeCall) :
    chunkAmounts (first ++ second) = chunkAmounts first ++
      chunkAmounts second :=
  List.filterMap_append

@[simp] theorem dustAmounts_append (first second : List DecomposeCall) :
    dustAmounts (first ++ second) = dustAmounts first ++ dustAmounts second :=
  List.filterMap_append

@[simp] theorem callsTotal_append (first second : List DecomposeCall) :
    callsTotal (first ++ second) = callsTotal first + callsTotal second := by
  simp [callsTotal]

/-- The dust still owed after the loop: `dust_handler` gets it at the end. -/
def pendingDust (dust : UInt64) (isDustHandled : Bool) : List DecomposeCall :=
  if !isDustHandled && dust ≠ 0 then [DecomposeCall.dust dust] else []

/-- The chunk of a round, handed over unless zero. -/
def chunkCall (chunk : UInt64) : List DecomposeCall :=
  if chunk ≠ 0 then [DecomposeCall.chunk chunk] else []

/-- The `while (0 != amount)` loop of `decompose_amount_into_digits`: the
handler calls it makes, with the `dust` and `is_dust_handled` it ends with. -/
def decomposeLoop (dustThreshold : UInt64) (amount dust order : UInt64)
    (isDustHandled : Bool) : List DecomposeCall × UInt64 × Bool :=
  if amount = 0 then ([], dust, isDustHandled)
  else
    let chunk := amount % 10 * order
    if dust + chunk ≤ dustThreshold then
      decomposeLoop dustThreshold (amount / 10) (dust + chunk)
        (order * 10) isDustHandled
    else
      let (dustCall, isDustHandled) :=
        if !isDustHandled && dust ≠ 0 then ([DecomposeCall.dust dust], true)
        else ([], isDustHandled)
      let (calls, finalDust, finalHandled) :=
        decomposeLoop dustThreshold (amount / 10) dust
          (order * 10) isDustHandled
      (dustCall ++ chunkCall chunk ++ calls, finalDust, finalHandled)
termination_by amount.toNat
decreasing_by
  all_goals
    have positive : amount.toNat ≠ 0 :=
      fun zero => ‹¬amount = 0› (UInt64.toNat_inj.1 zero)
    rw [UInt64.toNat_div]
    exact Nat.div_lt_self (Nat.pos_of_ne_zero positive) (by decide)

section Calls

variable (dust chunk : UInt64) (isDustHandled : Bool)

@[simp] theorem callsTotal_pendingDust :
    callsTotal (pendingDust dust isDustHandled) =
      if isDustHandled then 0 else dust.toNat := by
  cases isDustHandled <;> by_cases noDust : dust = 0 <;>
    simp [pendingDust, callsTotal, DecomposeCall.value, noDust]

@[simp] theorem callsTotal_chunkCall :
    callsTotal (chunkCall chunk) = chunk.toNat := by
  by_cases zero :
    chunk = 0 <;> simp [chunkCall, callsTotal, DecomposeCall.value, zero]

@[simp] theorem chunkAmounts_pendingDust :
    chunkAmounts (pendingDust dust isDustHandled) = [] := by
  unfold pendingDust
  split <;> rfl

@[simp] theorem dustAmounts_chunkCall : dustAmounts (chunkCall chunk) = [] := by
  unfold chunkCall
  split <;> rfl

theorem chunkAmounts_chunkCall :
    chunkAmounts (chunkCall chunk) = if chunk ≠ 0 then [chunk] else [] := by
  unfold chunkCall
  split <;> rfl

theorem dustAmounts_pendingDust :
    dustAmounts (pendingDust dust isDustHandled) =
      if !isDustHandled && dust ≠ 0 then [dust] else [] := by
  unfold pendingDust
  split <;> rfl

end Calls

/-- `decompose_amount_into_digits(amount, dust_threshold, chunk_handler,
dust_handler)`: the handler calls, in order. -/
def decomposeAmountIntoDigits (amount dustThreshold : UInt64) :
    List DecomposeCall :=
  if amount = 0 then []
  else
    let (calls, dust, isDustHandled) :=
      decomposeLoop dustThreshold amount 0 1 false
    calls ++ pendingDust dust isDustHandled

/-! ### The loop one round at a time -/

/-- The handler calls from one round of the loop on, with the dust still owed
at its end. -/
def decomposeCalls (dustThreshold rest dust order : UInt64)
    (isDustHandled : Bool) : List DecomposeCall :=
  let result := decomposeLoop dustThreshold rest dust order isDustHandled
  result.1 ++ pendingDust result.2.1 result.2.2

section Rounds

variable {dustThreshold rest dust order : UInt64} {isDustHandled : Bool}

theorem decomposeAmountIntoDigits_eq (amount dustThreshold : UInt64) :
    decomposeAmountIntoDigits amount dustThreshold =
      if amount = 0 then []
        else decomposeCalls dustThreshold amount 0 1 false := rfl

theorem decomposeCalls_of_zero (dust order : UInt64) (isDustHandled : Bool) :
    decomposeCalls dustThreshold 0 dust order isDustHandled =
      pendingDust dust isDustHandled := by
  simp [decomposeCalls, decomposeLoop]

/-- A digit whose chunk fits beside the dust joins it. -/
theorem decomposeCalls_of_fits (nonzero : rest ≠ 0)
    (fits : dust + rest % 10 * order ≤ dustThreshold) :
    decomposeCalls dustThreshold rest dust order isDustHandled =
      decomposeCalls dustThreshold (rest / 10)
    (dust + rest % 10 * order) (order * 10) isDustHandled := by
  simp only [decomposeCalls]
  rw [decomposeLoop, if_neg nonzero, if_pos fits]

/-- A digit whose chunk does not fit hands the dust over, if still owed, then
the chunk, if not zero. -/
theorem decomposeCalls_of_exceeds (nonzero : rest ≠ 0)
    (exceeds : ¬dust + rest % 10 * order ≤ dustThreshold) :
    decomposeCalls dustThreshold rest dust order isDustHandled =
      pendingDust dust isDustHandled ++ chunkCall (rest % 10 * order) ++
        decomposeCalls dustThreshold (rest / 10) dust (order * 10)
          (isDustHandled || dust ≠ 0) := by
  simp only [decomposeCalls]
  rw [decomposeLoop, if_neg nonzero, if_neg exceeds]
  cases isDustHandled <;> by_cases noDust : dust = 0 <;>
    simp only [pendingDust, noDust, Bool.not_false, Bool.not_true,
      Bool.true_and, Bool.false_and, Bool.false_or, Bool.true_or, decide_true,
      decide_false, ne_eq, not_true, not_false_eq_true,
      if_true, List.append_assoc] <;> rfl

end Rounds

/-- The loop's state before the round of `10^k`, for `amount` and
`dust_threshold`: what is left is the amount's digits from `k` up, the order
is `10^k` while digits are left, the dust is at most the digits below `k` and
within the threshold, and once the dust is handed over no digit from `k` up
fits beside it. -/
structure DecomposeInv (amount dustThreshold : UInt64) (k : Nat)
    (rest dust order : UInt64) (isDustHandled : Bool) : Prop where
  rest_eq : rest.toNat = amount.toNat / 10 ^ k
  order_eq : rest ≠ 0 → order.toNat = 10 ^ k
  dust_le_low : dust.toNat ≤ amount.toNat % 10 ^ k
  dust_le : dust ≤ dustThreshold
  handled_exceeds : isDustHandled = true → dustThreshold.toNat <
    dust.toNat + 10 ^ k

theorem decomposeInv_start (amount dustThreshold : UInt64) :
    DecomposeInv amount dustThreshold 0 amount 0 1 false where
  rest_eq := by simp
  order_eq _ := rfl
  dust_le_low := by simp
  dust_le := UInt64.zero_le
  handled_exceeds := by simp

namespace DecomposeInv

variable {amount : UInt64} {k : Nat}

/-- The digit of `10^k` with the digits below stays within the amount. -/
theorem low_add_digit (amount k : Nat) :
    amount % 10 ^ k + amount / 10 ^ k % 10 * 10 ^ k ≤ amount := by
  have split : amount % 10 ^ (k + 1) = amount % 10 ^ k + 10 ^ k *
      (amount / 10 ^ k % 10) :=
    Nat.mod_pow_succ
  have := Nat.mod_le amount (10 ^ (k + 1))
  rw [Nat.mul_comm] at split
  omega

theorem toNat_chunk
    (inv : DecomposeInv amount dustThreshold k rest dust order isDustHandled)
    (nonzero : rest ≠ 0) :
    (rest % 10 * order).toNat = amount.toNat / 10 ^ k % 10 * 10 ^ k := by
  have within := low_add_digit amount.toNat k
  have := amount.toNat_lt
  rw [UInt64.toNat_mul, UInt64.toNat_mod, inv.rest_eq, inv.order_eq nonzero]
  exact Nat.mod_eq_of_lt (by simp only [UInt64.reduceToNat]; omega)

theorem toNat_dust_add_chunk
    (inv : DecomposeInv amount dustThreshold k rest dust order isDustHandled)
    (nonzero : rest ≠ 0) :
    (dust + rest % 10 * order).toNat = dust.toNat +
      amount.toNat / 10 ^ k % 10 * 10 ^ k := by
  have within := low_add_digit amount.toNat k
  have := amount.toNat_lt
  have := inv.dust_le_low
  rw [UInt64.toNat_add, inv.toNat_chunk nonzero]
  exact Nat.mod_eq_of_lt (by omega)

theorem toNat_rest_div
    (inv : DecomposeInv amount dustThreshold k rest dust order isDustHandled) :
    (rest / 10).toNat = amount.toNat / 10 ^ (k + 1) := by
  rw [UInt64.toNat_div, inv.rest_eq, Nat.div_div_eq_div_mul, Nat.pow_succ]
  rfl

/-- The next order, wherever a digit is left for it. -/
theorem toNat_order_mul
    (inv : DecomposeInv amount dustThreshold k rest dust order isDustHandled)
    (later : rest / 10 ≠ 0) : (order * 10).toNat = 10 ^ (k + 1) := by
  have restNonzero : rest ≠ 0 := by
    rintro rfl
    exact later rfl
  have positive : 0 < (rest / 10).toNat := by
    rw [Nat.pos_iff_ne_zero]
    exact fun zero => later (UInt64.toNat_inj.1 zero)
  rw [inv.toNat_rest_div, Nat.div_pos_iff] at positive
  have := amount.toNat_lt
  have ten : (10 : UInt64).toNat = 10 := rfl
  rw [UInt64.toNat_mul, inv.order_eq restNonzero, ten, ← Nat.pow_succ]
  exact Nat.mod_eq_of_lt (by omega)

/-- A chunk that fits beside handed-over dust is zero. -/
theorem digit_eq_zero
    (inv : DecomposeInv amount dustThreshold k rest dust order isDustHandled)
    (nonzero : rest ≠ 0) (handled : isDustHandled = true)
    (fits : dust + rest % 10 * order ≤ dustThreshold) :
    amount.toNat / 10 ^ k % 10 = 0 := by
  have exceeds := inv.handled_exceeds handled
  rw [UInt64.le_iff_toNat_le, inv.toNat_dust_add_chunk nonzero] at fits
  by_contra positive
  have : 10 ^ k ≤ amount.toNat / 10 ^ k % 10 * 10 ^ k :=
    Nat.le_mul_of_pos_left _ (Nat.pos_of_ne_zero positive)
  omega

/-- The round that joins the chunk to the dust keeps the state. -/
theorem fits
    (inv : DecomposeInv amount dustThreshold k rest dust order isDustHandled)
    (nonzero : rest ≠ 0) (fits : dust + rest % 10 * order ≤ dustThreshold) :
    DecomposeInv amount dustThreshold (k + 1) (rest / 10)
    (dust + rest % 10 * order) (order * 10) isDustHandled where
  rest_eq := inv.toNat_rest_div
  order_eq := inv.toNat_order_mul
  dust_le_low := by
    have split : amount.toNat % 10 ^ (k + 1) =
        amount.toNat % 10 ^ k + 10 ^ k * (amount.toNat / 10 ^ k % 10) :=
          Nat.mod_pow_succ
    have := inv.dust_le_low
    rw [inv.toNat_dust_add_chunk nonzero, split, Nat.mul_comm]
    omega
  dust_le := fits
  handled_exceeds handled := by
    have zero := inv.digit_eq_zero nonzero handled fits
    have exceeds := inv.handled_exceeds handled
    rw [inv.toNat_dust_add_chunk nonzero, zero, Nat.zero_mul,
      Nat.add_zero, Nat.pow_succ]
    omega

/-- The round whose chunk does not fit keeps the state, handed over or not. -/
theorem exceeds
    (inv : DecomposeInv amount dustThreshold k rest dust order isDustHandled)
    (nonzero : rest ≠ 0) (exceeds : ¬dust + rest % 10 * order ≤ dustThreshold)
    (handled : Bool) :
    DecomposeInv amount dustThreshold (k + 1)
    (rest / 10) dust (order * 10) handled where
  rest_eq := inv.toNat_rest_div
  order_eq := inv.toNat_order_mul
  dust_le_low := by
    have split : amount.toNat % 10 ^ (k + 1) =
        amount.toNat % 10 ^ k + 10 ^ k * (amount.toNat / 10 ^ k % 10) :=
          Nat.mod_pow_succ
    have := inv.dust_le_low
    omega
  dust_le := inv.dust_le
  handled_exceeds _ := by
    rw [UInt64.le_iff_toNat_le, inv.toNat_dust_add_chunk nonzero,
      not_le] at exceeds
    have digit : amount.toNat / 10 ^ k % 10 < 10 := Nat.mod_lt _ (by decide)
    have : amount.toNat / 10 ^ k % 10 * 10 ^ k < 10 * 10 ^ k :=
      Nat.mul_lt_mul_of_pos_right digit (Nat.pow_pos (by decide))
    rw [Nat.pow_succ, Nat.mul_comm (10 ^ k)]
    omega

end DecomposeInv

/-- The digits from `k` up, split at the digit of `10^k`. -/
theorem div_pow_mul_eq (amount k : Nat) :
    amount / 10 ^ k * 10 ^ k =
      amount / 10 ^ (k + 1) * 10 ^ (k + 1) + amount / 10 ^ k % 10 * 10 ^ k := by
  have split := Nat.div_add_mod (amount / 10 ^ k) 10
  have next : amount / 10 ^ k / 10 = amount / 10 ^ (k + 1) := by
    rw [Nat.div_div_eq_div_mul, Nat.pow_succ]
  rw [next] at split
  calc amount / 10 ^ k * 10 ^ k
      = (10 * (amount / 10 ^ (k + 1)) + amount / 10 ^ k % 10) *
        10 ^ k := by rw [split]
    _ = amount / 10 ^ (k + 1) * 10 ^ (k + 1) + amount / 10 ^ k % 10 *
      10 ^ k := by ring

/-- The flag a round that does not fit leaves, read off the loop's own `if`. -/
theorem handled_of_exceeds {isDustHandled handled : Bool} {dust : UInt64}
    {dustCall : List DecomposeCall}
    (eq : (if (!isDustHandled && decide (dust ≠ 0)) = true
             then ([DecomposeCall.dust dust], true) else ([], isDustHandled)) =
               (dustCall, handled)) :
    handled = (isDustHandled || decide (dust ≠ 0)) := by
  cases isDustHandled <;> by_cases noDust : dust = 0 <;> simp_all

section Runs

variable {amount dustThreshold rest dust order : UInt64}
    {isDustHandled : Bool} {k : Nat}

/-- The calls from the round of `10^k` on hand over the digits left, and the
dust if it is still owed. -/
theorem callsTotal_decomposeCalls
    (inv : DecomposeInv amount dustThreshold k rest dust order isDustHandled) :
    callsTotal (decomposeCalls dustThreshold rest dust order isDustHandled) =
      rest.toNat * 10 ^ k + if isDustHandled then 0 else dust.toNat := by
  induction rest, dust, order,
    isDustHandled using decomposeLoop.induct dustThreshold
    generalizing k with
  | case1 dust order isDustHandled =>
    simp [decomposeCalls_of_zero]
  | case2 rest dust order isDustHandled nonzero chunk fits =>
    rename_i ih
    have split := div_pow_mul_eq amount.toNat k
    rw [decomposeCalls_of_fits nonzero fits, ih (inv.fits nonzero fits),
      inv.toNat_rest_div, inv.toNat_dust_add_chunk nonzero, inv.rest_eq]
    cases isDustHandled with
    | false =>
      simp only [Bool.false_eq_true, if_false]
      omega
    | true =>
      have zero := inv.digit_eq_zero nonzero rfl fits
      rw [zero, Nat.zero_mul, Nat.add_zero] at split
      simp only [if_true]
      omega
  | case3 rest dust order isDustHandled nonzero chunk exceeds dustCall handled
      handledEq _ _ _ _ =>
    rename_i ih
    have split := div_pow_mul_eq amount.toNat k
    obtain rfl := handled_of_exceeds handledEq
    rw [decomposeCalls_of_exceeds nonzero exceeds, callsTotal_append,
      callsTotal_append, callsTotal_pendingDust, callsTotal_chunkCall,
      inv.toNat_chunk nonzero,
      ih (inv.exceeds nonzero exceeds _), inv.toNat_rest_div, inv.rest_eq]
    cases isDustHandled <;> by_cases noDust : dust = 0 <;>
      simp only [noDust, Bool.true_or, Bool.false_or, decide_true,
        decide_false, ne_eq, not_true_eq_false, not_false_eq_true, if_true,
        Bool.false_eq_true, if_false,
        UInt64.toNat_zero] <;> omega

/-- Dust is handed over at most once from a round on, never once it has been,
and then not zero and within the threshold. -/
theorem dustAmounts_decomposeCalls
    (inv : DecomposeInv amount dustThreshold k rest dust order isDustHandled) :
    dustAmounts
      (decomposeCalls dustThreshold rest dust order isDustHandled) = [] ∨
        isDustHandled = false ∧ ∃ value, value ≠ 0 ∧ value ≤ dustThreshold ∧
        dustAmounts
          (decomposeCalls dustThreshold rest dust order
            isDustHandled) = [value] := by
  induction rest, dust, order,
    isDustHandled using decomposeLoop.induct dustThreshold
    generalizing k with
  | case1 dust order isDustHandled =>
    rw [decomposeCalls_of_zero, dustAmounts_pendingDust]
    cases isDustHandled <;> by_cases noDust :
      dust = 0 <;> simp [noDust, inv.dust_le]
  | case2 rest dust order isDustHandled nonzero chunk fits =>
    rename_i ih
    rw [decomposeCalls_of_fits nonzero fits]
    exact ih (inv.fits nonzero fits)
  | case3 rest dust order isDustHandled nonzero chunk exceeds dustCall handled
      handledEq _ _ _ _ =>
    rename_i ih
    obtain rfl := handled_of_exceeds handledEq
    have later := ih (inv.exceeds nonzero exceeds _)
    rw [decomposeCalls_of_exceeds nonzero exceeds, dustAmounts_append,
      dustAmounts_append, dustAmounts_chunkCall, dustAmounts_pendingDust]
    cases isDustHandled <;> by_cases noDust : dust = 0 <;>
      simp_all [inv.dust_le]

/-- The chunks from the round of `10^k` on are single nonzero digits times
powers of ten from `10^k` up, rising. -/
theorem chunkAmounts_decomposeCalls
    (inv : DecomposeInv amount dustThreshold k rest dust order isDustHandled) :
    (∀ chunk ∈
      chunkAmounts (decomposeCalls dustThreshold rest dust order isDustHandled),
        ∃ digit j, 0 < digit ∧ digit < 10 ∧ k ≤ j ∧
        chunk.toNat = digit * 10 ^ j) ∧
      (chunkAmounts
        (decomposeCalls dustThreshold rest dust order isDustHandled)).Pairwise
          (· < ·) := by
  induction rest, dust, order,
    isDustHandled using decomposeLoop.induct dustThreshold
    generalizing k with
  | case1 dust order isDustHandled =>
    simp [decomposeCalls_of_zero]
  | case2 rest dust order isDustHandled nonzero chunk fits =>
    rename_i ih
    obtain ⟨shape, rising⟩ := ih (inv.fits nonzero fits)
    rw [decomposeCalls_of_fits nonzero fits]
    refine ⟨fun chunk member => ?_, rising⟩
    obtain ⟨digit, j, positive, small, above, eq⟩ := shape chunk member
    exact ⟨digit, j, positive, small, by omega, eq⟩
  | case3 rest dust order isDustHandled nonzero chunk exceeds dustCall handled
      handledEq _ _ _ _ =>
    rename_i ih
    obtain rfl := handled_of_exceeds handledEq
    obtain ⟨shape, rising⟩ := ih (inv.exceeds nonzero exceeds _)
    rw [decomposeCalls_of_exceeds nonzero exceeds, chunkAmounts_append,
      chunkAmounts_append, chunkAmounts_pendingDust, List.nil_append,
      chunkAmounts_chunkCall]
    by_cases zero : rest % 10 * order = 0
    · simp only [zero, ne_eq, not_true_eq_false, if_false, List.nil_append]
      refine ⟨fun chunk member => ?_, rising⟩
      obtain ⟨digit, j, positive, small, above, eq⟩ := shape chunk member
      exact ⟨digit, j, positive, small, by omega, eq⟩
    · -- the chunk of `10^k` is below `10^(k+1)`, where every later chunk starts
      have chunkEq := inv.toNat_chunk nonzero
      have digitPositive : 0 < amount.toNat / 10 ^ k % 10 := by
        rw [Nat.pos_iff_ne_zero]
        intro digitZero
        rw [digitZero, Nat.zero_mul] at chunkEq
        exact zero (UInt64.toNat_inj.1 chunkEq)
      have digitSmall : amount.toNat / 10 ^ k % 10 < 10 :=
        Nat.mod_lt _ (by decide)
      have below : (rest % 10 * order).toNat < 10 ^ (k + 1) := by
        rw [chunkEq, Nat.pow_succ, Nat.mul_comm (10 ^ k)]
        exact Nat.mul_lt_mul_of_pos_right digitSmall (Nat.pow_pos (by decide))
      simp only [zero, ne_eq, not_false_eq_true, if_true, List.singleton_append,
        List.mem_cons, forall_eq_or_imp, List.pairwise_cons]
      refine ⟨⟨⟨_, k, digitPositive, digitSmall, le_rfl, chunkEq⟩,
        fun chunk member => ?_⟩, fun chunk member => ?_, rising⟩
      · obtain ⟨digit, j, positive, small, above, eq⟩ := shape chunk member
        exact ⟨digit, j, positive, small, by omega, eq⟩
      · obtain ⟨digit, j, positive, _, above, eq⟩ := shape chunk member
        have : 10 ^ (k + 1) ≤ 10 ^ j := Nat.pow_le_pow_right (by decide) above
        have : 10 ^ j ≤ digit * 10 ^ j := Nat.le_mul_of_pos_left _ positive
        rw [UInt64.lt_iff_toNat_lt, eq]
        omega

end Runs

/-- `valid_decomposed_outputs`: every digit times every power of ten that
fits. -/
def validDecomposedOutputs : List UInt64 := [
  1, 2, 3, 4, 5, 6, 7, 8, 9,
  10, 20, 30, 40, 50, 60, 70, 80, 90,
  100, 200, 300, 400, 500, 600, 700, 800, 900,
  1000, 2000, 3000, 4000, 5000, 6000, 7000, 8000, 9000,
  10000, 20000, 30000, 40000, 50000, 60000, 70000, 80000, 90000,
  100000, 200000, 300000, 400000, 500000, 600000, 700000, 800000, 900000,
  1000000, 2000000, 3000000, 4000000, 5000000, 6000000, 7000000,
    8000000, 9000000,
  10000000, 20000000, 30000000, 40000000, 50000000, 60000000, 70000000,
    80000000, 90000000,
  100000000, 200000000, 300000000, 400000000, 500000000, 600000000, 700000000,
    800000000, 900000000,
  1000000000, 2000000000, 3000000000, 4000000000, 5000000000, 6000000000,
    7000000000, 8000000000, 9000000000,
  10000000000, 20000000000, 30000000000, 40000000000, 50000000000, 60000000000,
    70000000000, 80000000000, 90000000000,
  100000000000, 200000000000, 300000000000, 400000000000, 500000000000,
    600000000000, 700000000000, 800000000000, 900000000000,
  1000000000000, 2000000000000, 3000000000000, 4000000000000, 5000000000000,
    6000000000000, 7000000000000, 8000000000000, 9000000000000,
  10000000000000, 20000000000000, 30000000000000, 40000000000000,
    50000000000000, 60000000000000, 70000000000000,
      80000000000000, 90000000000000,
  100000000000000, 200000000000000, 300000000000000, 400000000000000,
    500000000000000, 600000000000000, 700000000000000, 800000000000000,
      900000000000000,
  1000000000000000, 2000000000000000, 3000000000000000, 4000000000000000,
    5000000000000000, 6000000000000000, 7000000000000000, 8000000000000000,
      9000000000000000,
  10000000000000000, 20000000000000000, 30000000000000000, 40000000000000000,
    50000000000000000, 60000000000000000, 70000000000000000, 80000000000000000,
      90000000000000000,
  100000000000000000, 200000000000000000, 300000000000000000,
    400000000000000000, 500000000000000000, 600000000000000000,
      700000000000000000, 800000000000000000, 900000000000000000,
  1000000000000000000, 2000000000000000000, 3000000000000000000,
    4000000000000000000, 5000000000000000000, 6000000000000000000,
      7000000000000000000, 8000000000000000000, 9000000000000000000,
  10000000000000000000]

/-- `is_valid_decomposed_amount`: `std::binary_search` over the sorted table. -/
def isValidDecomposedAmount (amount : UInt64) : Bool :=
  validDecomposedOutputs.contains amount

/-- The table row by row: the digits 1 to 9 times `10^j` for `j < 19`, then
`10^19`. -/
theorem validDecomposedOutputs_eq :
    validDecomposedOutputs =
      ((List.range 19).flatMap fun j =>
        (List.range 9).map fun digit => UInt64.ofNat ((digit + 1) * 10 ^ j)) ++
        [UInt64.ofNat (10 ^ 19)] := by
  rfl

/-- Every nonzero digit times a power of ten that fits in 64 bits is in the
table. -/
theorem isValidDecomposedAmount_of_digit {amount : UInt64} {digit j : Nat}
    (positive : 0 < digit) (small : digit < 10)
    (eq : amount.toNat = digit * 10 ^ j) :
    isValidDecomposedAmount amount = true := by
  have fits := amount.toNat_lt
  have power : 10 ^ j ≤ digit * 10 ^ j := Nat.le_mul_of_pos_left _ positive
  have below : j < 20 :=
    (Nat.pow_lt_pow_iff_right (by decide : 1 < 10)).1 (by omega)
  have ofNat : amount = UInt64.ofNat (digit * 10 ^ j) := by
    rw [← eq, UInt64.ofNat_toNat]
  rw [isValidDecomposedAmount, List.contains_iff_mem,
    validDecomposedOutputs_eq, ofNat]
  by_cases last : j = 19
  · -- only `10^19` itself fits among the multiples of `10^19`
    subst last
    obtain rfl : digit = 1 := by omega
    simp
  · refine List.mem_append_left _
      (List.mem_flatMap.2 ⟨j, List.mem_range.2 (by omega), ?_⟩)
    exact List.mem_map.2
      ⟨digit - 1,
        List.mem_range.2 (by omega), by rw [Nat.sub_add_cancel positive]⟩

/-! ## The merge of `construct_miner_tx` -/

/-- The loop `while (max_outs < out_amounts.size())` of `construct_miner_tx`:
the first amount is added to the second and dropped. -/
def mergeOutAmounts (maxOuts : Nat) : List UInt64 → List UInt64
  | first :: second :: rest =>
    if maxOuts < rest.length + 2
      then mergeOutAmounts maxOuts ((second + first) :: rest)
    else first :: second :: rest
  | outAmounts => outAmounts
termination_by outAmounts => outAmounts.length

/-- The output amounts `construct_miner_tx` builds for `block_reward` and
`fee`: the reward with the fee added, decomposed with dust threshold 0 and
merged down to `max_outs`; `none` where it returns false, on `max_outs = 0`
or when `summary_amounts` differs from the reward. -/
def minerOutAmounts (blockReward fee : UInt64) (maxOuts : Nat) :
    Option (List UInt64) :=
  let blockReward := blockReward + fee
  let outAmounts :=
    (decomposeAmountIntoDigits blockReward 0).map DecomposeCall.value
  if 1 ≤ maxOuts then
    let outAmounts := mergeOutAmounts maxOuts outAmounts
    let summaryAmounts := outAmounts.foldl (· + ·) 0
    if summaryAmounts = blockReward then some outAmounts else none
  else none

/-! ## What the calls satisfy -/

/-- `decompose_amount_into_digits` partitions the amount: the handlers receive
exactly the amount, dust at most once, not zero and within the threshold, and
chunks that are single nonzero digits times rising powers of ten, each in
`valid_decomposed_outputs`. -/
theorem decomposeAmountIntoDigits_spec (amount dustThreshold : UInt64) :
    callsTotal (decomposeAmountIntoDigits amount dustThreshold) = amount.toNat ∧
      (dustAmounts (decomposeAmountIntoDigits amount dustThreshold) = [] ∨
        ∃ dust, dust ≠ 0 ∧ dust ≤ dustThreshold ∧
          dustAmounts
            (decomposeAmountIntoDigits amount dustThreshold) = [dust]) ∧
      (∀ chunk ∈ chunkAmounts (decomposeAmountIntoDigits amount dustThreshold),
        (∃ digit j, 0 < digit ∧ digit < 10 ∧ chunk.toNat = digit * 10 ^ j) ∧
          isValidDecomposedAmount chunk = true) ∧
      (chunkAmounts
        (decomposeAmountIntoDigits amount dustThreshold)).Pairwise (· < ·) := by
  rw [decomposeAmountIntoDigits_eq]
  by_cases zero : amount = 0
  · subst zero
    simp [callsTotal, dustAmounts, chunkAmounts]
  · have start := decomposeInv_start amount dustThreshold
    have total := callsTotal_decomposeCalls start
    obtain ⟨shape, rising⟩ := chunkAmounts_decomposeCalls start
    rw [if_neg zero]
    refine ⟨by simpa using total, ?_, fun chunk member => ?_, rising⟩
    · rcases dustAmounts_decomposeCalls start with
        none | ⟨-, dust, positive, within, once⟩
      · exact .inl none
      · exact .inr ⟨dust, positive, within, once⟩
    · obtain ⟨digit, j, positive, small, -, eq⟩ := shape chunk member
      exact ⟨⟨digit, j, positive, small, eq⟩,
        isValidDecomposedAmount_of_digit positive small eq⟩

/-! ## The merge -/

theorem mergeOutAmounts_length (maxOuts : Nat) (outAmounts : List UInt64) :
    (mergeOutAmounts maxOuts outAmounts).length = min outAmounts.length
      (max maxOuts 1) := by
  fun_induction mergeOutAmounts maxOuts outAmounts with
  | case1 first second rest more ih =>
    simp only [ih, List.length_cons]
    omega
  | case2 first second rest enough =>
    simp only [List.length_cons]
    omega
  | case3 outAmounts short =>
    rcases outAmounts with _ | ⟨first, _ | ⟨second, rest⟩⟩
    · simp
    · simp
    · exact absurd rfl (short first second rest)

/-- Merging keeps the amounts' sum, and keeps them positive, while the sum fits
in 64 bits. -/
theorem mergeOutAmounts_keeps (maxOuts : Nat) (outAmounts : List UInt64)
    (fits : (outAmounts.map UInt64.toNat).sum < 2 ^ 64)
    (positive : ∀ out ∈ outAmounts, 0 < out) :
    ((mergeOutAmounts maxOuts outAmounts).map UInt64.toNat).sum =
        (outAmounts.map UInt64.toNat).sum ∧
      ∀ out ∈ mergeOutAmounts maxOuts outAmounts, 0 < out := by
  fun_induction mergeOutAmounts maxOuts outAmounts with
  | case1 first second rest more ih =>
    simp only [List.map_cons, List.sum_cons] at fits
    have merged : (second + first).toNat = second.toNat + first.toNat := by
      rw [UInt64.toNat_add]
      exact Nat.mod_eq_of_lt (by omega)
    have firstPositive := positive first (by simp)
    rw [UInt64.lt_iff_toNat_lt] at firstPositive
    obtain ⟨total, stillPositive⟩ :=
      ih (by simp only [List.map_cons, List.sum_cons]; omega)
      (by
        intro out member
        rcases List.mem_cons.1 member with rfl | later
        · rw [UInt64.lt_iff_toNat_lt, merged]
          simp only [UInt64.toNat_zero] at firstPositive ⊢
          omega
        · exact positive out (by simp [later]))
    refine ⟨?_, stillPositive⟩
    rw [total]
    simp only [List.map_cons, List.sum_cons, merged]
    omega
  | case2 => exact ⟨rfl, positive⟩
  | case3 => exact ⟨rfl, positive⟩

/-- The loop that forms `summary_amounts`. -/
theorem toNat_foldl_add (outAmounts : List UInt64) (acc : UInt64) :
    (outAmounts.foldl (· + ·) acc).toNat =
      (acc.toNat + (outAmounts.map UInt64.toNat).sum) % 2 ^ 64 := by
  induction outAmounts generalizing acc with
  | nil => simp [Nat.mod_eq_of_lt acc.toNat_lt]
  | cons out rest ih =>
    rw [List.foldl_cons, ih, UInt64.toNat_add, List.map_cons, List.sum_cons,
      Nat.mod_add_mod, Nat.add_assoc]

/-- Without dust calls the amounts handed over are the chunks. -/
theorem map_value_of_dustAmounts_eq_nil {calls : List DecomposeCall}
    (noDust : dustAmounts calls = []) :
    calls.map DecomposeCall.value = chunkAmounts calls := by
  induction calls with
  | nil => rfl
  | cons call rest ih =>
    cases call with
    | chunk value =>
      simp only [dustAmounts, List.filterMap_cons,
        DecomposeCall.dust?] at noDust
      simp [chunkAmounts, DecomposeCall.chunk?, DecomposeCall.value, ih noDust]
    | dust value => simp [dustAmounts, DecomposeCall.dust?] at noDust

/-- `construct_miner_tx` with `max_outs ≥ 1` gets past both its checks with at
most `max_outs` positive amounts that add up to the reward with the fee. -/
theorem minerOutAmounts_spec (blockReward fee : UInt64) {maxOuts : Nat}
    (enough : 1 ≤ maxOuts) :
    ∃ outAmounts, minerOutAmounts blockReward fee maxOuts = some outAmounts ∧
      outAmounts.length ≤ maxOuts ∧ (∀ out ∈ outAmounts, 0 < out) ∧
      (outAmounts.map UInt64.toNat).sum = (blockReward + fee).toNat := by
  obtain ⟨total, dust, shape, -⟩ :=
    decomposeAmountIntoDigits_spec (blockReward + fee) 0
  -- with threshold 0 no dust can be handed over
  have noDust :
      dustAmounts (decomposeAmountIntoDigits (blockReward + fee) 0) = [] := by
    rcases dust with none | ⟨dust, positive, within, -⟩
    · exact none
    · exact absurd (UInt64.le_zero_iff.1 within) positive
  have chunks := map_value_of_dustAmounts_eq_nil noDust
  have sum :
      ((chunkAmounts (decomposeAmountIntoDigits (blockReward + fee) 0)).map
        UInt64.toNat).sum = (blockReward + fee).toNat := by
    rw [← total, ← chunks, callsTotal, List.map_map]
    rfl
  have positive :
      ∀ out ∈ chunkAmounts (decomposeAmountIntoDigits (blockReward + fee) 0),
      0 < out := by
    intro out member
    obtain ⟨⟨digit, j, digitPositive, -, eq⟩, -⟩ := shape out member
    rw [UInt64.lt_iff_toNat_lt, eq, UInt64.toNat_zero]
    exact Nat.mul_pos digitPositive (Nat.pow_pos (by decide))
  obtain ⟨kept, stillPositive⟩ := mergeOutAmounts_keeps maxOuts _
    (by rw [sum]; exact UInt64.toNat_lt _) positive
  have summary : (mergeOutAmounts maxOuts
      (chunkAmounts (decomposeAmountIntoDigits (blockReward + fee) 0))).foldl
        (· + ·) 0 =
        blockReward + fee := by
    apply UInt64.toNat_inj.1
    rw [toNat_foldl_add, kept, sum, UInt64.toNat_zero, Nat.zero_add,
      Nat.mod_eq_of_lt (UInt64.toNat_lt _)]
  refine ⟨_, ?_, ?_, stillPositive, kept.trans sum⟩
  · simp only [minerOutAmounts, chunks, if_pos enough, summary, if_true]
  · rw [mergeOutAmounts_length]
    omega

/-- The decomposition of any amount under any threshold, and the miner
transaction's outputs for any reward and fee. -/
theorem decomposeAmountIntoDigits_partitions
    (amount dustThreshold blockReward fee : UInt64) (maxOuts : Nat)
    (enough : 1 ≤ maxOuts) :
    (callsTotal (decomposeAmountIntoDigits amount dustThreshold) =
      UInt64.toNat amount ∧
        (dustAmounts (decomposeAmountIntoDigits amount dustThreshold) = [] ∨
          ∃ dust, dust ≠ 0 ∧ dust ≤ dustThreshold ∧
          dustAmounts
            (decomposeAmountIntoDigits amount dustThreshold) = [dust]) ∧
      (∀ chunk ∈ chunkAmounts (decomposeAmountIntoDigits amount dustThreshold),
        (∃ digit j, 0 < digit ∧ digit < 10 ∧ chunk.toNat = digit * 10 ^ j) ∧
          isValidDecomposedAmount chunk = true) ∧
      (chunkAmounts
        (decomposeAmountIntoDigits amount dustThreshold)).Pairwise (· < ·)) ∧
    ∃ outAmounts, minerOutAmounts blockReward fee maxOuts = some outAmounts ∧
      outAmounts.length ≤ maxOuts ∧ (∀ out ∈ outAmounts, 0 < out) ∧
      (outAmounts.map UInt64.toNat).sum = UInt64.toNat (blockReward + fee) :=
  ⟨decomposeAmountIntoDigits_spec amount dustThreshold,
    minerOutAmounts_spec blockReward fee enough⟩

/-- The amount of the source's comment, `62387455827` with dust threshold
`455827`, and a reward of 600 with fee 5 merged down to two outputs. -/
theorem decomposeAmountIntoDigits_partitions_source_example :
    1 ≤ 2 ∧
    (callsTotal
      (decomposeAmountIntoDigits (62387455827 : UInt64) (455827 : UInt64)) =
        UInt64.toNat (62387455827 : UInt64) ∧
        (dustAmounts
          (decomposeAmountIntoDigits (62387455827 : UInt64)
            (455827 : UInt64)) = [] ∨
        ∃ dust, dust ≠ 0 ∧ dust ≤ (455827 : UInt64) ∧
          dustAmounts
            (decomposeAmountIntoDigits (62387455827 : UInt64)
              (455827 : UInt64)) = [dust]) ∧
      (∀ chunk ∈
        chunkAmounts
          (decomposeAmountIntoDigits (62387455827 : UInt64) (455827 : UInt64)),
            (∃ digit j, 0 < digit ∧ digit < 10 ∧ chunk.toNat = digit * 10 ^ j) ∧
          isValidDecomposedAmount chunk = true) ∧
      (chunkAmounts
        (decomposeAmountIntoDigits (62387455827 : UInt64)
          (455827 : UInt64))).Pairwise (· < ·)) ∧
    ∃ outAmounts, minerOutAmounts (600 : UInt64)
    (5 : UInt64) 2 = some outAmounts ∧ outAmounts.length ≤ 2 ∧
      (∀ out ∈ outAmounts, 0 < out) ∧ (outAmounts.map UInt64.toNat).sum =
        UInt64.toNat ((600 : UInt64) + (5 : UInt64)) :=
  ⟨by decide, decomposeAmountIntoDigits_partitions 62387455827 455827 600
    5 2 (by decide)⟩

end CryptonoteCore
end Citicash
