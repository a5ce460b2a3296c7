import Citicash.CryptonoteCore.ProofOfWork
import Citicash.CryptonoteCore.ChainRuns

/-!
# The dynamic fee per kilobyte

`get_dynamic_per_kb_fee` scales the base fee by the block reward, floored at
`DYNAMIC_FEE_PER_KB_BASE_BLOCK_REWARD`.  It forms the 128-bit product with
`mul128` and divides it by the base reward in two steps, by `736000` and then by
`1000000`, since `div128_32` of `common/int-util.h` takes a 32-bit divisor and
the base reward does not fit in one.

`div128_32` is the schoolbook long division in base `2^32`, four digits long:
each call of `div_with_reminder` keeps the running remainder equal to the
remainder of the digits read so far (`divWithReminder_step`), so the two
quotient words and the remainder are the exact quotient and remainder of the
128-bit dividend (`div128_32_spec`).  The two divisions then compose to one,
and the quotient is below `2^64`: the high word the function asserts to be zero
is zero for every reward, and the fee is the floor of the scaled base fee
(`getDynamicPerKbFee_eq`).
-/

namespace Citicash
namespace CryptonoteCore

open StateRun

/-- The number two 64-bit words stand for, high word first. -/
def wordsValue (hi lo : UInt64) : Nat := hi.toNat * 2 ^ 64 + lo.toNat

/-- `mul128` returns the whole product, its high word as the second
component. -/
theorem wordsValue_mul128 (a b : UInt64) :
    wordsValue (mul128 a b).2 (mul128 a b).1 = a.toNat * b.toNat := by
  rw [wordsValue, mul128_eq_mul, ← mul_spec a b]
  omega

/-! ## Long division by a 32-bit divisor -/

/-- `div_with_reminder(dividend, divisor, &remainder)`: one digit of the long
division, with the remainder it stores back. -/
def divWithReminder (dividend : UInt64) (divisor remainder : UInt32) :
    UInt64 × UInt32 :=
  let dividend := dividend ||| remainder.toUInt64 <<< 32
  (dividend / divisor.toUInt64, (dividend % divisor.toUInt64).toUInt32)

/-- `div128_32(dividend_hi, dividend_lo, divisor, &quotient_hi, &quotient_lo)`:
the remainder it returns and the two quotient words it stores. -/
def div128_32 (dividendHi dividendLo : UInt64) (divisor : UInt32) :
    UInt32 × UInt64 × UInt64 :=
  let (q3, remainder) := divWithReminder (hiDword dividendHi) divisor 0
  let (q2, remainder) := divWithReminder (loDword dividendHi) divisor remainder
  let (q1, remainder) := divWithReminder (hiDword dividendLo) divisor remainder
  let (q0, remainder) := divWithReminder (loDword dividendLo) divisor remainder
  (remainder, q3 <<< 32 ||| q2, q1 <<< 32 ||| q0)

theorem toNat_hiDword (x : UInt64) : (hiDword x).toNat = x.toNat / 2 ^ 32 :=
  toNat_shiftRight_32 x

theorem toNat_loDword (x : UInt64) : (loDword x).toNat = x.toNat % 2 ^ 32 :=
  toNat_and_low x

theorem toNat_hiDword_lt (x : UInt64) : (hiDword x).toNat < 2 ^ 32 := by
  have := x.toNat_lt
  rw [toNat_hiDword]
  omega

theorem toNat_loDword_lt (x : UInt64) : (loDword x).toNat < 2 ^ 32 := by
  rw [toNat_loDword]
  omega

/-- A word shifted up by 32 next to a word below `2^32`: the bits do not
meet. -/
theorem toNat_or_shiftLeft_of_lt {x y : UInt64} (small : y.toNat < 2 ^ 32) :
    (y ||| x <<< 32).toNat = x.toNat % 2 ^ 32 * 2 ^ 32 + y.toNat := by
  rw [UInt64.toNat_or, toNat_shiftLeft_32, Nat.or_comm, Nat.mul_comm,
    ← Nat.two_pow_add_eq_or_of_lt small]

theorem toNat_shiftLeft_or_of_lt {x y : UInt64} (small : y.toNat < 2 ^ 32) :
    (x <<< 32 ||| y).toNat = x.toNat % 2 ^ 32 * 2 ^ 32 + y.toNat := by
  rw [UInt64.toNat_or, Nat.or_comm, ← UInt64.toNat_or,
    toNat_or_shiftLeft_of_lt small]

/-- One digit of the long division in base `2^32`: the quotient digit times
`2^32` is what the next digit adds to the quotient, and the digit is below
`2^32` because the dividend's high part is below the divisor. -/
theorem div_mul_add_eq (n x d : Nat) (positive : 0 < d) :
    (n * 2 ^ 32 + x) / d = n / d * 2 ^ 32 + (n % d * 2 ^ 32 + x) / d ∧
      (n * 2 ^ 32 + x) % d = (n % d * 2 ^ 32 + x) % d := by
  have split : n * 2 ^ 32 + x = (n % d * 2 ^ 32 + x) + d *
      (n / d * 2 ^ 32) := by
    conv_lhs => rw [← Nat.mod_add_div n d]
    ring
  rw [split, Nat.add_mul_div_left _ _ positive, Nat.add_mul_mod_self_left]
  exact ⟨Nat.add_comm _ _, rfl⟩

/-- `div_with_reminder` on a digit, with a running remainder equal to the
remainder of the digits `n` read before it: the quotient grows by one digit
below `2^32`, and the remainder stored is that of the digits read now. -/
theorem divWithReminder_step {x : UInt64}
    {divisor remainder remainder' : UInt32} {quotient : UInt64} {n : Nat}
    (positive : 0 < divisor.toNat) (digit : x.toNat < 2 ^ 32)
    (running : remainder.toNat = n % divisor.toNat)
    (step : divWithReminder x divisor remainder = (quotient, remainder')) :
    quotient.toNat < 2 ^ 32 ∧
      (n * 2 ^ 32 + x.toNat) / divisor.toNat = n / divisor.toNat * 2 ^ 32 +
        quotient.toNat ∧
      remainder'.toNat = (n * 2 ^ 32 + x.toNat) % divisor.toNat := by
  have below : remainder.toNat < divisor.toNat := by
    rw [running]
    exact Nat.mod_lt _ positive
  have dividend : (x ||| remainder.toUInt64 <<< 32).toNat = remainder.toNat *
      2 ^ 32 + x.toNat := by
    rw [toNat_or_shiftLeft_of_lt digit, UInt32.toNat_toUInt64]
    have := remainder.toNat_lt
    omega
  simp only [divWithReminder, Prod.mk.injEq] at step
  obtain ⟨rfl, rfl⟩ := step
  have digitsAhead := div_mul_add_eq n x.toNat divisor.toNat positive
  refine ⟨?_, ?_, ?_⟩
  · rw [UInt64.toNat_div, dividend, UInt32.toNat_toUInt64,
      Nat.div_lt_iff_lt_mul positive]
    have := Nat.mul_le_mul_right (2 ^ 32) (Nat.succ_le_of_lt below)
    rw [Nat.succ_mul] at this
    omega
  · rw [digitsAhead.1, UInt64.toNat_div, dividend,
      UInt32.toNat_toUInt64, running]
  · have := divisor.toNat_lt
    have := Nat.mod_lt (remainder.toNat * 2 ^ 32 + x.toNat) positive
    simp only [UInt64.toNat_toUInt32, UInt64.toNat_mod, dividend,
      UInt32.toNat_toUInt64, digitsAhead.2, ← running]
    omega

/-- `div128_32` is the exact division of the 128-bit dividend: the quotient
words and the remainder it returns. -/
theorem div128_32_spec {dividendHi dividendLo quotientHi quotientLo : UInt64}
    {divisor remainder : UInt32} (positive : 0 < divisor.toNat)
    (division : div128_32 dividendHi dividendLo divisor =
      (remainder, quotientHi, quotientLo)) :
    wordsValue quotientHi quotientLo = wordsValue dividendHi
      dividendLo / divisor.toNat ∧
        remainder.toNat = wordsValue dividendHi dividendLo % divisor.toNat := by
  -- Four digits, the running remainder being the remainder of the digits read
  -- so far.
  rcases s3 : divWithReminder (hiDword dividendHi) divisor 0 with ⟨q3, r3⟩
  rcases s2 : divWithReminder (loDword dividendHi) divisor r3 with ⟨q2, r2⟩
  rcases s1 : divWithReminder (hiDword dividendLo) divisor r2 with ⟨q1, r1⟩
  rcases s0 : divWithReminder (loDword dividendLo) divisor r1 with ⟨q0, r0⟩
  obtain ⟨q3Digit, d3, rem3⟩ :=
    divWithReminder_step (n := 0) positive
      (toNat_hiDword_lt dividendHi) (by simp) s3
  simp only [Nat.zero_mul, Nat.zero_add, Nat.zero_div] at d3 rem3
  obtain ⟨q2Digit, d2, rem2⟩ :=
    divWithReminder_step positive (toNat_loDword_lt dividendHi) rem3 s2
  obtain ⟨q1Digit, d1, rem1⟩ :=
    divWithReminder_step positive (toNat_hiDword_lt dividendLo) rem2 s1
  obtain ⟨q0Digit, d0, rem0⟩ :=
    divWithReminder_step positive (toNat_loDword_lt dividendLo) rem1 s0
  have value : wordsValue dividendHi dividendLo =
      (((hiDword dividendHi).toNat * 2 ^ 32 +
        (loDword dividendHi).toNat) * 2 ^ 32 + (hiDword dividendLo).toNat) *
          2 ^ 32 + (loDword dividendLo).toNat := by
    simp only [wordsValue, toNat_hiDword, toNat_loDword]
    omega
  simp only [div128_32, s3, s2, s1, s0, Prod.mk.injEq] at division
  obtain ⟨rfl, rfl, rfl⟩ := division
  rw [value, wordsValue, toNat_shiftLeft_or_of_lt q2Digit,
    toNat_shiftLeft_or_of_lt q0Digit]
  exact ⟨by omega, rem0⟩

/-! ## The fee -/

/-- `DYNAMIC_FEE_PER_KB_BASE_FEE` and `DYNAMIC_FEE_PER_KB_BASE_BLOCK_REWARD` of
`cryptonote_config.h`. -/
def dynamicFeePerKbBaseFee : UInt64 := 5750000
def dynamicFeePerKbBaseBlockReward : UInt64 := 736000000000

/-- `get_dynamic_per_kb_fee(block_reward, median_block_size, height)`; `none`
where its `assert(hi == 0)` stops the program.  The median and the height are
not read. -/
def getDynamicPerKbFee (blockReward : UInt64) (_medianBlockSize : UInt64)
    (_height : Nat) : Option UInt64 :=
  let blockReward :=
    if blockReward < dynamicFeePerKbBaseBlockReward
      then dynamicFeePerKbBaseBlockReward
    else blockReward
  let unscaledFeePerKb := dynamicFeePerKbBaseFee
  let (lo, hi) := mul128 unscaledFeePerKb blockReward
  -- divide in two steps, since the divisor must be 32 bits
  let (_, hi, lo) :=
    div128_32 hi lo (dynamicFeePerKbBaseBlockReward / 1000000).toUInt32
  let (_, hi, lo) := div128_32 hi lo 1000000
  if hi = 0 then some lo else none

/-- The reward `get_dynamic_per_kb_fee` scales by: the block reward, raised to
the base reward. -/
theorem toNat_raised_reward (blockReward : UInt64) :
    (if blockReward < dynamicFeePerKbBaseBlockReward
       then dynamicFeePerKbBaseBlockReward else blockReward).toNat =
         max blockReward.toNat dynamicFeePerKbBaseBlockReward.toNat := by
  split
  · rename_i lower
    rw [UInt64.lt_iff_toNat_lt] at lower
    omega
  · rename_i higher
    rw [UInt64.lt_iff_toNat_lt] at higher
    omega

/-- The fee for every block reward: the assert on the high word holds, and the
fee is the floor of the base fee scaled by the reward over the base reward. -/
theorem getDynamicPerKbFee_eq (blockReward medianBlockSize : UInt64)
    (height : Nat) :
    ∃ fee, getDynamicPerKbFee blockReward medianBlockSize height = some fee ∧
      fee.toNat = dynamicFeePerKbBaseFee.toNat * max blockReward.toNat
        dynamicFeePerKbBaseBlockReward.toNat /
          dynamicFeePerKbBaseBlockReward.toNat := by
  set reward :=
    if blockReward < dynamicFeePerKbBaseBlockReward
      then dynamicFeePerKbBaseBlockReward
    else blockReward with rewardDef
  have raised := toNat_raised_reward blockReward
  rw [← rewardDef] at raised
  rcases product : mul128 dynamicFeePerKbBaseFee reward with ⟨lo, hi⟩
  have productValue := wordsValue_mul128 dynamicFeePerKbBaseFee reward
  rw [product] at productValue
  rcases first :
    div128_32 hi lo (dynamicFeePerKbBaseBlockReward / 1000000).toUInt32 with
    ⟨r1, hi1, lo1⟩
  have firstValue := (div128_32_spec (by decide) first).1
  rcases second : div128_32 hi1 lo1 1000000 with ⟨r2, hi2, lo2⟩
  have secondValue := (div128_32_spec (by decide) second).1
  -- the two divisions are one, by the base reward
  have quotient : wordsValue hi2 lo2 =
      dynamicFeePerKbBaseFee.toNat *
        reward.toNat / dynamicFeePerKbBaseBlockReward.toNat := by
    rw [secondValue, firstValue, productValue, Nat.div_div_eq_div_mul]
    rfl
  have small : dynamicFeePerKbBaseFee.toNat * reward.toNat /
      dynamicFeePerKbBaseBlockReward.toNat < 2 ^ 64 := by
    have := reward.toNat_lt
    rw [Nat.div_lt_iff_lt_mul (by decide)]
    simp only [dynamicFeePerKbBaseFee, dynamicFeePerKbBaseBlockReward,
      UInt64.reduceToNat]
    omega
  have highZero : hi2 = 0 := by
    apply UInt64.toNat_inj.1
    simp only [wordsValue] at quotient
    rw [UInt64.toNat_zero]
    omega
  refine ⟨lo2, ?_, ?_⟩
  · simp only [getDynamicPerKbFee, ← rewardDef, product, first, second,
      highZero, if_true]
  · rw [← raised, ← quotient, wordsValue, highZero, UInt64.toNat_zero]
    omega

/-- The fee is never below the base fee: the reward it scales by is raised to
the base reward first. -/
theorem getDynamicPerKbFee_base_fee_le (blockReward medianBlockSize : UInt64)
    (height : Nat) :
    ∃ fee, getDynamicPerKbFee blockReward medianBlockSize height = some fee ∧
      dynamicFeePerKbBaseFee.toNat ≤ fee.toNat := by
  obtain ⟨fee, returned, value⟩ :=
    getDynamicPerKbFee_eq blockReward medianBlockSize height
  refine ⟨fee, returned, ?_⟩
  have scaled : dynamicFeePerKbBaseFee.toNat *
      dynamicFeePerKbBaseBlockReward.toNat ≤
      dynamicFeePerKbBaseFee.toNat * max blockReward.toNat
        dynamicFeePerKbBaseBlockReward.toNat :=
    Nat.mul_le_mul_left _ (le_max_right _ _)
  calc dynamicFeePerKbBaseFee.toNat
      = dynamicFeePerKbBaseFee.toNat * dynamicFeePerKbBaseBlockReward.toNat /
          dynamicFeePerKbBaseBlockReward.toNat :=
            (Nat.mul_div_cancel _ (by decide)).symm
    _ ≤ fee.toNat := value ▸ Nat.div_le_div_right scaled

/-- The fee per kilobyte is exact for every block reward, and so are the two
word operations it is built from: `mul128` returns the whole product, and
`div128_32` the quotient and remainder of a 128-bit dividend by any nonzero
32-bit divisor. -/
theorem dynamicPerKbFee_exact :
    (∀ multiplier multiplicand : UInt64,
      wordsValue (mul128 multiplier multiplicand).2
        (mul128 multiplier multiplicand).1 = multiplier.toNat *
          multiplicand.toNat) ∧
    (∀ (dividendHi dividendLo : UInt64) (divisor : UInt32), divisor ≠ 0 →
      ∀ remainder quotientHi quotientLo,
        div128_32 dividendHi dividendLo divisor =
          (remainder, quotientHi, quotientLo) →
            wordsValue quotientHi quotientLo * divisor.toNat + remainder.toNat =
              wordsValue dividendHi dividendLo ∧
                remainder.toNat < divisor.toNat) ∧
    ∀ (blockReward medianBlockSize : UInt64) (height : Nat),
      ∃ fee, getDynamicPerKbFee blockReward medianBlockSize height = some fee ∧
        fee.toNat = dynamicFeePerKbBaseFee.toNat *
          max blockReward.toNat dynamicFeePerKbBaseBlockReward.toNat /
            dynamicFeePerKbBaseBlockReward.toNat := by
  refine ⟨wordsValue_mul128, ?_, getDynamicPerKbFee_eq⟩
  intro dividendHi dividendLo divisor nonzero remainder quotientHi
    quotientLo division
  have positive : 0 < divisor.toNat := by
    rw [Nat.pos_iff_ne_zero, Ne, ← UInt32.toNat_zero, UInt32.toNat_inj]
    exact nonzero
  obtain ⟨quotient, rest⟩ := div128_32_spec positive division
  rw [quotient, rest]
  exact ⟨Nat.div_add_mod' _ _, Nat.mod_lt _ positive⟩

/-- `div128_32` on `100` by `7`, the dividend in the low word. -/
theorem dynamicPerKbFee_exact_dividing_by_seven :
    (7 : UInt32) ≠ 0 ∧ div128_32 0 100 7 = (2, 0, 14) ∧
      wordsValue 0 14 * (7 : UInt32).toNat + (2 : UInt32).toNat =
        wordsValue 0 100 ∧ (2 : UInt32).toNat < (7 : UInt32).toNat :=
  ⟨by decide, by decide, dynamicPerKbFee_exact.2.1 0 100 7 (by decide) 2
    0 14 (by decide)⟩

/-! ## The estimate the node hands out -/

section Estimate

variable (env : ChainEnv)

/-- `BLOCK_REWARD_OVERESTIMATE` of `blockchain.cpp`. -/
def blockRewardOverestimate : UInt64 := 16000000000

/-- `get_dynamic_per_kb_fee_estimate()`: the fee for the base reward of a block
at the median size of the last `CRYPTONOTE_REWARD_BLOCKS_WINDOW` blocks, on the
coins generated up to the last emission step; the placeholder reward where
`get_block_reward` refuses. -/
def getDynamicPerKbFeeEstimate : ChainM (Option UInt64) := do
  let sz ← getLastNBlocksSizes cryptonoteRewardBlocksWindow
  let median := median (sz.map UInt64.ofNat)
  let chain ← get
  let height := chain.db.height
  let calGeneratedCoins ← generatedCoinsBelow
      (height - height % coinEmissionHeightInterval)
  let baseReward :=
    (getBlockReward env.earlyEmission median 1 calGeneratedCoins height).getD
      blockRewardOverestimate
  pure (getDynamicPerKbFee baseReward median height)

theorem getDynamicPerKbFeeEstimate_inspects :
    Inspects (getDynamicPerKbFeeEstimate env) :=
  Inspects.bind (getLastNBlocksSizes_inspects _) fun _ =>
    Inspects.bind Inspects.get fun _ =>
      Inspects.bind (generatedCoinsBelow_inspects _) fun _ => Inspects.pure _

/-- Every estimate the node hands out: the chain is left as it was, the assert
on the high word holds, and the fee is at least the base fee. -/
theorem getDynamicPerKbFeeEstimate_ok {chain chain' : Blockchain}
    {estimate : Option UInt64}
    (run : getDynamicPerKbFeeEstimate env chain = .ok estimate chain') :
    chain' = chain ∧ ∃ fee, estimate = some fee ∧
      dynamicFeePerKbBaseFee.toNat ≤ fee.toNat := by
  refine ⟨(getDynamicPerKbFeeEstimate_inspects env).eq_of_ok run, ?_⟩
  simp only [getDynamicPerKbFeeEstimate, bind_eq_ok, get_bind_apply,
    pure_apply] at run
  obtain ⟨sizes, mid, -, coins, mid', -, returned⟩ := run
  obtain ⟨rfl, -⟩ := EStateM.Result.ok.inj returned
  exact getDynamicPerKbFee_base_fee_le _ _ _

end Estimate

/-- The sample run up to its genesis block: one block stored, so the estimate
reads one block size and the coins of one row. -/
def genesisChain : Blockchain :=
  ChainCall.runAll acceptingEnv (sampleRun.take 2) Blockchain.empty

theorem getDynamicPerKbFeeEstimate_ok_on_genesis_chain :
    genesisChain.db.height = 1 ∧
      ∃ estimate chain', getDynamicPerKbFeeEstimate acceptingEnv genesisChain =
        .ok estimate chain' ∧ estimate = some 1054687500000 ∧
          (chain' = genesisChain ∧ ∃ fee, estimate = some fee ∧
            dynamicFeePerKbBaseFee.toNat ≤ fee.toNat) := by
  -- the run is evaluated by the kernel through a test on its result
  have computed :
      (match getDynamicPerKbFeeEstimate acceptingEnv genesisChain with
      | .ok estimate _ => estimate == some 1054687500000
      | .error _ _ => false) = true := by decide +kernel
  match run :
    getDynamicPerKbFeeEstimate acceptingEnv genesisChain, computed with
  | .ok estimate chain', computed =>
    exact ⟨by decide +kernel, estimate, chain', rfl, by simpa using computed,
      getDynamicPerKbFeeEstimate_ok acceptingEnv run⟩

end CryptonoteCore
end Citicash
