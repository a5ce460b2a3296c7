import Citicash.CryptonoteCore.Consensus
import Mathlib.Data.List.Sort
import Mathlib.Tactic.Ring

/-!
# The proof-of-work check and the 128-bit products under it

`check_hash` multiplies the hash, a 256-bit little-endian number, by the
difficulty one 64-bit word at a time.  `Consensus` models it over `mul`, the
exact 128-bit product.  The source has two products behind `mul`: on x86-64
`mul128` of `common/int-util.h`, elsewhere the portable product of
`difficulty.cpp` on 32-bit halves.  Both are modelled here as written and shown
to be the exact product (`mul128_eq_mul`, `mulPortable_eq_mul`), so that
`check_hash` holds exactly when the product stays below `2^256` whichever is
compiled (`checkHash_iff`).

`next_difficulty` rounds its quotient up by adding the time span less one to
the work before dividing; the sum is not checked for overflow, so a work just
below the `2^64` the function does check for is rounded to 1
(`nextDifficulty_wraps_rounding_up`).
-/

namespace Citicash
namespace CryptonoteCore

open Cryptonote

/-! ## The two 128-bit products -/

/-- `hi_dword` and `lo_dword` of `common/int-util.h`. -/
def hiDword (val : UInt64) : UInt64 := val >>> 32
def loDword (val : UInt64) : UInt64 := val &&& 0xFFFFFFFF

/-- `mul128` of `common/int-util.h`: the low word it returns and the high word
it stores through `product_hi`, as `mul` on x86-64 receives them. -/
def mul128 (multiplier multiplicand : UInt64) : UInt64 × UInt64 :=
  let a := hiDword multiplier
  let b := loDword multiplier
  let c := hiDword multiplicand
  let d := loDword multiplicand
  let ac := a * c
  let ad := a * d
  let bc := b * c
  let bd := b * d
  let adbc := ad + bc
  let adbcCarry : UInt64 := if adbc < ad then 1 else 0
  let productLo := bd + (adbc <<< 32)
  let productLoCarry : UInt64 := if productLo < bd then 1 else 0
  let productHi := ac + (adbc >>> 32) + (adbcCarry <<< 32) + productLoCarry
  (productLo, productHi)

/-- The portable `mul` of `difficulty.cpp`, compiled where the target is not
x86-64: the product of the 32-bit halves, recombined with two carries. -/
def mulPortable (a b : UInt64) : UInt64 × UInt64 :=
  let aLow := a &&& 0xFFFFFFFF
  let aHigh := a >>> 32
  let bLow := b &&& 0xFFFFFFFF
  let bHigh := b >>> 32
  let res := aLow * bLow
  let lowRes1 := res &&& 0xFFFFFFFF
  let carry := res >>> 32
  let res := aHigh * bLow + carry
  let highResHigh1 := res >>> 32
  let highResLow1 := res &&& 0xFFFFFFFF
  let res := aLow * bHigh
  let lowRes2 := res &&& 0xFFFFFFFF
  let carry := res >>> 32
  let res := aHigh * bHigh + carry
  let highResHigh2 := res >>> 32
  let highResLow2 := res &&& 0xFFFFFFFF
  let r := highResLow1 + lowRes2
  let carry := r >>> 32
  let low := (r <<< 32) ||| lowRes1
  let r := highResHigh1 + highResLow2 + carry
  let d3 := r &&& 0xFFFFFFFF
  let carry := r >>> 32
  let r := highResHigh2 + carry
  let high := d3 ||| (r <<< 32)
  (low, high)

/-! ### Word operations as `Nat` arithmetic -/

theorem toNat_and_low (x : UInt64) :
    (x &&& 0xFFFFFFFF).toNat = x.toNat % 2 ^ 32 := by
  rw [UInt64.toNat_and, show (0xFFFFFFFF : UInt64).toNat = 2 ^ 32 - 1 from rfl,
    Nat.and_two_pow_sub_one_eq_mod]

theorem toNat_shiftRight_32 (x : UInt64) :
    (x >>> 32).toNat = x.toNat / 2 ^ 32 := by
  rw [UInt64.toNat_shiftRight, show (32 : UInt64).toNat % 64 = 32 from rfl,
    Nat.shiftRight_eq_div_pow]

theorem toNat_shiftLeft_32 (x : UInt64) :
    (x <<< 32).toNat = x.toNat % 2 ^ 32 * 2 ^ 32 := by
  rw [UInt64.toNat_shiftLeft, show (32 : UInt64).toNat % 64 = 32 from rfl,
    Nat.shiftLeft_eq]
  omega

/-- Two words with no bit in common: a low half, and a word shifted up by 32. -/
theorem toNat_low_or_shiftLeft (x y : UInt64) :
    ((y &&& (0xFFFFFFFF : UInt64)) ||| x <<< 32).toNat = x.toNat % 2 ^ 32 *
      2 ^ 32 + y.toNat % 2 ^ 32 := by
  have small : (y &&& (0xFFFFFFFF : UInt64)).toNat < 2 ^ 32 := by
    rw [toNat_and_low]
    omega
  rw [UInt64.toNat_or, toNat_shiftLeft_32, Nat.or_comm, Nat.mul_comm,
    ← Nat.two_pow_add_eq_or_of_lt small, toNat_and_low]

theorem toNat_shiftLeft_or_low (x y : UInt64) :
    (x <<< 32 ||| (y &&& (0xFFFFFFFF : UInt64))).toNat = x.toNat % 2 ^ 32 *
      2 ^ 32 + y.toNat % 2 ^ 32 := by
  rw [UInt64.toNat_or, Nat.or_comm, ← UInt64.toNat_or, toNat_low_or_shiftLeft]

theorem toNat_ite_one (p : Prop) [Decidable p] :
    (if p then (1 : UInt64) else 0).toNat = if p then 1 else 0 := by
  split <;> rfl

/-- The product of two halves fits a word. -/
theorem half_mul_half_le {x y : Nat} (smallX : x < 2 ^ 32)
    (smallY : y < 2 ^ 32) : x * y ≤ (2 ^ 32 - 1) * (2 ^ 32 - 1) :=
  Nat.mul_le_mul (by omega) (by omega)

/-- The product split into the products of halves. -/
theorem mul_eq_halves (a b : Nat) :
    a * b = a / 2 ^ 32 * (b / 2 ^ 32) * 2 ^ 64 +
      (a / 2 ^ 32 * (b % 2 ^ 32) + a % 2 ^ 32 * (b / 2 ^ 32)) * 2 ^ 32 +
        a % 2 ^ 32 * (b % 2 ^ 32) := by
  conv_lhs => rw [← Nat.div_add_mod a (2 ^ 32), ← Nat.div_add_mod b (2 ^ 32)]
  ring

theorem mul_toNat (a b : UInt64) :
    (mul a b).1.toNat = a.toNat * b.toNat % 2 ^ 64 ∧
      (mul a b).2.toNat = a.toNat * b.toNat / 2 ^ 64 := by
  have fits : a.toNat * b.toNat < 2 ^ 128 := by
    have := Nat.mul_lt_mul'' a.toNat_lt b.toNat_lt
    simpa using this
  refine ⟨by simp [mul], ?_⟩
  simp only [mul, UInt64.toNat_ofNat']
  omega

/-- The exact 128-bit product of `mul`, low word plus `2^64` times the high
one. -/
theorem mul_spec (a b : UInt64) :
    (mul a b).1.toNat + 2 ^ 64 * (mul a b).2.toNat = a.toNat * b.toNat := by
  obtain ⟨low, high⟩ := mul_toNat a b
  rw [low, high]
  omega

/-- `mul128` is the exact product. -/
theorem mul128_eq_mul (a b : UInt64) : mul128 a b = mul a b := by
  obtain ⟨low, high⟩ := mul_toNat a b
  have split := mul_eq_halves a.toNat b.toNat
  have ac := half_mul_half_le (x := a.toNat / 2 ^ 32) (y := b.toNat / 2 ^ 32)
    (by have := a.toNat_lt; omega) (by have := b.toNat_lt; omega)
  have ad := half_mul_half_le (x := a.toNat / 2 ^ 32) (y := b.toNat % 2 ^ 32)
    (by have := a.toNat_lt; omega) (by omega)
  have bc := half_mul_half_le (x := a.toNat % 2 ^ 32) (y := b.toNat / 2 ^ 32)
    (by omega) (by have := b.toNat_lt; omega)
  have bd :=
    half_mul_half_le (x := a.toNat % 2 ^ 32) (y := b.toNat % 2 ^ 32)
      (by omega) (by omega)
  apply Prod.ext <;> apply UInt64.toNat_inj.1
  · simp only [mul128, hiDword, loDword, UInt64.toNat_add,
      UInt64.toNat_mul, toNat_and_low, toNat_shiftRight_32,
      toNat_shiftLeft_32, low]
    omega
  · simp only [mul128, hiDword, loDword, UInt64.toNat_add,
      UInt64.toNat_mul, toNat_and_low, toNat_shiftRight_32, toNat_shiftLeft_32,
      toNat_ite_one, UInt64.lt_iff_toNat_lt, high]
    split_ifs <;> omega

/-- The portable `mul` is the exact product. -/
theorem mulPortable_eq_mul (a b : UInt64) : mulPortable a b = mul a b := by
  obtain ⟨low, high⟩ := mul_toNat a b
  have split := mul_eq_halves a.toNat b.toNat
  have ac := half_mul_half_le (x := a.toNat / 2 ^ 32) (y := b.toNat / 2 ^ 32)
    (by have := a.toNat_lt; omega) (by have := b.toNat_lt; omega)
  have ad := half_mul_half_le (x := a.toNat / 2 ^ 32) (y := b.toNat % 2 ^ 32)
    (by have := a.toNat_lt; omega) (by omega)
  have bc := half_mul_half_le (x := a.toNat % 2 ^ 32) (y := b.toNat / 2 ^ 32)
    (by omega) (by have := b.toNat_lt; omega)
  have bd :=
    half_mul_half_le (x := a.toNat % 2 ^ 32) (y := b.toNat % 2 ^ 32)
      (by omega) (by omega)
  apply Prod.ext <;> apply UInt64.toNat_inj.1
  · simp only [mulPortable, toNat_shiftLeft_or_low, UInt64.toNat_add,
      UInt64.toNat_mul, toNat_and_low, toNat_shiftRight_32, low]
    omega
  · simp only [mulPortable, toNat_low_or_shiftLeft, UInt64.toNat_add,
      UInt64.toNat_mul, toNat_and_low, toNat_shiftRight_32, high]
    omega

/-! ## `check_hash` -/

/-- The number bytes spell, least significant first. -/
def littleEndian (bytes : List UInt8) : Nat :=
  bytes.foldr (fun byte value => byte.toNat + 256 * value) 0

/-- The hash as the 256-bit little-endian number of its 32 bytes. -/
def hashValue (hash : Hash) : Nat := littleEndian hash.bytes.toList

@[simp] theorem littleEndian_nil : littleEndian [] = 0 := rfl

@[simp] theorem littleEndian_cons (byte : UInt8) (rest : List UInt8) :
    littleEndian (byte :: rest) = byte.toNat + 256 * littleEndian rest := rfl

theorem littleEndian_append (first second : List UInt8) :
    littleEndian (first ++ second) =
      littleEndian first + 256 ^ first.length * littleEndian second := by
  induction first with
  | nil => simp
  | cons byte rest ih =>
    rw [List.cons_append, littleEndian_cons, littleEndian_cons, ih,
      List.length_cons, Nat.pow_succ]
    ring

theorem littleEndian_lt (bytes : List UInt8) :
    littleEndian bytes < 256 ^ bytes.length := by
  induction bytes with
  | nil => simp
  | cons byte rest ih =>
    have := byte.toNat_lt
    rw [littleEndian_cons, List.length_cons, Nat.pow_succ]
    omega

theorem littleEndian_take_drop (bytes : List UInt8) {n : Nat}
    (within : n ≤ bytes.length) :
    littleEndian bytes = littleEndian (bytes.take n) + 256 ^ n *
      littleEndian (bytes.drop n) := by
  conv_lhs => rw [← List.take_append_drop n bytes]
  rw [littleEndian_append, List.length_take_of_le within]

/-- Up to eight bytes read into a word do not wrap. -/
theorem toNat_foldr_word (bytes : List UInt8) (short : bytes.length ≤ 8) :
    (bytes.foldr
      (fun (byte : UInt8) (word : UInt64) => byte.toUInt64 + 256 *
        word) 0).toNat = littleEndian bytes := by
  induction bytes with
  | nil => rfl
  | cons byte rest ih =>
    simp only [List.length_cons] at short
    have restBelow := littleEndian_lt rest
    have restPow : 256 ^ rest.length ≤ 256 ^ 7 :=
      Nat.pow_le_pow_right (by norm_num) (by omega)
    have := byte.toNat_lt
    have word : (256 : UInt64).toNat = 256 := rfl
    simp only [List.foldr_cons, UInt64.toNat_add, UInt64.toNat_mul,
      UInt8.toNat_toUInt64, ih (by omega), littleEndian_cons, word]
    norm_num at restPow
    omega

theorem toNat_hashWord (hash : Hash) (i : Nat) :
    (hashWord hash i).toNat =
      littleEndian ((hash.bytes.toList.drop (8 * i)).take 8) :=
  toNat_foldr_word _ (by simp)

/-- The hash's number from its four words. -/
theorem hashValue_words (hash : Hash) :
    hashValue hash = (hashWord hash 0).toNat + 2 ^ 64 *
      (hashWord hash 1).toNat + 2 ^ 128 * (hashWord hash 2).toNat + 2 ^ 192 *
        (hashWord hash 3).toNat := by
  have length : hash.bytes.toList.length = 32 := by simp
  simp only [toNat_hashWord, hashValue]
  rw [littleEndian_take_drop _ (n := 8) (by omega),
    littleEndian_take_drop (hash.bytes.toList.drop 8) (n := 8)
      (by simp [length]),
    littleEndian_take_drop ((hash.bytes.toList.drop 8).drop 8) (n := 8)
      (by simp [length]),
    List.drop_drop, List.drop_drop,
    List.take_of_length_le (l := hash.bytes.toList.drop (8 + 16))
      (by simp [length])]
  norm_num
  ring

theorem cadd_iff (a b : UInt64) :
    cadd a b = true ↔ 2 ^ 64 ≤ a.toNat + b.toNat := by
  have := b.toNat_lt
  simp only [cadd, decide_eq_true_eq, UInt64.lt_iff_toNat_lt, UInt64.toNat_add]
  omega

theorem cadc_iff (a b : UInt64) (c : Bool) :
    cadc a b c = true ↔ 2 ^ 64 ≤ a.toNat + b.toNat + c.toNat := by
  have := a.toNat_lt
  have := b.toNat_lt
  have sum : (a + b == UInt64.ofNat (2 ^ 64 - 1)) = true ↔
      a.toNat + b.toNat = 2 ^ 64 - 1 := by
    rw [beq_iff_eq, ← UInt64.toNat_inj, UInt64.toNat_add, UInt64.toNat_ofNat']
    omega
  cases c <;>
    simp only [cadc, Bool.or_eq_true, decide_eq_true_eq, UInt64.lt_iff_toNat_lt,
    UInt64.toNat_add, Bool.and_eq_true, sum, Bool.toNat_true,
    Bool.toNat_false] <;> simp <;> omega

theorem toNat_cadd (a b : UInt64) :
    (cadd a b).toNat = (a.toNat + b.toNat) / 2 ^ 64 := by
  have := a.toNat_lt
  have := b.toNat_lt
  have spec := cadd_iff a b
  cases carry :
    cadd a b <;>
    simp only [carry, Bool.toNat_true, Bool.toNat_false, Bool.false_eq_true,
    true_iff, false_iff, not_le] at spec ⊢ <;> omega

theorem toNat_cadc (a b : UInt64) (c : Bool) :
    (cadc a b c).toNat = (a.toNat + b.toNat + c.toNat) / 2 ^ 64 := by
  have := a.toNat_lt
  have := b.toNat_lt
  have := Bool.toNat_le c
  have spec := cadc_iff a b c
  cases carry :
    cadc a b c <;>
    simp only [carry, Bool.toNat_true, Bool.toNat_false, Bool.false_eq_true,
    true_iff, false_iff, not_le] at spec ⊢ <;> omega

/-- `check_hash` accepts exactly the hashes whose number times the difficulty
stays below `2^256`; the products under it, `mul128` on x86-64 and the
portable one elsewhere, are both the exact product. -/
theorem checkHash_iff (hash : Hash) (difficulty : UInt64) :
    (checkHash hash difficulty = true ↔
      hashValue hash * difficulty.toNat < 2 ^ 256) ∧
        (∀ a b, mul128 a b = mul a b) ∧ (∀ a b, mulPortable a b = mul a b) := by
  refine ⟨?_, mul128_eq_mul, mulPortable_eq_mul⟩
  have value := hashValue_words hash
  have below := difficulty.toNat_lt
  have product (i : Nat) : (hashWord hash i).toNat *
      difficulty.toNat < 2 ^ 128 :=
    calc (hashWord hash i).toNat * difficulty.toNat
        < 2 ^ 64 * 2 ^ 64 := Nat.mul_lt_mul'' (hashWord hash i).toNat_lt below
      _ = 2 ^ 128 := by norm_num
  have p0 := product 0
  have p1 := product 1
  have p2 := product 2
  have p3 := product 3
  rw [value, Nat.add_mul, Nat.add_mul, Nat.add_mul, Nat.mul_assoc,
    Nat.mul_assoc, Nat.mul_assoc]
  simp only [checkHash, mul, ne_eq, ← UInt64.toNat_inj, UInt64.toNat_ofNat',
    UInt64.toNat_zero]
  split_ifs with high
  · simp only [Bool.not_eq_true', ← Bool.toNat_eq_zero, toNat_cadc, toNat_cadd,
      UInt64.toNat_ofNat']
    omega
  · simp only [false_iff, not_lt]
    omega

/-! ## Rounding in `next_difficulty` -/

/-- Two blocks a hundred seconds apart whose work times the target is
`2^64 - 16`: the product passes the overflow check, the adjusted time span is
101, and the rounding sum `low + 100` wraps, so the difficulty comes out 1
instead of the quotient rounded up. -/
theorem nextDifficulty_wraps_rounding_up :
    307445734561825860 * 60 < 2 ^ 64 ∧
      (307445734561825860 * 60 + 101 - 1) / 101 = 182641030432767838 ∧
      nextDifficulty [0, 100] [1, 307445734561825861] 60 = 1 := by
  refine ⟨by decide, by decide, ?_⟩
  simp only [nextDifficulty, List.mergeSort_eq_insertionSort]
  decide

end CryptonoteCore
end Citicash
