import Mathlib.Data.ZMod.Basic
import Mathlib.Algebra.Module.Defs
import Mathlib.Tactic.Abel
import Citicash.Lib.BlockCodec
import Citicash.Basic.Types

/-!
# The algebraic model of `rctOps`

RingCT computes on 32-byte keys that hold either a scalar or a point of the
curve.  The model reads the two kinds apart.  A scalar is an element of
`ZMod l`, `l` the order of the base point (`curveOrder()`): `sc_add`, `sc_sub`
and `sc_mulsub` leave reduced numbers in their keys, and read their arguments
as numbers modulo `l`.  A point is an element of any additive group that is a
module over the scalars, so that `addKeys` is `+`, `subKeys` is `-` and
`scalarmultKey(P, a)` is `a • P`.  The base points `G` and `H` and the hash
functions are the fields of a `Curve`, and nothing is assumed of them; the
table `H2` holds `2^i H`.

Amounts cross between the two worlds as bytes: `d2h` writes an amount into a
key, a key is read as a scalar by its little-endian value (`keyToScalar`), a
scalar is written back as its reduced little-endian bytes (`scalarToKey`), and
`h2d` reads the first eight bytes of a key.  `d2b` writes the 64 bits of an
amount, `b2d` and `b2h` read them back as the amount and as the key `d2h` writes
(`b2d_d2b`, `b2h_d2b`).  `h2b` is not their inverse: its loop that pads a byte's
bits with zeros never moves its index, so it returns only on keys whose first
eight bytes all have their top bit set (`h2b_isSome_iff`), and never on the key
of a small amount (`h2b_never_returns_on_amount_key`). `ecdhEncode` and
`ecdhDecode` shift the mask and the amount of an `ecdhTuple` by two hashes of
the shared secret, and undo each other (`ecdhDecode_ecdhEncode`); an amount
written by `d2h` is read back by `h2d` through a scalar
(`h2d_scalarToKey_keyToScalar_d2h`).
-/

namespace Citicash
namespace Cryptonote
namespace Rct

/-! ## Scalars and the curve -/

/-- `curveOrder()`, the key `L`: the order `l` of the base point. -/
def curveOrder : Nat := 2 ^ 252 + 27742317777372353535851937790883648493

instance : NeZero curveOrder := ⟨by decide⟩

/-- A scalar: a key holding a number reduced modulo `l`. -/
abbrev Scalar := ZMod curveOrder

/-- The curve as RingCT uses it: the base point `G`, the second base point
`H`, and the hash functions, which the model leaves arbitrary. -/
structure Curve (Point : Type) where
  /-- The base point of `scalarmultBase`. -/
  G : Point
  /-- The point `H` of the commitments. -/
  H : Point
  /-- `hashToPoint` of a point. -/
  hashToPoint : Point → Point
  /-- `hash_to_scalar` of a vector of keys that are points (a lone point is a
  vector of one). -/
  hashToScalar : List Point → Scalar
  /-- `hash_to_scalar` of a key that holds a scalar. -/
  hashScalar : Scalar → Scalar

section Ops

variable {Point : Type} [AddCommGroup Point] [Module Scalar Point]
    (curve : Curve Point)

/-- `scalarmultBase(a)`: `a G`. -/
def scalarmultBase (a : Scalar) : Point := a • curve.G

/-- `scalarmultKey(P, a)`: `a P`. -/
def scalarmultKey (P : Point) (a : Scalar) : Point := a • P

/-- `scalarmultH(a)`: `a H`. -/
def scalarmultH (a : Scalar) : Point := a • curve.H

/-- `addKeys(A, B)`. -/
def addKeys (A B : Point) : Point := A + B

/-- `subKeys(A, B)`. -/
def subKeys (A B : Point) : Point := A - B

/-- `addKeys1(a, B)`: `a G + B`. -/
def addKeys1 (a : Scalar) (B : Point) : Point :=
  addKeys (scalarmultBase curve a) B

/-- `addKeys2(a, b, B)`: `a G + b B`. -/
def addKeys2 (a b : Scalar) (B : Point) : Point := a • curve.G + b • B

/-- `addKeys3(a, A, b, B)`: `a A + b B`; the precomputation of `B` is the
point itself. -/
def addKeys3 (a : Scalar) (A : Point) (b : Scalar) (B : Point) :
    Point := a • A + b • B

/-- `H2[i]`, the table of `2^i H`. -/
def h2 (i : Nat) : Point := ((2 : Scalar) ^ i) • curve.H

@[simp] theorem scalarmultBase_eq (a : Scalar) :
    scalarmultBase curve a = a • curve.G := rfl
@[simp] theorem scalarmultKey_eq (P : Point) (a : Scalar) :
    scalarmultKey P a = a • P := rfl
@[simp] theorem scalarmultH_eq (a : Scalar) :
    scalarmultH curve a = a • curve.H := rfl
omit [Module Scalar Point] in
@[simp] theorem addKeys_eq (A B : Point) : addKeys A B = A + B := rfl
omit [Module Scalar Point] in
@[simp] theorem subKeys_eq (A B : Point) : subKeys A B = A - B := rfl
@[simp] theorem addKeys1_eq (a : Scalar) (B : Point) :
    addKeys1 curve a B = a • curve.G + B := rfl
@[simp] theorem addKeys2_eq (a b : Scalar) (B : Point) :
    addKeys2 curve a b B = a • curve.G + b • B := rfl
@[simp] theorem addKeys3_eq (a : Scalar) (A : Point) (b : Scalar) (B : Point) :
    addKeys3 a A b B = a • A + b • B := rfl

end Ops

/-! ## Amounts, keys and scalars -/

/-- The loop of `d2h(amounth, in)`: while the value is not zero, its low byte
goes to the next place of the key. -/
def d2hLoop (val : UInt64) (i : Nat) (amounth : Vector UInt8 32) :
    Vector UInt8 32 :=
  if val ≠ 0
    then d2hLoop (val / 256) (i + 1)
           (amounth.setIfInBounds i (val &&& 0xFF).toUInt8)
  else amounth
termination_by val.toNat
decreasing_by
  have positive : 0 < val.toNat := by
    rw [Nat.pos_iff_ne_zero]
    exact fun zero => ‹val ≠ 0› (UInt64.toNat_inj.1 (by rw [zero]; rfl))
  rw [UInt64.toNat_div]
  exact Nat.div_lt_self positive (by decide)

/-- `d2h(in)`: an amount written into a key of zeros, least significant byte
first. -/
def d2h (value : UInt64) : Key := ⟨d2hLoop value 0 (Vector.replicate 32 0)⟩

/-- `h2d(test)`: the number the first eight bytes of a key hold, least
significant first. -/
def h2d (test : Key) : UInt64 :=
  (List.range 8).reverse.foldl
    (fun vali j => vali * 256 + (test.bytes.toList.getD j 0).toUInt64) 0

/-- The number a key holds, least significant byte first. -/
def keyValue (k : Key) : Nat :=
  k.bytes.toList.foldr (fun byte acc => byte.toNat + 256 * acc) 0

/-- A key read as a scalar, as the `sc_*` functions read it. -/
def keyToScalar (k : Key) : Scalar := (keyValue k : Scalar)

/-- A reduced scalar written as a key. -/
def scalarToKey (s : Scalar) : Key :=
  ⟨Vector.ofFn fun i => (s.val / 256 ^ (i : Nat) % 256).toUInt8⟩

/-! ## Reading amounts back -/

/-- The loop of `d2h` writes the base-256 digits of what is left of the value
from place `i` on, over a key that is zero from there. -/
theorem getElem_d2hLoop (val : UInt64) (i : Nat) (amounth : Vector UInt8 32)
    (zeros : ∀ j (within : j < 32), i ≤ j → amounth[j] = 0)
    (fits : val.toNat < 256 ^ (32 - i)) (j : Nat) (within : j < 32) :
    (d2hLoop val i amounth)[j] =
      if j < i then amounth[j]
        else (val.toNat / 256 ^ (j - i) % 256).toUInt8 := by
  fun_induction d2hLoop val i amounth with
  | case1 val i amounth nonzero ih =>
    have positive : 0 < val.toNat := by
      rw [Nat.pos_iff_ne_zero]
      exact fun zero => nonzero (UInt64.toNat_inj.1 (by rw [zero]; rfl))
    have room : i < 32 := by
      by_contra full
      rw [Nat.sub_eq_zero_of_le (by omega), Nat.pow_zero] at fits
      omega
    have lowByte : (val &&& 0xFF).toUInt8 = (val.toNat % 256).toUInt8 := by
      apply UInt8.toNat_inj.1
      rw [UInt64.toNat_toUInt8, UInt64.toNat_and, show (0xFF : UInt64).toNat =
        2 ^ 8 - 1 from rfl, Nat.and_two_pow_sub_one_eq_mod, Nat.toUInt8_eq]
      simp
    have restFits : (val / 256).toNat < 256 ^ (32 - (i + 1)) := by
      have shifted : 256 ^ (32 - (i + 1)) * 256 = 256 ^ (32 - i) := by
        rw [← Nat.pow_succ]
        congr 1
        omega
      rw [UInt64.toNat_div, show (256 : UInt64).toNat = 256 from rfl,
        Nat.div_lt_iff_lt_mul (by decide), shifted]
      exact fits
    have restZeros : ∀ j (within : j < 32), i + 1 ≤ j →
        (amounth.setIfInBounds i (val &&& 0xFF).toUInt8)[j] = 0 := by
      intro j within later
      rw [Vector.getElem_setIfInBounds, if_neg (by omega),
        zeros j within (by omega)]
    rw [ih restZeros restFits, Vector.getElem_setIfInBounds, UInt64.toNat_div,
      show (256 : UInt64).toNat = 256 from rfl]
    -- the byte written at `i` is the lowest digit; later places shift by one
    by_cases before : j < i
    · rw [if_pos (by omega), if_neg (by omega), if_pos before]
    · by_cases here : j = i
      · subst here
        rw [if_pos (by omega), if_pos rfl, if_neg (by omega), lowByte,
          Nat.sub_self, Nat.pow_zero, Nat.div_one]
      · have shifted : 256 * 256 ^ (j - (i + 1)) = 256 ^ (j - i) := by
          rw [← Nat.pow_succ']
          congr 1
          omega
        rw [if_neg (by omega), if_neg before, Nat.div_div_eq_div_mul, shifted]
  | case2 val i amounth zero =>
    have cleared : val = 0 := by simpa using zero
    subst cleared
    split
    · rfl
    · rw [zeros j within (by omega)]
      simp

theorem getElem_d2h (value : UInt64) (j : Nat) (within : j < 32) :
    (d2h value).bytes[j] = (value.toNat / 256 ^ j % 256).toUInt8 := by
  have fits : value.toNat < 256 ^ (32 - 0) := by
    have : value.toNat < 2 ^ 64 := value.toNat_lt
    rw [Nat.sub_zero]
    exact Nat.lt_of_lt_of_le this (by decide)
  rw [d2h, getElem_d2hLoop value 0 _
    (fun j within _ => Vector.getElem_replicate within) fits j within,
    if_neg (Nat.not_lt_zero j), Nat.sub_zero]

theorem getElem_scalarToKey (s : Scalar) (j : Nat) (within : j < 32) :
    (scalarToKey s).bytes[j] = (s.val / 256 ^ j % 256).toUInt8 := by
  simp [scalarToKey]

/-- The bytes of a key that holds the base-256 digits of `n`. -/
theorem toList_of_digits {k : Key} {n : Nat}
    (digits : ∀ j (within : j < 32), k.bytes[j] = (n / 256 ^ j % 256).toUInt8) :
    k.bytes.toList = (List.range 32).map fun j =>
      (n / 256 ^ j % 256).toUInt8 := by
  apply List.ext_getElem (by simp)
  intro j within _
  rw [Vector.getElem_toList, List.getElem_map, List.getElem_range]
  exact digits j (by simpa using within)

/-- A fold of bytes into a word, most significant first, does not wrap for up
to eight bytes. -/
theorem toNat_foldl_bytes (bytes : List UInt8) (short : bytes.length ≤ 8) :
    (bytes.foldl
      (fun (vali : UInt64) (byte : UInt8) => vali * 256 +
        byte.toUInt64) 0).toNat = BlockCodec.digitsValue 256
          (bytes.map UInt8.toNat) := by
  induction bytes using List.reverseRecOn with
  | nil => rfl
  | append_singleton init byte ih =>
    simp only [List.length_append, List.length_singleton] at short
    have bytesSmall : ∀ digit ∈ init.map UInt8.toNat, digit < 256 := by
      simp only [List.mem_map]
      rintro _ ⟨byte, -, rfl⟩
      exact byte.toNat_lt
    have below := BlockCodec.digitsValue_lt 256 bytesSmall
    have room : 256 ^ (init.map UInt8.toNat).length ≤ 2 ^ 56 := by
      rw [List.length_map, show (2 : Nat) ^ 56 = 256 ^ 7 by norm_num]
      exact Nat.pow_le_pow_right (by decide) (by omega)
    have byteSmall := byte.toNat_lt
    rw [List.foldl_append, List.foldl_cons, List.foldl_nil, UInt64.toNat_add,
      UInt64.toNat_mul, ih (by omega), List.map_append, List.map_singleton,
      BlockCodec.digitsValue_append_singleton,
      UInt8.toNat_toUInt64, show (256 : UInt64).toNat = 256 from rfl]
    rw [Nat.mod_eq_of_lt (by omega), Nat.mod_eq_of_lt (by omega)]

/-- `h2d` of a key holding the digits of `n` is `n` modulo `2^64`. -/
theorem toNat_h2d_of_digits {test : Key} {n : Nat}
    (digits : ∀ j (within : j < 32),
      test.bytes[j] = (n / 256 ^ j % 256).toUInt8) :
    (h2d test).toNat = n % 2 ^ 64 := by
  have bytes := toList_of_digits digits
  have firstEight :
      ((List.range 8).reverse.map fun j => test.bytes.toList.getD j 0).map
      UInt8.toNat = BlockCodec.fixedDigits 256 8 n := by
    rw [BlockCodec.fixedDigits_eq_map_range, List.map_map]
    refine List.map_congr_left fun j member => ?_
    have small : j < 8 := List.mem_range.1 (List.mem_reverse.1 member)
    simp [bytes, List.getD_eq_getElem?_getD,
      show j < 32 by omega, Nat.toUInt8_eq]
  have folded :
      h2d test =
        ((List.range 8).reverse.map fun j => test.bytes.toList.getD j 0).foldl
      (fun (vali : UInt64) (byte : UInt8) => vali * 256 + byte.toUInt64) 0 := by
    rw [List.foldl_map]
    rfl
  rw [folded, toNat_foldl_bytes _ (by simp), firstEight,
    BlockCodec.digitsValue_fixedDigits]
  rfl

theorem keyValue_of_digits {k : Key} {n : Nat}
    (digits : ∀ j (within : j < 32), k.bytes[j] = (n / 256 ^ j % 256).toUInt8) :
    keyValue k = n % 256 ^ 32 := by
  have bytes := toList_of_digits digits
  have reversed : (k.bytes.toList.map UInt8.toNat).reverse =
      BlockCodec.fixedDigits 256 32 n := by
    rw [BlockCodec.fixedDigits_eq_map_range, bytes, List.map_map,
      ← List.map_reverse]
    refine List.map_congr_left fun j _ => ?_
    simp [Nat.toUInt8_eq]
  rw [← BlockCodec.digitsValue_fixedDigits, ← reversed, BlockCodec.digitsValue,
    List.foldl_reverse, keyValue, List.foldr_map]
  congr 1
  funext byte acc
  ring

/-- `h2d` reads back what `d2h` wrote. -/
theorem h2d_d2h (value : UInt64) : h2d (d2h value) = value := by
  apply UInt64.toNat_inj.1
  rw [toNat_h2d_of_digits (getElem_d2h value), Nat.mod_eq_of_lt value.toNat_lt]

theorem keyToScalar_d2h (value : UInt64) :
    keyToScalar (d2h value) = (value.toNat : Scalar) := by
  have fits : value.toNat < 256 ^ 32 :=
    Nat.lt_of_lt_of_le value.toNat_lt (by decide)
  rw [keyToScalar, keyValue_of_digits (getElem_d2h value),
    Nat.mod_eq_of_lt fits]

/-- An amount written by `d2h`, read as a scalar and written back, is read by
`h2d` as the amount: `l` is larger than every amount. -/
theorem h2d_scalarToKey_keyToScalar_d2h (value : UInt64) :
    h2d (scalarToKey (keyToScalar (d2h value))) = value := by
  have below : value.toNat < curveOrder :=
    Nat.lt_of_lt_of_le value.toNat_lt (by decide)
  apply UInt64.toNat_inj.1
  rw [toNat_h2d_of_digits (getElem_scalarToKey _), keyToScalar_d2h,
    ZMod.val_natCast, Nat.mod_eq_of_lt below, Nat.mod_eq_of_lt value.toNat_lt]

/-! ## Bits of an amount -/

theorem ofFn_eq_map_range {α : Type} {n : Nat} (f : Nat → α) :
    List.ofFn (fun i : Fin n => f i) = (List.range n).map f := by
  apply List.ext_getElem (by simp)
  intro k _ _
  simp


/-- The loops of `d2b(amountb, val)`: while the value is not zero its low bit
goes to the next place; the places from the first one not written on are set
to zero. -/
def d2bLoop (val : UInt64) (i : Nat) (amountb : Vector Nat 64) :
    Vector Nat 64 :=
  if val ≠ 0
    then d2bLoop (val >>> 1) (i + 1) (amountb.setIfInBounds i (val &&& 1).toNat)
  else Vector.ofFn fun j => if (j : Nat) < i then amountb.get j else 0
termination_by val.toNat
decreasing_by
  have positive : 0 < val.toNat := by
    rw [Nat.pos_iff_ne_zero]
    exact fun zero => ‹val ≠ 0› (UInt64.toNat_inj.1 (by rw [zero]; rfl))
  rw [UInt64.toNat_shiftRight, Nat.shiftRight_eq_div_pow]
  exact Nat.div_lt_self positive (by decide)

/-- `d2b(amountb, val)`: the 64 bits of an amount, least significant first.
(Every place of the source's array is written, so the array it starts from
does not matter.) -/
def d2b (val : UInt64) : Vector Nat 64 := d2bLoop val 0 (Vector.replicate 64 0)

/-- The loop of `d2b` writes the bits of what is left of the value from place
`i` on. -/
theorem getElem_d2bLoop (val : UInt64) (i : Nat) (amountb : Vector Nat 64)
    (fits : val.toNat < 2 ^ (64 - i)) (j : Nat) (within : j < 64) :
    (d2bLoop val i amountb)[j] = if j <
      i then amountb[j] else val.toNat / 2 ^ (j - i) % 2 := by
  fun_induction d2bLoop val i amountb with
  | case1 val i amountb nonzero ih =>
    have positive : 0 < val.toNat := by
      rw [Nat.pos_iff_ne_zero]
      exact fun zero => nonzero (UInt64.toNat_inj.1 (by rw [zero]; rfl))
    have room : i < 64 := by
      by_contra full
      rw [Nat.sub_eq_zero_of_le (by omega), Nat.pow_zero] at fits
      omega
    have lowBit : (val &&& 1).toNat = val.toNat % 2 := by
      rw [UInt64.toNat_and, show (1 : UInt64).toNat = 2 ^ 1 - 1 from rfl,
        Nat.and_two_pow_sub_one_eq_mod, Nat.pow_one]
    have halved : (val >>> 1).toNat = val.toNat / 2 := by
      rw [UInt64.toNat_shiftRight, Nat.shiftRight_eq_div_pow]
      rfl
    have restFits : (val >>> 1).toNat < 2 ^ (64 - (i + 1)) := by
      have shifted : 2 ^ (64 - (i + 1)) * 2 = 2 ^ (64 - i) := by
        rw [← Nat.pow_succ]
        congr 1
        omega
      rw [halved, Nat.div_lt_iff_lt_mul (by decide), shifted]
      exact fits
    rw [ih restFits, Vector.getElem_setIfInBounds, halved]
    -- the bit written at `i` is the lowest; later places shift by one
    by_cases before : j < i
    · rw [if_pos (by omega), if_neg (by omega), if_pos before]
    · by_cases here : j = i
      · subst here
        rw [if_pos (by omega), if_pos rfl, if_neg (by omega), lowBit,
          Nat.sub_self, Nat.pow_zero, Nat.div_one]
      · have shifted : 2 * 2 ^ (j - (i + 1)) = 2 ^ (j - i) := by
          rw [← Nat.pow_succ']
          congr 1
          omega
        rw [if_neg (by omega), if_neg before, Nat.div_div_eq_div_mul, shifted]
  | case2 val i amountb zero =>
    have cleared : val = 0 := by simpa using zero
    subst cleared
    rw [Vector.getElem_ofFn]
    split
    · rw [Vector.get_eq_getElem]
    · simp

theorem getElem_d2b (val : UInt64) (j : Nat) (within : j < 64) :
    (d2b val)[j] = val.toNat / 2 ^ j % 2 := by
  rw [d2b, getElem_d2bLoop val 0 _ (by simpa using val.toNat_lt) j within,
    if_neg (Nat.not_lt_zero j), Nat.sub_zero]

/-- `b2d(amountb)`: the bits read from place 63 down, the value doubled
before each is added, in 64-bit arithmetic; each place is an `unsigned
int`. -/
def b2d (amountb : Vector Nat 64) : UInt64 :=
  (List.range 64).reverse.foldl
    (fun vali j => vali * 2 + (amountb.toList.getD j 0).toUInt32.toUInt64) 0

/-- `b2h(amountdh, amountb2)`: each of the first eight bytes rebuilt from its
eight bits, read from the highest down (in `int` arithmetic, cut to
`unsigned char`); the other bytes are zero. -/
def b2h (amountb2 : Vector Nat 64) : Key :=
  ⟨Vector.ofFn fun j : Fin 32 =>
    if (j : Nat) < 8 then
      ((List.range 8).reverse.foldl
        (fun byte i => byte * 2 + amountb2.toList.getD (8 * j + i) 0) 0).toUInt8
    else 0⟩

/-- A fold that multiplies by the base and adds a digit, in 64-bit
arithmetic, is the numeral's value modulo `2^64`. -/
theorem toNat_foldl_mul_add (base : UInt64) (digits : List UInt64)
    (init : UInt64) :
    (digits.foldl (fun vali digit => vali * base + digit) init).toNat =
      (init.toNat * base.toNat ^ digits.length + BlockCodec.digitsValue
        base.toNat (digits.map UInt64.toNat)) % 2 ^ 64 := by
  induction digits generalizing init with
  | nil => simp [Nat.mod_eq_of_lt init.toNat_lt]
  | cons digit rest ih =>
    rw [List.foldl_cons, ih, List.map_cons, BlockCodec.digitsValue_cons,
      UInt64.toNat_add, UInt64.toNat_mul, List.length_cons, List.length_map]
    -- the wraps inside the step do not change the value modulo `2^64`
    have wraps : (init.toNat * base.toNat % 2 ^ 64 + digit.toNat) % 2 ^ 64 ≡
        init.toNat * base.toNat + digit.toNat [MOD 2 ^ 64] :=
      (Nat.mod_modEq _ _).trans (Nat.ModEq.add_right _ (Nat.mod_modEq _ _))
    refine (Nat.ModEq.add_right _ (Nat.ModEq.mul_right _ wraps)).trans ?_
    unfold Nat.ModEq
    congr 1
    ring

/-- The bits of `d2b` read by place, as `b2d` and `b2h` read them. -/
theorem getD_toList_d2b (val : UInt64) {j : Nat} (within : j < 64) :
    (d2b val).toList.getD j 0 = val.toNat / 2 ^ j % 2 := by
  rw [List.getD_eq_getElem?_getD,
    List.getElem?_eq_getElem (by simpa using within), Option.getD_some,
    Vector.getElem_toList, getElem_d2b val j within]

/-- `b2d` reads the bits `d2b` writes back as the amount. -/
theorem b2d_d2b (val : UInt64) : b2d (d2b val) = val := by
  have folded : b2d (d2b val) = ((List.range 64).reverse.map fun j =>
      ((d2b val).toList.getD j 0).toUInt32.toUInt64).foldl
        (fun vali digit => vali * 2 + digit) 0 := by
    rw [List.foldl_map]
    rfl
  have bits : ((List.range 64).reverse.map fun j =>
      ((d2b val).toList.getD j 0).toUInt32.toUInt64).map UInt64.toNat =
        (List.range 64).reverse.map fun j => val.toNat / 2 ^ j % 2 := by
    rw [List.map_map]
    refine List.map_congr_left fun j member => ?_
    have within : j < 64 := by simpa using member
    have bit : val.toNat / 2 ^ j % 2 < 2 := Nat.mod_lt _ (by decide)
    simp only [Function.comp_apply, getD_toList_d2b val within,
      UInt32.toNat_toUInt64, UInt32.toNat_ofNat']
    omega
  apply UInt64.toNat_inj.1
  rw [folded, toNat_foldl_mul_add, bits, show (2 : UInt64).toNat = 2 from rfl,
    BlockCodec.digitsValue_reverse_map_range,
      ← BlockCodec.mod_pow_eq_sum_digits,
    UInt64.toNat_zero, Nat.zero_mul, Nat.zero_add, Nat.mod_mod,
      Nat.mod_eq_of_lt val.toNat_lt]

/-- `b2h` rebuilds from the bits of `d2b` the key `d2h` writes. -/
theorem b2h_d2b (val : UInt64) : b2h (d2b val) = d2h val := by
  suffices bytes : (b2h (d2b val)).bytes =
      (d2h val).bytes from congrArg Key.mk bytes
  apply Vector.ext
  intro j within
  rw [getElem_d2h val j within]
  simp only [b2h, Vector.getElem_ofFn]
  split
  · -- each of the first eight bytes is the numeral of its eight bits
    next low =>
    have bits :
        (List.range 8).reverse.map
          (fun i => (d2b val).toList.getD (8 * j + i) 0) =
        (List.range 8).reverse.map fun i =>
          val.toNat / 2 ^ (8 * j) / 2 ^ i % 2 := by
      refine List.map_congr_left fun i member => ?_
      have inByte : i < 8 := by simpa using member
      rw [getD_toList_d2b val (by omega), Nat.div_div_eq_div_mul, ← Nat.pow_add]
    have folded := BlockCodec.digitsValue_reverse_map_range 2
      (fun i => val.toNat / 2 ^ (8 * j) / 2 ^ i % 2) 8
    rw [← bits, BlockCodec.digitsValue, List.foldl_map,
      ← BlockCodec.mod_pow_eq_sum_digits] at folded
    rw [show (List.range 8).reverse.foldl
        (fun byte i => byte * 2 + (d2b val).toList.getD (8 * j + i) 0) 0 =
          val.toNat / 2 ^ (8 * j) % 2 ^ 8 from folded, Nat.pow_mul]
    norm_num
  · -- past the eighth byte an amount has only zeros
    next high =>
    have beyond : val.toNat < 256 ^ j :=
      Nat.lt_of_lt_of_le val.toNat_lt (by
        rw [show (2 : Nat) ^ 64 = 256 ^ 8 by norm_num]
        exact Nat.pow_le_pow_right (by decide) (by omega))
    rw [Nat.div_eq_of_lt beyond]
    rfl

/-- The first loop of `h2b` for one byte: while the byte is not zero its low
bit goes to place `i`, and `i` moves on.  Returns where `i` stopped. -/
def h2bBits (val i : Nat) (amountb2 : Vector Nat 64) : Nat × Vector Nat 64 :=
  if val ≠ 0
    then h2bBits (val >>> 1) (i + 1) (amountb2.setIfInBounds i (val &&& 1))
  else (i, amountb2)
termination_by val
decreasing_by
  rw [Nat.shiftRight_eq_div_pow, Nat.pow_one]
  omega

/-- The second loop of `h2b` for byte `j`, `while (i < 8 * (j + 1))
amountb2[i] = 0;`: it never moves `i`, so once it starts it does not stop.
It is run for at most `fuel` rounds, and `none` is a run that has not
ended. -/
def h2bPad : Nat → Nat → Nat → Vector Nat 64 → Option (Vector Nat 64)
  | 0, i, j, amountb2 => if i < 8 * (j + 1) then none else some amountb2
  | fuel + 1, i, j, amountb2 =>
    if i < 8 * (j + 1) then h2bPad fuel i j (amountb2.setIfInBounds i 0)
      else some amountb2

/-- `h2b(amountb2, test)`, with at most `fuel` rounds of each padding loop.
(When it returns, every place has been written, so the array it starts from
does not matter.) -/
def h2b (fuel : Nat) (test : Key) : Option (Vector Nat 64) :=
  (List.range 8).foldlM (fun amountb2 j =>
    let (i, amountb2) :=
      h2bBits (test.bytes.toList.getD j 0).toNat (8 * j) amountb2
    h2bPad fuel i j amountb2) (Vector.replicate 64 0)

/-- Once the padding loop starts it runs out of any fuel. -/
theorem h2bPad_of_lt {i j : Nat} (short : i < 8 * (j + 1)) (fuel : Nat)
    (amountb2 : Vector Nat 64) : h2bPad fuel i j amountb2 = none := by
  induction fuel generalizing amountb2 with
  | zero => rw [h2bPad, if_pos short]
  | succ fuel ih => rw [h2bPad, if_pos short, ih]

theorem h2bPad_of_le {i j : Nat} (full : 8 * (j + 1) ≤ i) (fuel : Nat)
    (amountb2 : Vector Nat 64) : h2bPad fuel i j amountb2 = some amountb2 := by
  cases fuel <;> rw [h2bPad, if_neg (by omega)]

/-- A byte below `2^m` moves `i` by at most `m` places. -/
theorem fst_h2bBits_le (val i : Nat) (amountb2 : Vector Nat 64) {m : Nat}
    (below : val < 2 ^ m) : (h2bBits val i amountb2).1 ≤ i + m := by
  fun_induction h2bBits val i amountb2 generalizing m with
  | case1 val i amountb2 nonzero ih =>
    -- the byte has a bit, so `m` is positive and the rest is below `2^(m-1)`
    have positive : m ≠ 0 := by
      rintro rfl
      rw [Nat.pow_zero] at below
      exact nonzero (by omega)
    obtain ⟨m, rfl⟩ : ∃ k, m = k + 1 := ⟨m - 1, by omega⟩
    have rest : val >>> 1 < 2 ^ m := by
      rw [Nat.shiftRight_eq_div_pow, Nat.pow_one,
        Nat.div_lt_iff_lt_mul (by decide), ← Nat.pow_succ]
      exact below
    have := ih rest
    omega
  | case2 => omega

theorem le_fst_h2bBits (val i : Nat) (amountb2 : Vector Nat 64) :
    i ≤ (h2bBits val i amountb2).1 := by
  fun_induction h2bBits val i amountb2 with
  | case1 val i amountb2 nonzero ih => omega
  | case2 => exact le_refl _

/-- A byte of at least `2^m` moves `i` by more than `m` places. -/
theorem lt_fst_h2bBits (val i : Nat) (amountb2 : Vector Nat 64) {m : Nat}
    (above : 2 ^ m ≤ val) : i + m < (h2bBits val i amountb2).1 := by
  fun_induction h2bBits val i amountb2 generalizing m with
  | case1 val i amountb2 nonzero ih =>
    cases m with
    | zero =>
      have := le_fst_h2bBits (val >>> 1) (i + 1)
          (amountb2.setIfInBounds i (val &&& 1))
      omega
    | succ m =>
      have rest : 2 ^ m ≤ val >>> 1 := by
        rw [Nat.shiftRight_eq_div_pow, Nat.pow_one,
          Nat.le_div_iff_mul_le (by decide), ← Nat.pow_succ]
        exact above
      have := ih rest
      omega
  | case2 val i amountb2 zero =>
    have : val = 0 := by simpa using zero
    have := Nat.one_le_two_pow (n := m)
    omega

/-- One round of `h2b` ends exactly when the byte has its top bit set: a
byte below `128` leaves `i` short of the byte's last place. -/
theorem h2bPad_h2bBits_eq_none_iff (fuel j val : Nat) (amountb2 : Vector Nat 64)
    (byte : val < 256) :
    h2bPad fuel (h2bBits val (8 * j) amountb2).1 j
      (h2bBits val (8 * j) amountb2).2 = none ↔ val < 128 := by
  constructor
  · intro stuck
    by_contra high
    have := fst_h2bBits_le val (8 * j) amountb2 (m := 8) byte
    have := lt_fst_h2bBits val (8 * j) amountb2 (m := 7) (by omega)
    rw [h2bPad_of_le (by omega)] at stuck
    cases stuck
  · intro low
    have := fst_h2bBits_le val (8 * j) amountb2 (m := 7) low
    exact h2bPad_of_lt (by omega) fuel _

/-- A monadic fold in `Option` returns exactly when every step does, when
whether a step returns depends on the element only. -/
theorem isSome_foldlM_iff {α β : Type} (f : β → α → Option β) (good : α → Prop)
    (step : ∀ b a, (f b a).isSome ↔ good a) (l : List α) (init : β) :
    (l.foldlM f init).isSome ↔ ∀ a ∈ l, good a := by
  induction l generalizing init with
  | nil => simp
  | cons a rest ih =>
    rw [List.foldlM_cons, List.forall_mem_cons]
    cases stepped : f init a with
    | none =>
      have bad : ¬good a := by simpa [stepped] using step init a
      simp [bad]
    | some b =>
      have isGood : good a := by simpa [stepped] using step init a
      simp only [Option.bind_eq_bind, Option.bind_some]
      rw [ih b]
      exact ⟨fun all => ⟨isGood, all⟩, fun both => both.2⟩

/-- `h2b` returns exactly when each of the first eight bytes of the key has
its top bit set, whatever fuel its padding loops are given. -/
theorem h2b_isSome_iff (fuel : Nat) (test : Key) :
    (h2b fuel test).isSome ↔ ∀ j < 8,
      128 ≤ (test.bytes.toList.getD j 0).toNat := by
  unfold h2b
  rw [isSome_foldlM_iff _ (fun j => 128 ≤ (test.bytes.toList.getD j 0).toNat)]
  · simp
  · intro amountb2 j
    dsimp only
    rw [← Option.ne_none_iff_isSome, Ne,
      h2bPad_h2bBits_eq_none_iff _ _ _ _ (UInt8.toNat_lt _)]
    omega

/-- `h2b` does not return on the key `d2h` writes for the amount `1`: its
first byte is `1`, so the first loop stops at place `1` and the padding loop
of byte `0` never moves on. -/
theorem h2b_never_returns_on_amount_key :
    ∀ fuel : Nat, h2b fuel (d2h 1) = none := by
  intro fuel
  have lowByte : ((d2h 1).bytes.toList.getD 0 0).toNat < 128 := by
    rw [List.getD_eq_getElem?_getD, List.getElem?_eq_getElem (by simp),
      Option.getD_some, Vector.getElem_toList, getElem_d2h 1 0 (by decide)]
    decide
  rw [← Option.not_isSome_iff_eq_none, h2b_isSome_iff]
  intro high
  have := high 0 (by decide)
  omega

/-! ## Commitments -/

section Commitments

variable {Point : Type} [AddCommGroup Point] [Module Scalar Point]
    (curve : Curve Point)

/-- `genC(C, a, amount)`: the commitment `a G + amount H` of an amount written
by `d2h`. -/
def genC (a : Scalar) (amount : UInt64) : Point :=
  addKeys1 curve a (scalarmultH curve (keyToScalar (d2h amount)))

end Commitments

/-! ## Shared secrets -/

section Ecdh

variable {Point : Type} (curve : Curve Point)

/-- `ecdhEncode(unmasked, sharedSec)`: the mask shifted by the hash of the
secret, the amount by the hash of that hash. -/
def ecdhEncode (unmasked : EcdhTuple Scalar Point) (sharedSec : Scalar) :
    EcdhTuple Scalar Point :=
  let sharedSec1 := curve.hashScalar sharedSec
  let sharedSec2 := curve.hashScalar sharedSec1
  { unmasked with
    mask := unmasked.mask + sharedSec1, amount := unmasked.amount + sharedSec2 }

/-- `ecdhDecode(masked, sharedSec)`: the two shifts taken off again. -/
def ecdhDecode (masked : EcdhTuple Scalar Point) (sharedSec : Scalar) :
    EcdhTuple Scalar Point :=
  let sharedSec1 := curve.hashScalar sharedSec
  let sharedSec2 := curve.hashScalar sharedSec1
  { masked with
    mask := masked.mask - sharedSec1, amount := masked.amount - sharedSec2 }

/-- The receiver's decoding undoes the sender's encoding, for every secret. -/
@[simp] theorem ecdhDecode_ecdhEncode (unmasked : EcdhTuple Scalar Point)
    (sharedSec : Scalar) :
    ecdhDecode curve (ecdhEncode curve unmasked sharedSec)
      sharedSec = unmasked := by
  simp [ecdhDecode, ecdhEncode]

end Ecdh

end Rct
end Cryptonote
end Citicash
