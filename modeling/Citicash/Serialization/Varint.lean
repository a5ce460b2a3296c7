import Citicash.Serialization.BinaryArchive
import Mathlib.Tactic.Ring

/-!
# The varint codec

`tools::write_varint` and `tools::read_varint` of `common/varint.h`, as
`writeVarint` and `readVarint` model them.

The reader inverts the writer: on the writer's bytes followed by anything, it
returns the number of bytes written and the value, for every value that fits
the width (`readVarint_writeVarint`).  The converse holds only in part.  A
positive count means either that the bytes read are the writer's bytes for the
value, or that the input ended inside the varint: when the input runs out the
reader returns the bytes read so far as a count, as if the varint had been
complete (`readVarint_positive`).  A truncated varint is then read as a value
whose encoding it is not.  Whatever the input, the value read fits the width
(`readVarint_lt`).

The loader's primitives are then taken on saved bytes (`readString_run`,
`readVector_run`), on what they return (`readString_lt`), and on reading
off the front of the input (`NeverGrows`), which bounds the rounds of a loop
of loads by the length of the input.
-/

namespace Citicash
namespace Serialization

/-- `tools::get_varint_data`: the bytes `write_varint` writes. -/
def getVarintData (value : Nat) : List UInt8 := writeVarint value

/-! ## The writer -/

/-- The writer's round count never runs out before the value does. -/
theorem writeVarintLoop_stable :
    ∀ (fuel other value : Nat), value ≤ fuel → value ≤ other →
      writeVarintLoop fuel value = writeVarintLoop other value := by
  intro fuel
  induction fuel with
  | zero =>
    intro other value belowFuel _
    obtain rfl : value = 0 := by omega
    cases other <;> simp [writeVarintLoop]
  | succ fuel ih =>
    intro other value belowFuel belowOther
    cases other with
    | zero =>
      obtain rfl : value = 0 := by omega
      simp [writeVarintLoop]
    | succ other =>
      simp only [writeVarintLoop]
      split
      · rfl
      · rw [ih other (value / 128) (by omega) (by omega)]

theorem writeVarint_of_lt {value : Nat} (small : value < 128) :
    writeVarint value = [value.toUInt8] := by
  unfold writeVarint
  cases value with
  | zero => rfl
  | succ fuel => simp [writeVarintLoop, small]

theorem writeVarint_of_le {value : Nat} (large : 128 ≤ value) :
    writeVarint value = (value % 128 + 128).toUInt8 ::
      writeVarint (value / 128) := by
  unfold writeVarint
  obtain ⟨fuel, rfl⟩ : ∃ fuel, value = fuel + 1 := ⟨value - 1, by omega⟩
  rw [writeVarintLoop, if_neg (by omega),
    writeVarintLoop_stable fuel ((fuel + 1) / 128) _ (by omega) le_rfl]

theorem toNat_toUInt8_of_lt {value : Nat} (small : value < 256) :
    value.toUInt8.toNat = value := by
  simp [Nat.toUInt8, Nat.mod_eq_of_lt small]

theorem toUInt8_toNat (byte : UInt8) : byte.toNat.toUInt8 = byte :=
    UInt8.ofNat_toNat

theorem writeVarint_ne_nil (value : Nat) : writeVarint value ≠ [] := by
  by_cases small : value < 128
  · simp [writeVarint_of_lt small]
  · simp [writeVarint_of_le (by omega : 128 ≤ value)]

/-- Each byte past the first carries seven more bits of the value. -/
theorem length_writeVarint_le (value : Nat) :
    (writeVarint value).length ≤ value / 128 + 1 := by
  induction value using Nat.strong_induction_on with
  | _ value ih =>
    by_cases small : value < 128
    · simp [writeVarint_of_lt small]
    · have next := ih (value / 128) (by omega)
      rw [writeVarint_of_le (by omega), List.length_cons]
      omega

/-- Placing seven bits above an accumulator that is below `2 ^ shift` adds
them. -/
theorem or_shiftLeft_eq_add {acc shift : Nat}
    (below : acc < 2 ^ shift) (group : Nat) :
    acc ||| group <<< shift = acc + group * 2 ^ shift := by
  rw [Nat.shiftLeft_eq, Nat.or_comm, Nat.mul_comm,
    ← Nat.two_pow_add_eq_or_of_lt below]
  omega

theorem acc_add_group_lt {acc shift group : Nat} (below : acc < 2 ^ shift)
    (small : group < 128) : acc + group * 2 ^ shift < 2 ^ (shift + 7) := by
  have scaled : group * 2 ^ shift ≤ 127 * 2 ^ shift :=
    Nat.mul_le_mul_right _ (by omega)
  rw [Nat.pow_add]
  omega

/-! ## Reading the writer's bytes -/

/-- From position `shift`, the reader takes the writer's bytes for `value`
(nonzero past the first group, and within the width left) and adds
`value * 2 ^ shift` to what it has accumulated. -/
theorem readVarintFrom_writeVarint (bits : Nat)
    (rest : List UInt8) (value : Nat) :
    ∀ shift acc read, (shift ≠ 0 → 0 < value) → value < 2 ^ (bits - shift) →
      acc < 2 ^ shift →
        readVarintFrom bits shift acc read (writeVarint value ++ rest) =
          (read + (writeVarint value).length,
            acc + value * 2 ^ shift, rest) := by
  induction value using Nat.strong_induction_on with
  | _ value ih =>
    intro shift acc read nonzero fits below
    by_cases small : value < 128
    · have byteValue : value.toUInt8.toNat = value :=
        toNat_toUInt8_of_lt (by omega)
      have noOverflow :
          ¬ (shift + 7 ≥ bits ∧ 2 ^ (bits - shift) ≤ value.toUInt8.toNat) := by
        omega
      have canonical : ¬ (value.toUInt8 = 0 ∧ shift ≠ 0) := by
        rintro ⟨zero, later⟩
        have := congrArg UInt8.toNat zero
        simp only [byteValue, UInt8.toNat_zero] at this
        exact absurd (nonzero later) (by omega)
      rw [writeVarint_of_lt small, List.singleton_append, readVarintFrom,
        if_neg noOverflow,
        if_neg canonical, byteValue, if_pos small, Nat.mod_eq_of_lt small,
        or_shiftLeft_eq_add below]
      simp
    · have large : 128 ≤ value := by omega
      have byteValue : (value % 128 + 128).toUInt8.toNat = value % 128 + 128 :=
        toNat_toUInt8_of_lt (by omega)
      have roomLeft : 7 < bits - shift := by
        by_contra tight
        have : 2 ^ (bits - shift) ≤ 2 ^ 7 :=
          Nat.pow_le_pow_right (by norm_num) (by omega)
        omega
      have noOverflow :
          ¬ (shift + 7 ≥ bits ∧ 2 ^ (bits - shift) ≤
            (value % 128 + 128).toUInt8.toNat) := by
        omega
      have canonical : ¬ ((value % 128 + 128).toUInt8 = 0 ∧ shift ≠ 0) := by
        rintro ⟨zero, -⟩
        have := congrArg UInt8.toNat zero
        simp only [byteValue, UInt8.toNat_zero] at this
        omega
      have restFits : value / 128 < 2 ^ (bits - (shift + 7)) := by
        have split : 2 ^ (bits - shift) = 2 ^ (bits - (shift + 7)) * 128 := by
          rw [show bits - shift = bits - (shift + 7) + 7 by omega, Nat.pow_add]
        rw [Nat.div_lt_iff_lt_mul (by norm_num), ← split]
        exact fits
      have group : (value % 128 + 128) % 128 = value % 128 := by omega
      have recombined : value * 2 ^ shift = value % 128 * 2 ^ shift +
          value / 128 * 2 ^ (shift + 7) := by
        conv_lhs => rw [← Nat.mod_add_div value 128]
        rw [Nat.pow_add]
        ring
      rw [writeVarint_of_le large, List.cons_append, readVarintFrom,
        if_neg noOverflow,
        if_neg canonical, byteValue, if_neg (by omega), group,
          or_shiftLeft_eq_add below,
        ih (value / 128) (by omega) (shift + 7) _ (read + 1)
          (fun _ => by omega) restFits
          (acc_add_group_lt below (Nat.mod_lt _ (by norm_num)))]
      simp only [List.length_cons, Nat.cast_add, Nat.cast_one,
        Prod.mk.injEq, and_true]
      constructor
      · ring
      · rw [recombined]
        ring

/-- `read_varint` on the bytes `write_varint` wrote, followed by anything,
returns their number and the value, for every value of the width. -/
theorem readVarint_writeVarint (bits value : Nat) (fits : value < 2 ^ bits)
    (rest : List UInt8) : readVarint bits (writeVarint value ++ rest) =
      (((writeVarint value).length : Int), value, rest) := by
  unfold readVarint
  rw [readVarintFrom_writeVarint bits rest value 0 0 0
    (fun zero => absurd rfl zero) (by simpa using fits) (by norm_num)]
  simp

/-! ## What a positive count means -/

/-- From position `shift`, a count that is not an error code is either the
writer's bytes for some value, added above the accumulator, or the whole
input, all of it continuation bytes. -/
theorem readVarintFrom_cases (bits : Nat) (input : List UInt8) :
    ∀ shift acc read code written rest, 0 ≤ read → acc < 2 ^ shift →
      readVarintFrom bits shift acc read input =
        (code, written, rest) → 0 ≤ code →
          (∃ value, input = writeVarint value ++ rest ∧
            code = read + (writeVarint value).length ∧
              written = acc + value * 2 ^ shift ∧
          (shift ≠ 0 → 0 < value)) ∨
        (rest = [] ∧ (∀ byte ∈ input, 128 ≤ byte.toNat) ∧
          code = read + input.length) := by
  induction input with
  | nil =>
    intro shift acc read code written rest _ _ result _
    simp only [readVarintFrom, Prod.mk.injEq] at result
    obtain ⟨rfl, -, rfl⟩ := result
    right
    simp
  | cons byte input ih =>
    intro shift acc read code written rest nonneg below result valid
    rw [readVarintFrom] at result
    split at result
    · simp only [evarintOverflow, Prod.mk.injEq] at result
      omega
    split at result
    · simp only [evarintRepresent, Prod.mk.injEq] at result
      omega
    rename_i canonical
    have byteBelow := byte.toNat_lt
    rw [or_shiftLeft_eq_add below] at result
    split at result
    · rename_i terminal
      simp only [Prod.mk.injEq] at result
      obtain ⟨rfl, rfl, rfl⟩ := result
      left
      refine ⟨byte.toNat, ?_, ?_, ?_, ?_⟩
      · rw [writeVarint_of_lt terminal, toUInt8_toNat]
        rfl
      · rw [writeVarint_of_lt terminal]
        simp
      · rw [Nat.mod_eq_of_lt terminal]
      · intro later
        by_contra zero
        exact canonical ⟨UInt8.toNat_inj.1 (by simp; omega), later⟩
    · rename_i continued
      rcases ih (shift + 7) _ (read + 1) code written rest (by omega)
          (acc_add_group_lt below (Nat.mod_lt _ (by norm_num)))
            result valid with
        ⟨value, rfl, rfl, rfl, nonzero⟩ | ⟨rfl, continuation, rfl⟩
      · left
        have large : 128 ≤ byte.toNat % 128 + 128 * value := by
          have := nonzero (by omega)
          omega
        have byteBack : (byte.toNat % 128 + 128 * value) % 128 + 128 =
            byte.toNat := by omega
        refine ⟨byte.toNat % 128 + 128 * value, ?_, ?_, ?_, fun _ => by omega⟩
        · rw [writeVarint_of_le large, byteBack, toUInt8_toNat,
            show (byte.toNat % 128 + 128 * value) / 128 = value by omega]
          rfl
        · rw [writeVarint_of_le large,
            show (byte.toNat % 128 + 128 * value) / 128 = value by omega]
          simp only [List.length_cons, Nat.cast_add, Nat.cast_one]
          ring
        · rw [Nat.pow_add]
          ring
      · right
        refine ⟨rfl,
          ?_, by simp only [List.length_cons, Nat.cast_add, Nat.cast_one]; ring⟩
        intro other mem
        rcases List.mem_cons.1 mem with rfl | later
        · omega
        · exact continuation other later

/-- A positive count from `read_varint` means one of two things: the bytes
read are the writer's bytes for the value returned, or the input ran out
inside the varint, every byte of it a continuation byte. -/
theorem readVarint_positive {bits : Nat} {input rest : List UInt8}
    {code : Int} {value : Nat}
    (result : readVarint bits input = (code, value, rest))
    (positive : 0 < code) :
    (input = writeVarint value ++ rest ∧ code = (writeVarint value).length) ∨
      (rest = [] ∧ (∀ byte ∈ input, 128 ≤ byte.toNat) ∧
        code = input.length) := by
  rcases readVarintFrom_cases bits input 0 0 0 code value rest le_rfl
    (by norm_num) result
      (by omega) with ⟨written, rfl, rfl, same, -⟩ | ⟨rfl, continuation, rfl⟩
  · left
    obtain rfl : value = written := by simpa using same
    simp
  · right
    exact ⟨rfl, continuation, by simp⟩

theorem readVarint_positive_on_two_bytes :
    readVarint 64 [0x80, 0x01] = (2, 128, []) ∧ (0 : Int) < 2 ∧
      ((([0x80, 0x01] : List UInt8) = writeVarint 128 ++ [] ∧
        (2 : Int) = (writeVarint 128).length) ∨
          (([] : List UInt8) = [] ∧
          (∀ byte ∈ ([0x80, 0x01] : List UInt8), 128 ≤ byte.toNat) ∧
            (2 : Int) = ([0x80, 0x01] : List UInt8).length)) := by
  have read : readVarint 64 [0x80, 0x01] = (2, 128, []) := by decide
  exact ⟨read, by decide, readVarint_positive read (by decide)⟩

/-- A truncated varint is accepted: for each unsigned width of the source, the
single continuation byte `0x80` is read as a complete one-byte varint of value
0, whose encoding is `0x00`. -/
theorem readVarint_accepts_truncated :
    readVarint 8 [0x80] = (1, 0, []) ∧ readVarint 16 [0x80] = (1, 0, []) ∧
      readVarint 32 [0x80] = (1, 0, []) ∧ readVarint 64 [0x80] = (1, 0, []) ∧
      writeVarint 0 = [0] := by
  decide

/-! ## The value fits the width -/

/-- Whatever the input, the reader's value stays below `2 ^ bits`: a group
that would pass the width is the overflow error, and past the width only a
zero byte is not one, which is the non-canonical error.  The accumulator is
below `2 ^ shift` while the shift is within the width. -/
theorem readVarintFrom_lt (bits : Nat) (input : List UInt8) :
    ∀ shift acc read, acc < 2 ^ bits → (shift ≤ bits → acc < 2 ^ shift) →
      (readVarintFrom bits shift acc read input).2.1 < 2 ^ bits := by
  induction input with
  | nil =>
    intro shift acc read fits _
    simpa [readVarintFrom] using fits
  | cons byte input ih =>
    intro shift acc read fits below
    rw [readVarintFrom]
    split
    · exact fits
    split
    · exact fits
    rename_i noOverflow canonical
    -- past the width the byte is zero, which the test above has refused
    have within : shift ≤ bits := by
      by_contra past
      have : byte.toNat < 1 := by
        have := not_and.1 noOverflow (by omega)
        rwa [show bits - shift = 0 by omega, Nat.pow_zero, not_le] at this
      exact canonical ⟨UInt8.toNat_inj.1 (by simp; omega), by omega⟩
    have group : byte.toNat % 128 < 128 := Nat.mod_lt _ (by norm_num)
    have grown : acc + byte.toNat % 128 * 2 ^ shift < 2 ^ bits ∧
        (shift + 7 ≤ bits → acc + byte.toNat % 128 * 2 ^ shift <
          2 ^ (shift + 7)) := by
      have step := acc_add_group_lt (below within) group
      by_cases roomy : shift + 7 < bits
      · exact ⟨lt_of_lt_of_le step
          (Nat.pow_le_pow_right (by norm_num) (by omega)), fun _ => step⟩
      · -- the last group: the byte is below what the width leaves
        have small : byte.toNat < 2 ^ (bits - shift) := by
          have := not_and.1 noOverflow (by omega)
          omega
        have whole : 2 ^ (bits - shift) * 2 ^ shift = 2 ^ bits := by
          rw [← Nat.pow_add, Nat.sub_add_cancel within]
        have scaled : (byte.toNat % 128 + 1) * 2 ^ shift ≤
            2 ^ (bits - shift) * 2 ^ shift :=
          Nat.mul_le_mul_right _ (by omega)
        rw [Nat.add_one_mul] at scaled
        have last : acc + byte.toNat % 128 * 2 ^ shift < 2 ^ bits := by
          have := below within
          omega
        exact ⟨last, fun tight => by rwa [show shift + 7 = bits by omega]⟩
    rw [or_shiftLeft_eq_add (below within)]
    split
    · exact grown.1
    · exact ih (shift + 7) _ (read + 1) grown.1 grown.2

theorem readVarint_lt (bits : Nat) (input : List UInt8) :
    (readVarint bits input).2.1 < 2 ^ bits :=
  readVarintFrom_lt bits input 0 0 0 (Nat.two_pow_pos bits) fun _ => by norm_num

/-! ## The loader on saved bytes -/

section Loader

variable (rest : List UInt8)

theorem serializeBlob_run (bytes : List UInt8) :
    (serializeBlob bytes.length).run (bytes ++ rest) = some (bytes, rest) := by
  simp [serializeBlob, StateT.run]

theorem serializeKey_run (key : Cryptonote.Key) :
    serializeKey.run (writeKey key ++ rest) = some (key, rest) := by
  have length : (writeKey key).length = 32 := by simp [writeKey]
  have blob := serializeBlob_run rest (writeKey key)
  rw [length] at blob
  simp only [serializeKey, StateT.run_bind, blob, Option.bind_eq_bind,
    Option.bind_some]
  rw [dif_pos length]
  rfl

theorem serializeVarint_run {value : Nat} (fits : value < 2 ^ 64) :
    (serializeVarint 64).run (writeVarint value ++ rest) =
      some (value, rest) := by
  simp only [serializeVarint, StateT.run,
    readVarint_writeVarint 64 value fits rest]

theorem serializeVarint_run_of_lt {bits value : Nat} (fits : value < 2 ^ bits) :
    (serializeVarint bits).run (writeVarint value ++ rest) =
      some (value, rest) := by
  simp only [serializeVarint, StateT.run,
    readVarint_writeVarint bits value fits rest]

theorem serializeUint_run (width value : Nat) :
    (serializeUint width).run (writeUint width value ++ rest) =
      some (value % 256 ^ width, rest) := by
  induction width generalizing value with
  | zero => simp [serializeUint, writeUint, Nat.mod_one]
  | succ width ih =>
    have high := ih (value / 256)
    rw [StateT.run] at high
    simp only [serializeUint, writeUint, List.cons_append, StateT.run_bind,
      Option.bind_eq_bind]
    simp only [getByte, StateT.run, Option.bind_some, pure, StateT.pure, high]
    -- the low byte, then the high bytes of `value / 256`
    rw [toNat_toUInt8_of_lt (Nat.mod_lt _ (by norm_num)),
      Nat.pow_succ', Nat.mod_mul]

/-- The writer's bytes followed by anything give back the value and the rest:
read them at a width both values fit. -/
theorem writeVarint_append_inj {value value' : Nat} {rest' : List UInt8}
    (same : writeVarint value ++ rest = writeVarint value' ++ rest') :
    value = value' ∧ rest = rest' := by
  have fits : value < 2 ^ (value + value') :=
    lt_of_lt_of_le Nat.lt_two_pow_self
      (Nat.pow_le_pow_right (by norm_num) (by omega))
  have fits' : value' < 2 ^ (value + value') :=
    lt_of_lt_of_le Nat.lt_two_pow_self
      (Nat.pow_le_pow_right (by norm_num) (by omega))
  have read := congrArg (readVarint (value + value')) same
  rw [readVarint_writeVarint _ _ fits, readVarint_writeVarint _ _ fits'] at read
  simp only [Prod.mk.injEq] at read
  exact read.2

theorem writeVarint_injective : Function.Injective writeVarint :=
  fun value value' same =>
  (@writeVarint_append_inj [] value value' []
    (by rw [List.append_nil, List.append_nil, same])).1

theorem writeString_injective : Function.Injective writeString :=
  fun bytes _ same =>
  (writeVarint_append_inj bytes same).2

theorem readString_run (bytes : List UInt8) (fits : bytes.length < 2 ^ 64) :
    readString.run (writeString bytes ++ rest) = some (bytes, rest) := by
  rw [writeString, List.append_assoc]
  simp only [readString, StateT.run_bind, serializeVarint_run _ fits,
    Option.bind_eq_bind, Option.bind_some]
  simp only [remainingBytes, StateT.run, List.length_append, Option.bind_some]
  rw [if_neg (by omega)]
  exact serializeBlob_run rest bytes

theorem readCount_run {element : Reader α} {write : α → List UInt8}
    (inverse : ∀ value rest, element.run (write value ++ rest) =
      some (value, rest)) (values : List α) :
    (readCount element values.length).run (values.flatMap write ++ rest) =
      some (values, rest) := by
  induction values with
  | nil => rfl
  | cons value values ih =>
    rw [List.flatMap_cons, List.append_assoc, List.length_cons]
    simp only [readCount, StateT.run_bind, inverse, ih, Option.bind_eq_bind,
      Option.bind_some]
    rfl

theorem readVector_run {element : Reader α} {write : α → List UInt8}
    (inverse : ∀ value rest, element.run (write value ++ rest) =
      some (value, rest)) (values : List α)
    (fits : values.length < 2 ^ 64)
    (covers : values.length ≤ (values.flatMap write).length) :
    (readVector element).run
      (writeVarint values.length ++ values.flatMap write ++ rest) =
        some (values, rest) := by
  rw [List.append_assoc]
  simp only [readVector, StateT.run_bind, serializeVarint_run _ fits,
    Option.bind_eq_bind, Option.bind_some]
  simp only [remainingBytes, StateT.run, List.length_append, Option.bind_some]
  rw [if_neg (by omega)]
  exact readCount_run rest inverse values

end Loader

/-! ## What the loader returns -/

theorem serializeVarint_lt {input rest : List UInt8} {value : Nat}
    (read : (serializeVarint 64).run input = some (value, rest)) :
    value < 2 ^ 64 := by
  simp only [serializeVarint, StateT.run, Option.some.injEq,
    Prod.mk.injEq] at read
  exact read.1 ▸ readVarint_lt 64 input

theorem serializeBlob_spec {len : Nat} {input bytes rest : List UInt8}
    (read : (serializeBlob len).run input = some (bytes, rest)) :
    bytes.length = len ∧ input = bytes ++ rest := by
  simp only [StateT.run, serializeBlob] at read
  split at read
  · simp only [Option.some.injEq, Prod.mk.injEq] at read
    rw [← read.1, ← read.2]
    exact ⟨List.length_take_of_le ‹_›, (List.take_append_drop len input).symm⟩
  · cases read

theorem readCount_length {element : Reader α} :
    ∀ count {input values rest}, (readCount element count).run input =
      some (values, rest) → values.length = count
  | 0, input, values, rest, read => by
    simp only [readCount, StateT.run_pure, Option.pure_def, Option.some.injEq,
      Prod.mk.injEq] at read
    simp [← read.1]
  | count + 1, input, values, rest, read => by
    simp only [readCount, StateT.run_bind, Option.bind_eq_bind,
      Option.bind_eq_some_iff] at read
    obtain ⟨⟨head, left⟩, -, ⟨tail, left'⟩, readTail, done⟩ := read
    simp only [StateT.run_pure, Option.pure_def, Option.some.injEq,
      Prod.mk.injEq] at done
    rw [← done.1, List.length_cons, readCount_length count readTail]

theorem readString_lt {input bytes rest : List UInt8}
    (read : readString.run input = some (bytes, rest)) :
    bytes.length < 2 ^ 64 := by
  simp only [readString, StateT.run_bind, Option.bind_eq_bind,
    Option.bind_eq_some_iff] at read
  obtain ⟨⟨size, left⟩, sized, ⟨remaining, left'⟩, -, blob⟩ := read
  split at blob
  · cases blob
  · rw [(serializeBlob_spec blob).1]
    exact serializeVarint_lt sized

theorem readVector_lt {element : Reader α} {input : List UInt8}
    {values : List α} {rest : List UInt8}
    (read : (readVector element).run input = some (values, rest)) :
    values.length < 2 ^ 64 := by
  simp only [readVector, StateT.run_bind, Option.bind_eq_bind,
    Option.bind_eq_some_iff] at read
  obtain ⟨⟨count, left⟩, counted, ⟨remaining, left'⟩, -, elements⟩ := read
  split at elements
  · cases elements
  · rw [readCount_length count elements]
    exact serializeVarint_lt counted

/-! ## Loaders read off the front of the input -/

/-- A loader that reads its value off the front of its input: what it leaves
is never longer than what it was given. -/
def NeverGrows (reader : Reader α) : Prop :=
  ∀ input value rest, reader.run input = some (value, rest) →
    rest.length ≤ input.length

namespace NeverGrows

theorem pure (value : α) : NeverGrows (Pure.pure value : Reader α) := by
  intro input _ rest read
  simp only [StateT.run_pure, Option.pure_def, Option.some.injEq,
    Prod.mk.injEq] at read
  rw [← read.2]

theorem bind {first : Reader α} {next : α → Reader β}
    (firstGrows : NeverGrows first)
    (nextGrows : ∀ value, NeverGrows (next value)) :
    NeverGrows (first >>= next) := by
  intro input value rest read
  simp only [StateT.run_bind, Option.bind_eq_bind,
    Option.bind_eq_some_iff] at read
  obtain ⟨⟨middle, left⟩, readFirst, readNext⟩ := read
  exact le_trans (nextGrows middle left value rest readNext)
    (firstGrows input middle left readFirst)

theorem map (f : α → β) {reader : Reader α} (grows : NeverGrows reader) :
    NeverGrows (f <$> reader) := by
  intro input value rest read
  rw [StateT.run_map] at read
  cases run : reader.run input with
  | none => simp [run] at read
  | some result =>
    simp only [run, Option.map_eq_map, Option.map_some, Option.some.injEq,
      Prod.mk.injEq] at read
    exact read.2 ▸ grows input result.1 result.2 run

theorem failStream : NeverGrows (Serialization.failStream : Reader α) := by
  intro input value rest read
  cases read

end NeverGrows

theorem getByte_shrinks {input rest : List UInt8} {byte : UInt8}
    (read : getByte.run input = some (byte, rest)) :
    rest.length < input.length := by
  cases input with
  | nil => cases read
  | cons first input =>
    simp only [StateT.run, getByte, Option.some.injEq, Prod.mk.injEq] at read
    simp [← read.2]

theorem getByte_neverGrows : NeverGrows getByte :=
  fun _ _ _ read => le_of_lt (getByte_shrinks read)

theorem serializeBlob_neverGrows (len : Nat) :
    NeverGrows (serializeBlob len) := by
  intro input value rest read
  simp only [StateT.run, serializeBlob] at read
  split at read
  · simp only [Option.some.injEq, Prod.mk.injEq] at read
    simp [← read.2]
  · cases read

theorem remainingBytes_neverGrows : NeverGrows remainingBytes := by
  intro input value rest read
  simp only [StateT.run, remainingBytes, Option.some.injEq,
    Prod.mk.injEq] at read
  rw [← read.2]

theorem peekEof_neverGrows : NeverGrows peekEof := by
  intro input value rest read
  simp only [StateT.run, peekEof, Option.some.injEq, Prod.mk.injEq] at read
  rw [← read.2]

theorem readVarintFrom_rest_length (bits : Nat) (input : List UInt8) :
    ∀ shift acc read, (readVarintFrom bits shift acc read input).2.2.length ≤
      input.length := by
  induction input with
  | nil => intro shift acc read; simp [readVarintFrom]
  | cons byte input ih =>
    intro shift acc read
    rw [readVarintFrom]
    split
    · simp
    split
    · simp
    split
    · simp
    · exact le_trans (ih _ _ _) (by simp)

theorem serializeVarint_neverGrows (bits : Nat) :
    NeverGrows (serializeVarint bits) := by
  intro input value rest read
  simp only [StateT.run, serializeVarint, Option.some.injEq,
    Prod.mk.injEq] at read
  rw [← read.2]
  exact readVarintFrom_rest_length bits input 0 0 0

theorem serializeKey_neverGrows : NeverGrows serializeKey :=
  .bind (serializeBlob_neverGrows 32) fun bytes => by
    split
    · exact .pure _
    · exact .failStream

theorem readCount_neverGrows {element : Reader α} (grows : NeverGrows element) :
    ∀ count, NeverGrows (readCount element count)
  | 0 => .pure []
  | count + 1 =>
      .bind grows fun _ => .bind (readCount_neverGrows grows count)
        fun _ => .pure _

theorem readVector_neverGrows {element : Reader α}
    (grows : NeverGrows element) : NeverGrows (readVector element) :=
  .bind (serializeVarint_neverGrows 64) fun count =>
    .bind remainingBytes_neverGrows fun remaining => by
    split
    · exact .failStream
    · exact readCount_neverGrows grows count

theorem readString_neverGrows : NeverGrows readString :=
  .bind (serializeVarint_neverGrows 64) fun size =>
    .bind remainingBytes_neverGrows fun remaining => by
    split
    · exact .failStream
    · exact serializeBlob_neverGrows size

end Serialization
end Citicash
