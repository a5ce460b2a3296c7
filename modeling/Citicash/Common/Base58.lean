import Citicash.Lib.BlockCodec
import Citicash.Serialization.Varint
import Citicash.CryptonoteCore.ProofOfWork

/-!
# Base58 in blocks

`tools::base58` of `common/base58.cpp`: the data is cut into blocks of eight
bytes and a shorter last block; each block, read as a big-endian number, is
written in base 58 with the fixed number of letters `encoded_block_sizes`
gives its length, padded with the first letter.  The decoder reads each block
of letters back, refusing letters outside the alphabet, sums that leave 64
bits, and values too large for the block's byte count.

Both block directions are the fixed-width numerals of `BlockCodec`, so a block
decodes to the bytes it was encoded from (`decodeBlock_encodeBlock`), and a
block of letters that decodes at all is the encoding of what it decodes to
(`encodeBlock_of_decodeBlock`).  Joined over the blocks this makes `encode`
and `decode` inverse on every byte string and on every accepted string, and
the address layer, a varint tag and a four-byte checksum of
`cn_fast_hash`, returns the tag and the data it was given
(`decode_encode`, `encode_of_decode`, `decodeAddr_encodeAddr`).
-/

namespace Citicash
namespace Base58

open Cryptonote CryptonoteCore Serialization BlockCodec

/-! ## The tables -/

def alphabet : List Char :=
  "123456789ABCDEFGHJKLMNPQRSTUVWXYZabcdefghijkmnopqrstuvwxyz".toList

/-- `alphabet_size`. -/
def alphabetSize : Nat := alphabet.length

def encodedBlockSizes : List Nat := [0, 2, 3, 5, 6, 7, 9, 10, 11]

/-- `full_block_size`: the last index of `encoded_block_sizes`. -/
def fullBlockSize : Nat := encodedBlockSizes.length - 1

/-- `full_encoded_block_size`. -/
def fullEncodedBlockSize : Nat := encodedBlockSizes.getD fullBlockSize 0

def addrChecksumSize : Nat := 4

/-- `reverse_alphabet::instance(letter)`: the letter's place in the alphabet,
or `-1`. -/
def reverseAlphabet (letter : Char) : Int :=
  match alphabet.idxOf? letter with
  | some i => i
  | none => -1

/-- `decoded_block_sizes::instance(encoded_block_size)`: the block length whose
encoding has `encoded_block_size` letters, or `-1`. -/
def decodedBlockSizes (encodedBlockSize : Nat) : Int :=
  match encodedBlockSizes.idxOf? encodedBlockSize with
  | some i => i
  | none => -1

/-! ## Big-endian words -/

/-- `uint_8be_to_64`: up to eight bytes, big-endian; each case of the switch
shifts the word one byte up and ors the next byte in. -/
def uint8beTo64 (data : List UInt8) : UInt64 :=
  data.foldl (fun res byte => res <<< 8 ||| byte.toUInt64) 0

/-- `uint_64_to_8be`: the last `size` bytes of `num` stored big-endian
(`SWAP64BE`). -/
def uint64To8be (num : UInt64) (size : Nat) : List UInt8 :=
  ((List.range 8).reverse.map fun j =>
    (num >>> (8 * j).toUInt64).toUInt8).drop (8 - size)

/-! ## Blocks -/

/-- The loop of `encode_block`: the digits of `num`, lowest first, written into
`res` from position `i` leftwards.  (`i` is an `int` in the source; it never
goes below zero for a block's number, which has at most as many digits as the
block has letters.) -/
def encodeBlockLoop (num : UInt64) (i : Nat) (res : List Char) : List Char :=
  if 0 < num then
    let remainder := num % alphabetSize.toUInt64
    encodeBlockLoop (num / alphabetSize.toUInt64) (i - 1)
      (res.set i (alphabet.getD remainder.toNat '1'))
  else res
termination_by num.toNat
decreasing_by
  have positive : 0 < num.toNat := ‹0 < num›
  rw [UInt64.toNat_div]
  exact Nat.div_lt_self positive (by decide)

/-- `encode_block(block, size, res)`: `res` is the block's part of the output,
filled with the first letter. -/
def encodeBlock (block : List UInt8) (res : List Char) : List Char :=
  let num := uint8beTo64 block
  encodeBlockLoop num (encodedBlockSizes.getD block.length 0 - 1) res

/-- One round of the loop of `decode_block`, from the last letter to the
first: the letter's digit times `order` is added to `res_num`, unless the
letter is not in the alphabet or the sum leaves 64 bits; a refused round ends
the loop. -/
def decodeStep (letter : Char) :
    Option (UInt64 × UInt64) → Option (UInt64 × UInt64)
  | none => none
  | some (resNum, order) =>
    let digit := reverseAlphabet letter
    if digit < 0 then none
    else
      let (product, productHi) := mul128 order (UInt64.ofNat digit.toNat)
      let tmp := resNum + product
      if tmp < resNum || productHi ≠ 0 then none
      else some (tmp, order * alphabetSize.toUInt64)

/-- `decode_block(block, size, res)`: the bytes it writes, or `none` where it
returns false. -/
def decodeBlock (block : List Char) : Option (List UInt8) :=
  let resSize := decodedBlockSizes block.length
  if resSize ≤ 0 then none
  else
    match block.foldr decodeStep (some (0, 1)) with
    | none => none
    | some (resNum, _) =>
      if resSize.toNat < fullBlockSize &&
        (1 : UInt64) <<< (8 * resSize.toNat).toUInt64 ≤ resNum then
        none
      else some (uint64To8be resNum resSize.toNat)

/-! ## Strings -/

/-- `encode(data)`: each block encoded into its own part of a string of the
first letter. -/
def encode (data : List UInt8) : List Char :=
  if data.isEmpty then []
  else
    let fullBlockCount := data.length / fullBlockSize
    let lastBlockSize := data.length % fullBlockSize
    let fullBlocks := (List.range fullBlockCount).flatMap fun i =>
      encodeBlock ((data.drop (i * fullBlockSize)).take fullBlockSize)
        (List.replicate fullEncodedBlockSize (alphabet.getD 0 '1'))
    let lastBlock :=
      if 0 < lastBlockSize then
        encodeBlock (data.drop (fullBlockCount * fullBlockSize))
          (List.replicate (encodedBlockSizes.getD lastBlockSize 0)
            (alphabet.getD 0 '1'))
      else []
    fullBlocks ++ lastBlock

/-- `decode(enc, data)`: the bytes, or `none` where it returns false. -/
def decode (enc : List Char) : Option (List UInt8) :=
  if enc.isEmpty then some []
  else
    let fullBlockCount := enc.length / fullEncodedBlockSize
    let lastBlockSize := enc.length % fullEncodedBlockSize
    let lastBlockDecodedSize := decodedBlockSizes lastBlockSize
    if lastBlockDecodedSize < 0 then none
    else do
      let fullBlocks ← (List.range fullBlockCount).mapM fun i =>
        decodeBlock
          ((enc.drop (i * fullEncodedBlockSize)).take fullEncodedBlockSize)
      let lastBlock ←
        if 0 < lastBlockSize
          then decodeBlock (enc.drop (fullBlockCount * fullEncodedBlockSize))
        else some []
      pure (fullBlocks.flatten ++ lastBlock)

/-! ## Addresses -/

section Address

variable (cnFastHash : List UInt8 → Hash)

/-- `encode_addr(tag, data)`: the tag as a varint and the data, then the first
four bytes of their `cn_fast_hash`, encoded. -/
def encodeAddr (tag : UInt64) (data : List UInt8) : List Char :=
  let buf := getVarintData tag.toNat ++ data
  let hash := cnFastHash buf
  encode (buf ++ hash.bytes.toList.take addrChecksumSize)

/-- `decode_addr(addr, tag, data)`: the tag and the data, or `none` where it
returns false. -/
def decodeAddr (addr : List Char) : Option (UInt64 × List UInt8) := do
  let addrData ← decode addr
  if addrData.length ≤ addrChecksumSize then none
  else
    let checksum := addrData.drop (addrData.length - addrChecksumSize)
    let addrData := addrData.take (addrData.length - addrChecksumSize)
    let hash := cnFastHash addrData
    let expectedChecksum := hash.bytes.toList.take addrChecksumSize
    if expectedChecksum ≠ checksum then none
    else
      let (read, tag, _) := readVarint 64 addrData
      if read ≤ 0 then none
      else some (UInt64.ofNat tag, addrData.drop read.toNat)

end Address

/-! ## The tables, evaluated -/

theorem fullBlockSize_eq : fullBlockSize = 8 := rfl

theorem fullEncodedBlockSize_eq : fullEncodedBlockSize = 11 := rfl

theorem firstLetter_eq : alphabet.getD 0 '1' = '1' := rfl

/-- The letters are distinct: each is found at its own place. -/
theorem reverseAlphabet_getD {digit : Nat} (small : digit < 58) :
    reverseAlphabet (alphabet.getD digit '1') = digit := by
  have table : ∀ digit : Fin 58, reverseAlphabet (alphabet.getD digit '1') =
      (digit : Nat) := by
    decide
  exact table ⟨digit, small⟩

/-- A letter the table knows is the alphabet's letter at its place. -/
theorem getD_reverseAlphabet {letter : Char}
    (known : 0 ≤ reverseAlphabet letter) :
    (reverseAlphabet letter).toNat < 58 ∧
      alphabet.getD (reverseAlphabet letter).toNat '1' = letter := by
  unfold reverseAlphabet at known ⊢
  cases found : alphabet.idxOf? letter with
  | none => simp [found] at known
  | some place =>
    obtain ⟨within, atPlace, -⟩ := List.idxOf?_eq_some_iff.1 found
    simp only [Int.toNat_natCast]
    exact ⟨within, by rw [List.getD_eq_getElem?_getD,
      List.getElem?_eq_getElem within, atPlace]; rfl⟩

/-- What the two block tables say of the eight block lengths. -/
theorem encodedBlockSizes_spec {size : Nat} (nonempty : 0 < size)
    (short : size ≤ 8) :
    decodedBlockSizes (encodedBlockSizes.getD size 0) = size ∧
      0 < encodedBlockSizes.getD size 0 ∧ encodedBlockSizes.getD size 0 ≤ 11 ∧
      256 ^ size ≤ 58 ^ encodedBlockSizes.getD size 0 := by
  have table : ∀ size < 9, 0 < size →
      decodedBlockSizes (encodedBlockSizes.getD size 0) = size ∧
        0 < encodedBlockSizes.getD size 0 ∧ encodedBlockSizes.getD size 0 ≤ 11 ∧
        256 ^ size ≤ 58 ^ encodedBlockSizes.getD size 0 := by
    decide
  exact table size (by omega) nonempty

/-- A letter count the decoder accepts is the encoded length of its block
length. -/
theorem decodedBlockSizes_spec {letters : Nat}
    (known : 0 ≤ decodedBlockSizes letters) :
    letters ≤ 11 ∧ (decodedBlockSizes letters).toNat ≤ 8 ∧
      encodedBlockSizes.getD (decodedBlockSizes letters).toNat 0 = letters ∧
      (letters < 11 → (decodedBlockSizes letters).toNat < 8) := by
  by_cases small : letters < 12
  · have table : ∀ letters < 12, 0 ≤ decodedBlockSizes letters →
        letters ≤ 11 ∧ (decodedBlockSizes letters).toNat ≤ 8 ∧
          encodedBlockSizes.getD (decodedBlockSizes letters).toNat 0 = letters ∧
          (letters < 11 → (decodedBlockSizes letters).toNat < 8) := by
      decide
    exact table letters small known
  · -- past the table the length is no block's
    have missing : encodedBlockSizes.idxOf? letters = none :=
      List.idxOf?_eq_none_iff.2 (by simp [encodedBlockSizes]; omega)
    simp [decodedBlockSizes, missing] at known

/-! ## Big-endian words -/

theorem toNat_shiftLeft_or_byte (word : UInt64) (byte : UInt8)
    (small : word.toNat < 2 ^ 56) :
    (word <<< 8 ||| byte.toUInt64).toNat = word.toNat * 256 + byte.toNat := by
  have shifted : (word <<< 8).toNat = 2 ^ 8 * word.toNat := by
    rw [UInt64.toNat_shiftLeft, Nat.shiftLeft_eq]
    simp only [UInt64.reduceToNat, Nat.reduceMod]
    omega
  have low : byte.toUInt64.toNat < 2 ^ 8 := by
    rw [UInt8.toNat_toUInt64]
    exact byte.toNat_lt
  rw [UInt64.toNat_or, shifted, ← Nat.two_pow_add_eq_or_of_lt low,
    UInt8.toNat_toUInt64]
  ring

theorem toNat_uint8beTo64 {data : List UInt8} (short : data.length ≤ 8) :
    (uint8beTo64 data).toNat = digitsValue 256 (data.map UInt8.toNat) := by
  induction data using List.reverseRecOn with
  | nil => rfl
  | append_singleton init byte ih =>
    simp only [List.length_append, List.length_singleton] at short
    have earlier := ih (by omega)
    have bytesSmall : ∀ digit ∈ init.map UInt8.toNat, digit < 256 := by
      simp only [List.mem_map]
      rintro _ ⟨byte, -, rfl⟩
      exact byte.toNat_lt
    have below := digitsValue_lt 256 bytesSmall
    have room : 256 ^ (init.map UInt8.toNat).length ≤ 2 ^ 56 := by
      rw [List.length_map, show (2 : Nat) ^ 56 = 256 ^ 7 by norm_num]
      exact Nat.pow_le_pow_right (by decide) (by omega)
    rw [uint8beTo64, List.foldl_append, List.foldl_cons,
      List.foldl_nil, ← uint8beTo64, toNat_shiftLeft_or_byte _ _ (by omega),
      earlier, List.map_append, List.map_singleton,
      digitsValue_append_singleton]

theorem length_uint64To8be (num : UInt64) {size : Nat} (short : size ≤ 8) :
    (uint64To8be num size).length = size := by
  simp only [uint64To8be, List.length_drop, List.length_map,
    List.length_reverse, List.length_range]
  omega

/-- The bytes of a word are its base-256 numeral of the given width. -/
theorem map_toNat_uint64To8be (num : UInt64) {size : Nat} (short : size ≤ 8) :
    (uint64To8be num size).map UInt8.toNat =
      fixedDigits 256 size num.toNat := by
  have eight :
      ((List.range 8).reverse.map fun j =>
        (num >>> (8 * j).toUInt64).toUInt8).map
      UInt8.toNat = fixedDigits 256 8 num.toNat := by
    rw [fixedDigits_eq_map_range, List.map_map]
    refine List.map_congr_left fun j member => ?_
    have small : j < 8 := List.mem_range.1 (List.mem_reverse.1 member)
    have shift : ((8 * j).toUInt64).toNat % 64 = 8 * j := by
      rw [Nat.toUInt64_eq, UInt64.toNat_ofNat']
      omega
    simp only [Function.comp_apply, UInt64.toNat_toUInt8,
      UInt64.toNat_shiftRight, shift, Nat.shiftRight_eq_div_pow, Nat.pow_mul]
  have split := fixedDigits_add 256 (8 - size) size num.toNat
  rw [Nat.sub_add_cancel short] at split
  rw [uint64To8be, List.map_drop, eight, split,
    List.drop_left' (length_fixedDigits 256 (8 - size) _)]

theorem uint64To8be_uint8beTo64 {data : List UInt8} (short : data.length ≤ 8) :
    uint64To8be (uint8beTo64 data) data.length = data := by
  apply List.map_injective_iff.2 (fun _ _ same => UInt8.toNat_inj.1 same)
  have bytesSmall : ∀ digit ∈ data.map UInt8.toNat, digit < 256 := by
    simp only [List.mem_map]
    rintro _ ⟨byte, -, rfl⟩
    exact byte.toNat_lt
  rw [map_toNat_uint64To8be _ short, toNat_uint8beTo64 short,
    ← List.length_map (f := UInt8.toNat),
      fixedDigits_digitsValue 256 bytesSmall]

theorem uint8beTo64_uint64To8be {num : UInt64} {size : Nat} (short : size ≤ 8)
    (fits : num.toNat < 256 ^ size) :
    uint8beTo64 (uint64To8be num size) = num := by
  apply UInt64.toNat_inj.1
  rw [toNat_uint8beTo64 (by rw [length_uint64To8be _ short]; exact short),
    map_toNat_uint64To8be _ short, digitsValue_fixedDigits,
      Nat.mod_eq_of_lt fits]

/-! ## Encoding a block -/

/-- The letters of a numeral in base 58. -/
def letters (digits : List Nat) : List Char :=
  digits.map fun digit => alphabet.getD digit '1'

theorem set_replicate_append {α : Type} (width : Nat) (filler letter : α)
    (suffix : List α) :
    (List.replicate (width + 1) filler ++ suffix).set width letter =
      List.replicate width filler ++ letter :: suffix := by
  rw [List.replicate_succ', List.append_assoc,
    List.set_append_right _ _ (by simp)]
  simp

/-- The loop writes the number's numeral over the padding, right-aligned at
`i`. -/
theorem encodeBlockLoop_eq {num : UInt64} {i : Nat} {res : List Char}
    (suffix : List Char)
    (padded : res = List.replicate (i + 1) (alphabet.getD 0 '1') ++ suffix)
    (fits : num.toNat < 58 ^ (i + 1)) :
    encodeBlockLoop num i res =
      letters (fixedDigits 58 (i + 1) num.toNat) ++ suffix := by
  induction num, i, res using encodeBlockLoop.induct generalizing suffix with
  | case1 num i res positive remainder ih =>
    have digit : (num % alphabetSize.toUInt64).toNat = num.toNat % 58 := by
      rw [UInt64.toNat_mod]
      rfl
    have rest : (num / alphabetSize.toUInt64).toNat = num.toNat / 58 := by
      rw [UInt64.toNat_div]
      rfl
    rw [encodeBlockLoop, if_pos positive]
    dsimp only
    cases i with
    | zero =>
      -- one letter left: the rest of the number is zero
      have done : num / alphabetSize.toUInt64 = 0 := by
        apply UInt64.toNat_inj.1
        rw [rest]
        simp only [Nat.zero_add, Nat.pow_one] at fits
        simp [Nat.div_eq_of_lt fits]
      rw [done, encodeBlockLoop, if_neg (by decide), padded,
        set_replicate_append, digit]
      simp [letters, fixedDigits_succ]
    | succ i =>
      rw [Nat.add_sub_cancel]
      calc _ = letters
             (fixedDigits 58 (i + 1) (num / alphabetSize.toUInt64).toNat) ++
            (alphabet.getD (num % alphabetSize.toUInt64).toNat '1' :: suffix) :=
          ih _ (by rw [padded, set_replicate_append]; rfl)
            (by rw [rest, Nat.div_lt_iff_lt_mul (by decide),
              ← Nat.pow_succ]; exact fits)
        _ = _ := by
          rw [fixedDigits_succ 58 (i + 1), rest, digit]
          simp [letters]
  | case2 num i res zero =>
    have zero : num = 0 := by
      rcases Nat.eq_zero_or_pos num.toNat with zero | positive
      · exact UInt64.toNat_inj.1 zero
      · exact absurd positive zero
    rw [encodeBlockLoop, if_neg (by simp [zero]), padded, zero,
      UInt64.toNat_zero, fixedDigits_of_zero]
    simp [letters]

/-- A block is encoded as its number's numeral with the letter count of its
length. -/
theorem encodeBlock_eq {block : List UInt8} (nonempty : 0 < block.length)
    (short : block.length ≤ 8) :
    encodeBlock block
      (List.replicate (encodedBlockSizes.getD block.length 0)
        (alphabet.getD 0 '1')) =
      letters (fixedDigits 58 (encodedBlockSizes.getD block.length 0)
        (digitsValue 256 (block.map UInt8.toNat))) := by
  obtain ⟨-, positive, -, room⟩ := encodedBlockSizes_spec nonempty short
  have bytesSmall : ∀ digit ∈ block.map UInt8.toNat, digit < 256 := by
    simp only [List.mem_map]
    rintro _ ⟨byte, -, rfl⟩
    exact byte.toNat_lt
  have below := digitsValue_lt 256 bytesSmall
  rw [List.length_map] at below
  have width : encodedBlockSizes.getD block.length 0 - 1 + 1 =
      encodedBlockSizes.getD block.length 0 := Nat.sub_add_cancel positive
  rw [encodeBlock, encodeBlockLoop_eq [] (by rw [width, List.append_nil])
    (by rw [width, toNat_uint8beTo64 short]; omega), width,
      toNat_uint8beTo64 short,
    List.append_nil]

/-! ## Decoding a block -/

/-- One round of the decoder adds the letter's digit times the order, exactly,
or refuses. -/
theorem decodeStep_some (letter : Char) (resNum order : UInt64) :
    decodeStep letter (some (resNum, order)) =
      if 0 ≤ reverseAlphabet letter ∧
          resNum.toNat + order.toNat *
            (reverseAlphabet letter).toNat < 2 ^ 64 then
        some
          (UInt64.ofNat
            (resNum.toNat + order.toNat *
              (reverseAlphabet letter).toNat), order * 58)
      else none := by
  by_cases known : 0 ≤ reverseAlphabet letter
  · obtain ⟨digitSmall, -⟩ := getD_reverseAlphabet known
    have digit : (UInt64.ofNat (reverseAlphabet letter).toNat).toNat =
        (reverseAlphabet letter).toNat := by
      rw [UInt64.toNat_ofNat']
      omega
    have productBelow : order.toNat * (reverseAlphabet letter).toNat <
        2 ^ 64 * 2 ^ 64 :=
      Nat.mul_lt_mul'' order.toNat_lt (by omega)
    simp only [decodeStep, not_lt.2 known, if_false, mul128_eq_mul, mul, digit]
    generalize order.toNat * (reverseAlphabet letter).toNat =
      product at productBelow ⊢
    have below := resNum.toNat_lt
    -- the source's test is exactly an overflow of the exact sum
    have refused : ((decide (resNum + UInt64.ofNat product < resNum) ||
        decide (UInt64.ofNat (product / 2 ^ 64) ≠ 0)) = true) ↔
          2 ^ 64 ≤ resNum.toNat + product := by
      simp only [Bool.or_eq_true, decide_eq_true_eq, UInt64.lt_iff_toNat_lt,
        UInt64.toNat_add, UInt64.toNat_ofNat', ne_eq, ← UInt64.toNat_inj,
        UInt64.toNat_zero]
      omega
    by_cases fits : resNum.toNat + product < 2 ^ 64
    · rw [if_neg (fun refuse => absurd (refused.1 refuse) (by omega)),
        if_pos ⟨known, fits⟩]
      congr 2
      apply UInt64.toNat_inj.1
      rw [UInt64.toNat_add, UInt64.toNat_ofNat', UInt64.toNat_ofNat']
      omega
    · rw [if_pos (refused.2 (by omega)), if_neg fun accepted => fits accepted.2]
  · simp [decodeStep, Int.lt_of_not_ge known, known]

/-- The digits of a block of letters. -/
def letterDigits (block : List Char) : List Nat :=
  block.map fun letter => (reverseAlphabet letter).toNat

@[simp] theorem letterDigits_cons (letter : Char) (rest : List Char) :
    letterDigits (letter :: rest) = (reverseAlphabet letter).toNat ::
      letterDigits rest := rfl

@[simp] theorem length_letterDigits (block : List Char) :
    (letterDigits block).length = block.length := List.length_map _

/-- The decoder's loop over a block of at most eleven letters: the block's
number, when every letter is in the alphabet and the number fits in 64 bits. -/
theorem foldr_decodeStep {block : List Char} (short : block.length ≤ 11) :
    block.foldr decodeStep (some (0, 1)) =
      if (∀ letter ∈ block, 0 ≤ reverseAlphabet letter) ∧
          digitsValue 58 (letterDigits block) < 2 ^ 64 then
        some (UInt64.ofNat (digitsValue 58 (letterDigits block)),
          UInt64.ofNat (58 ^ block.length))
      else none := by
  induction block with
  | nil =>
    have empty : digitsValue 58 (letterDigits []) = 0 := rfl
    rw [if_pos ⟨List.forall_mem_nil _, empty ▸ Nat.two_pow_pos 64⟩, empty]
    rfl
  | cons letter rest ih =>
    simp only [List.length_cons] at short
    have orderSmall : 58 ^ rest.length < 2 ^ 64 :=
      calc 58 ^ rest.length ≤ 58 ^ 10 :=
             Nat.pow_le_pow_right (by decide) (by omega)
        _ < 2 ^ 64 := by decide
    have value :=
      digitsValue_cons 58 (reverseAlphabet letter).toNat (letterDigits rest)
    rw [length_letterDigits] at value
    rw [List.foldr_cons, ih (by omega), letterDigits_cons, value]
    by_cases restAccepted : (∀ letter ∈ rest, 0 ≤ reverseAlphabet letter) ∧
        digitsValue 58 (letterDigits rest) < 2 ^ 64
    · rw [if_pos restAccepted, decodeStep_some, UInt64.toNat_ofNat',
        UInt64.toNat_ofNat', Nat.mod_eq_of_lt restAccepted.2,
        Nat.mod_eq_of_lt orderSmall]
      by_cases accepted : 0 ≤ reverseAlphabet letter ∧
        digitsValue 58 (letterDigits rest) +
          58 ^ rest.length * (reverseAlphabet letter).toNat < 2 ^ 64
      · rw [if_pos accepted,
          if_pos ⟨List.forall_mem_cons.2 ⟨accepted.1, restAccepted.1⟩,
          by rw [Nat.mul_comm]; omega⟩]
        congr 2
        · rw [Nat.mul_comm, Nat.add_comm]
        · rw [List.length_cons, Nat.pow_succ, UInt64.ofNat_mul]
          rfl
      · rw [if_neg accepted, if_neg]
        rintro ⟨known, fits⟩
        exact accepted
          ⟨(List.forall_mem_cons.1 known).1, by rw [Nat.mul_comm]; omega⟩
    · rw [if_neg restAccepted, if_neg]
      · rfl
      · rintro ⟨known, fits⟩
        exact restAccepted ⟨(List.forall_mem_cons.1 known).2, by omega⟩

/-- The bound `decode_block` checks a short block against,
`1 << (8 * res_size)`. -/
theorem toNat_one_shiftLeft {size : Nat} (short : size < 8) :
    ((1 : UInt64) <<< (8 * size).toUInt64).toNat = 256 ^ size := by
  have shift : ((8 * size).toUInt64).toNat % 64 = 8 * size := by
    rw [Nat.toUInt64_eq, UInt64.toNat_ofNat']
    omega
  have below : 2 ^ (8 * size) < 2 ^ 64 :=
    Nat.pow_lt_pow_right (by decide) (by omega)
  rw [UInt64.toNat_shiftLeft, shift, UInt64.toNat_one,
    Nat.shiftLeft_eq, Nat.one_mul, Nat.mod_eq_of_lt below, Nat.pow_mul]

/-- What `decode_block` accepts, and the bytes it writes: a block whose length
is an encoded length, whose letters are all in the alphabet and whose number
fits the decoded length. -/
theorem decodeBlock_eq_some {block : List Char} {bytes : List UInt8} :
    decodeBlock block = some bytes ↔
      0 < decodedBlockSizes block.length ∧
        (∀ letter ∈ block, 0 ≤ reverseAlphabet letter) ∧
        digitsValue 58 (letterDigits block) <
          256 ^ (decodedBlockSizes block.length).toNat ∧
        bytes = uint64To8be (UInt64.ofNat (digitsValue 58 (letterDigits block)))
          (decodedBlockSizes block.length).toNat := by
  unfold decodeBlock
  by_cases sized : decodedBlockSizes block.length ≤ 0
  · rw [if_pos sized]
    simp only [reduceCtorEq, false_iff, not_and]
    intro positive
    omega
  · rw [if_neg sized]
    obtain ⟨short, widthLe, -, -⟩ :=
      decodedBlockSizes_spec (show 0 ≤ decodedBlockSizes block.length by omega)
    rw [foldr_decodeStep short]
    generalize (decodedBlockSizes block.length).toNat = width at widthLe ⊢
    generalize digitsValue 58 (letterDigits block) = value
    have widest : 256 ^ width ≤ 2 ^ 64 :=
      calc 256 ^ width ≤ 256 ^ 8 := Nat.pow_le_pow_right (by decide) widthLe
        _ = 2 ^ 64 := by norm_num
    by_cases accepted :
      (∀ letter ∈ block, 0 ≤ reverseAlphabet letter) ∧ value < 2 ^ 64
    · rw [if_pos accepted]
      dsimp only
      have number : (UInt64.ofNat value).toNat = value := by
        rw [UInt64.toNat_ofNat']
        exact Nat.mod_eq_of_lt accepted.2
      -- the short-block test refuses exactly the numbers past the width
      have tooWide :
          (decide (width < fullBlockSize) &&
            decide ((1 : UInt64) <<< (8 * width).toUInt64 ≤ UInt64.ofNat value))
              = true ↔
            256 ^ width ≤ value := by
        rw [fullBlockSize_eq]
        by_cases full : width < 8
        · simp only [full, decide_true, Bool.true_and, decide_eq_true_eq,
            UInt64.le_iff_toNat_le, toNat_one_shiftLeft full, number]
        · have : width = 8 := by omega
          subst this
          simp only [lt_self_iff_false, decide_false, Bool.false_and,
            Bool.false_eq_true, false_iff, not_le]
          omega
      by_cases fits : value < 256 ^ width
      · rw [if_neg (fun refuse => absurd (tooWide.1 refuse) (by omega)),
          Option.some.injEq]
        exact ⟨fun written => ⟨by omega, accepted.1, fits, written.symm⟩,
          fun ⟨_, _, _, written⟩ => written.symm⟩
      · rw [if_pos (tooWide.2 (by omega))]
        simp only [reduceCtorEq, false_iff, not_and]
        intro _ _ fits'
        omega
    · rw [if_neg accepted]
      simp only [reduceCtorEq, false_iff, not_and]
      intro _ known fits
      exact absurd ⟨known, by omega⟩ accepted

/-! ## Blocks both ways -/

theorem letterDigits_letters {digits : List Nat}
    (small : ∀ digit ∈ digits, digit < 58) :
    letterDigits (letters digits) = digits := by
  induction digits with
  | nil => rfl
  | cons digit rest ih =>
    rw [letters, List.map_cons, ← letters, letterDigits_cons,
      reverseAlphabet_getD (small digit (by simp)), Int.toNat_natCast,
      ih fun later member => small later (by simp [member])]

theorem known_of_mem_letters {digits : List Nat}
    (small : ∀ digit ∈ digits, digit < 58) :
    ∀ letter ∈ letters digits, 0 ≤ reverseAlphabet letter := by
  intro letter member
  obtain ⟨digit, digitMember, rfl⟩ := List.mem_map.1 member
  rw [reverseAlphabet_getD (small digit digitMember)]
  omega

theorem letters_letterDigits {block : List Char}
    (known : ∀ letter ∈ block, 0 ≤ reverseAlphabet letter) :
    letters (letterDigits block) = block := by
  induction block with
  | nil => rfl
  | cons letter rest ih =>
    rw [letterDigits_cons, letters, List.map_cons, ← letters,
      (getD_reverseAlphabet (known letter (by simp))).2,
      ih fun later member => known later (by simp [member])]

theorem lt_of_mem_letterDigits {block : List Char}
    (known : ∀ letter ∈ block, 0 ≤ reverseAlphabet letter) :
    ∀ digit ∈ letterDigits block, digit < 58 := by
  intro digit member
  obtain ⟨letter, letterMember, rfl⟩ := List.mem_map.1 member
  exact (getD_reverseAlphabet (known letter letterMember)).1

theorem lt_of_mem_map_toNat (bytes : List UInt8) :
    ∀ digit ∈ bytes.map UInt8.toNat, digit < 256 := by
  simp only [List.mem_map]
  rintro _ ⟨byte, -, rfl⟩
  exact byte.toNat_lt

/-- A block of one to eight bytes decodes back from its encoding. -/
theorem decodeBlock_encodeBlock {block : List UInt8}
    (nonempty : 0 < block.length) (short : block.length ≤ 8) :
    decodeBlock (encodeBlock block
      (List.replicate (encodedBlockSizes.getD block.length 0)
        (alphabet.getD 0 '1'))) =
        some block := by
  obtain ⟨decoded, -, -, room⟩ := encodedBlockSizes_spec nonempty short
  have below := digitsValue_lt 256 (lt_of_mem_map_toNat block)
  rw [List.length_map] at below
  have digitsSmall :
      ∀ digit ∈ fixedDigits 58 (encodedBlockSizes.getD block.length 0)
      (digitsValue 256 (block.map UInt8.toNat)), digit < 58 :=
    fun _ member => lt_of_mem_fixedDigits (by decide) member
  have number : UInt64.ofNat (digitsValue 256 (block.map UInt8.toNat)) =
      uint8beTo64 block := by
    apply UInt64.toNat_inj.1
    rw [UInt64.toNat_ofNat', toNat_uint8beTo64 short]
    exact Nat.mod_eq_of_lt (below.trans_le (by
      calc 256 ^ block.length ≤ 256 ^ 8 :=
             Nat.pow_le_pow_right (by decide) short
        _ = 2 ^ 64 := by norm_num))
  rw [encodeBlock_eq nonempty short, decodeBlock_eq_some, letters,
    List.length_map, length_fixedDigits, ← letters, decoded,
    letterDigits_letters digitsSmall,
    digitsValue_fixedDigits, Nat.mod_eq_of_lt (below.trans_le room),
      Int.toNat_natCast, number,
    uint64To8be_uint8beTo64 short]
  exact ⟨by omega, known_of_mem_letters digitsSmall, below, rfl⟩

/-- A block of letters that decodes is the encoding of the bytes it decodes
to. -/
theorem encodeBlock_of_decodeBlock {block : List Char} {bytes : List UInt8}
    (decoded : decodeBlock block = some bytes) :
    bytes.length = (decodedBlockSizes block.length).toNat ∧
      encodeBlock bytes
        (List.replicate block.length (alphabet.getD 0 '1')) = block := by
  obtain ⟨positive, known, fits, rfl⟩ := decodeBlock_eq_some.1 decoded
  obtain ⟨-, widthLe, encodedLength, -⟩ := decodedBlockSizes_spec positive.le
  have digitsSmall := lt_of_mem_letterDigits known
  have lengthEq := length_uint64To8be
    (UInt64.ofNat (digitsValue 58 (letterDigits block))) widthLe
  refine ⟨lengthEq, ?_⟩
  have wide : 256 ^ (decodedBlockSizes block.length).toNat ≤ 2 ^ 64 :=
    calc 256 ^ (decodedBlockSizes block.length).toNat ≤ 256 ^ 8 :=
        Nat.pow_le_pow_right (by decide) widthLe
      _ = 2 ^ 64 := by norm_num
  have number : (UInt64.ofNat (digitsValue 58 (letterDigits block))).toNat =
      digitsValue 58 (letterDigits block) := by
    rw [UInt64.toNat_ofNat']
    omega
  have again := uint8beTo64_uint64To8be widthLe (number.symm ▸ fits)
  have encoded := @encodeBlock_eq
    (uint64To8be (UInt64.ofNat (digitsValue 58 (letterDigits block)))
      (decodedBlockSizes block.length).toNat) (by omega) (by omega)
  rw [lengthEq, encodedLength, ← toNat_uint8beTo64 (by omega), again, number,
    ← length_letterDigits block, fixedDigits_digitsValue 58 digitsSmall,
    letters_letterDigits known, length_letterDigits] at encoded
  exact encoded

/-! ## Strings both ways -/

theorem length_encodeBlockLoop (num : UInt64) (i : Nat) (res : List Char) :
    (encodeBlockLoop num i res).length = res.length := by
  induction num, i, res using encodeBlockLoop.induct with
  | case1 num i res positive remainder ih =>
    rw [encodeBlockLoop, if_pos positive]
    dsimp only
    rw [ih, List.length_set]
  | case2 num i res zero => rw [encodeBlockLoop, if_neg zero]

theorem length_encodeBlock (block : List UInt8) (res : List Char) :
    (encodeBlock block res).length = res.length :=
  length_encodeBlockLoop _ _ _

/-- The last block of a string: its letter count is below a full block's and
decodes to its length. -/
theorem lastBlock_spec {last : Nat} (short : last < 8) :
    encodedBlockSizes.getD last 0 < 11 ∧
      decodedBlockSizes (encodedBlockSizes.getD last 0) = last ∧
      (0 < encodedBlockSizes.getD last 0 ↔ 0 < last) := by
  have table : ∀ last < 8, encodedBlockSizes.getD last 0 < 11 ∧
      decodedBlockSizes (encodedBlockSizes.getD last 0) = last ∧
      (0 < encodedBlockSizes.getD last 0 ↔ 0 < last) := by
    decide
  exact table last short

/-- `encode` of a nonempty string, block by block. -/
theorem encode_eq {data : List UInt8} (nonempty : data ≠ []) :
    encode data =
      ((List.range (data.length / 8)).map fun i =>
          encodeBlock ((data.drop (i * 8)).take 8)
    (List.replicate 11 '1')).flatten ++
        if 0 < data.length % 8 then
          encodeBlock (data.drop (data.length / 8 * 8))
            (List.replicate (encodedBlockSizes.getD (data.length % 8) 0) '1')
        else [] := by
  simp only [encode, List.isEmpty_eq_false_iff.2 nonempty,
    Bool.false_eq_true, if_false, fullBlockSize_eq, fullEncodedBlockSize_eq,
    firstLetter_eq, List.flatMap_def]
  rfl

/-- Eleven letters for each full block and the table's count for the last. -/
theorem length_encode (data : List UInt8) :
    (encode data).length = data.length / 8 * 11 + encodedBlockSizes.getD
      (data.length % 8) 0 := by
  by_cases empty : data = []
  · subst empty
    rfl
  rw [encode_eq empty, List.length_append,
    length_flatten_map_range _
      fun i _ => by rw [length_encodeBlock, List.length_replicate]]
  split
  · rw [length_encodeBlock, List.length_replicate]
  · obtain ⟨-, -, lastNonempty⟩ :=
      lastBlock_spec (Nat.mod_lt data.length (by decide : 0 < 8))
    simp only [List.length_nil]
    omega

/-- `decode` of a nonempty string whose length leaves a valid last block. -/
theorem decode_eq {enc : List Char} (nonempty : enc ≠ [])
    (known : 0 ≤ decodedBlockSizes (enc.length % 11)) :
    decode enc = (do
      let fullBlocks ← (List.range (enc.length / 11)).mapM fun i =>
        decodeBlock ((enc.drop (i * 11)).take 11)
      let lastBlock ←
        if 0 < enc.length % 11
          then decodeBlock (enc.drop (enc.length / 11 * 11)) else some []
      pure (fullBlocks.flatten ++ lastBlock)) := by
  simp only [decode, List.isEmpty_eq_false_iff.2 nonempty,
    Bool.false_eq_true, if_false, fullEncodedBlockSize_eq, not_lt.2 known]
  rfl

/-- Every byte string decodes back from its encoding. -/
theorem decode_encode (data : List UInt8) :
    decode (encode data) = some data := by
  by_cases empty : data = []
  · subst empty
    rfl
  have lastSmall : data.length % 8 < 8 := Nat.mod_lt _ (by decide)
  obtain ⟨lastShort, lastDecoded, lastNonempty⟩ := lastBlock_spec lastSmall
  have fullLength : ∀ i < data.length / 8,
      (encodeBlock ((data.drop (i * 8)).take 8)
        (List.replicate 11 '1')).length = 11 :=
    fun i _ => by rw [length_encodeBlock, List.length_replicate]
  have total := length_encode data
  have countEq : (encode data).length / 11 = data.length / 8 := by
    rw [total]
    omega
  have lastEq : (encode data).length % 11 = encodedBlockSizes.getD
      (data.length % 8) 0 := by
    rw [total]
    omega
  have encodedNonempty : encode data ≠ [] := by
    have : 0 < data.length := List.length_pos_iff.2 empty
    rw [← List.length_pos_iff, total]
    omega
  -- each full block decodes to its eight bytes
  have fullDecoded : ∀ i < data.length / 8,
      decodeBlock (((encode data).drop (i * 11)).take 11) =
        some ((data.drop (i * 8)).take 8) := by
    intro i within
    have blockLength : ((data.drop (i * 8)).take 8).length = 8 := by
      simp only [List.length_take, List.length_drop]
      omega
    have decoded :=
      @decodeBlock_encodeBlock ((data.drop (i * 8)).take 8)
        (by omega) (by omega)
    rw [blockLength] at decoded
    rw [encode_eq empty, drop_take_flatten_map_range _ fullLength within]
    exact decoded
  rw [decode_eq encodedNonempty (by rw [lastEq, lastDecoded]; omega),
    countEq, lastEq, mapM_range_of_forall _ fullDecoded]
  simp only [Option.bind_eq_bind, Option.bind_some, flatten_map_range_drop_take]
  by_cases lastBlock : 0 < data.length % 8
  · -- the last block decodes to the bytes past the full blocks
    have decoded := @decodeBlock_encodeBlock (data.drop (data.length / 8 * 8))
      (by simp only [List.length_drop]; omega)
        (by simp only [List.length_drop]; omega)
    have lastLength' : (data.drop (data.length / 8 * 8)).length =
        data.length % 8 := by
      simp only [List.length_drop]
      omega
    rw [lastLength', firstLetter_eq] at decoded
    rw [if_pos (lastNonempty.2 lastBlock), encode_eq empty, if_pos lastBlock,
      drop_flatten_map_range _ fullLength, decoded]
    simp
  · rw [if_neg (fun positive => lastBlock (lastNonempty.1 positive))]
    have whole : data.length / 8 * 8 = data.length := by omega
    simp [whole]

/-- A string that decodes is the encoding of the bytes it decodes to. -/
theorem encode_of_decode {enc : List Char} {data : List UInt8}
    (decoded : decode enc = some data) :
    encode data = enc := by
  by_cases empty : enc = []
  · subst empty
    obtain rfl : data = [] := by simpa [decode] using decoded.symm
    rfl
  have known : 0 ≤ decodedBlockSizes (enc.length % 11) := by
    by_contra refused
    simp [decode, List.isEmpty_eq_false_iff.2 empty, fullEncodedBlockSize_eq,
      lt_of_not_ge refused] at decoded
  obtain ⟨-, widthLe, lastEncoded, lastShort⟩ := decodedBlockSizes_spec known
  have width := lastShort (Nat.mod_lt _ (by decide))
  -- the last block is empty exactly when it decodes to no bytes
  have lastNonempty : 0 < (decodedBlockSizes (enc.length % 11)).toNat ↔
      0 < enc.length % 11 := by
    constructor
    · intro positive
      rw [← lastEncoded]
      exact (encodedBlockSizes_spec positive widthLe).2.1
    · intro positive
      by_contra zero
      rw [Nat.eq_zero_of_not_pos zero, show encodedBlockSizes.getD 0 0 =
        0 from rfl] at lastEncoded
      omega
  rw [decode_eq empty known] at decoded
  cases fullMapped : (List.range (enc.length / 11)).mapM
      (fun i => decodeBlock ((enc.drop (i * 11)).take 11)) with
  | none => simp [fullMapped] at decoded
  | some fullBlocks =>
    obtain ⟨blockOf, each, rfl⟩ := mapM_range_eq_some fullMapped
    simp only [fullMapped, Option.bind_eq_bind, Option.bind_some] at decoded
    -- the last block's bytes, and that they encode back to its letters
    obtain ⟨lastBytes, lastSpec, rfl⟩ : ∃ lastBytes : List UInt8,
        (lastBytes.length = (decodedBlockSizes (enc.length % 11)).toNat ∧
          (0 < enc.length % 11 →
            encodeBlock lastBytes (List.replicate (enc.length % 11) '1') =
              enc.drop (enc.length / 11 * 11))) ∧
        data =
          ((List.range (enc.length / 11)).map
            blockOf).flatten ++ lastBytes := by
      by_cases lastBlock : 0 < enc.length % 11
      · rw [if_pos lastBlock] at decoded
        cases lastDecoded : decodeBlock (enc.drop (enc.length / 11 * 11)) with
        | none => simp [lastDecoded] at decoded
        | some lastBytes =>
          simp only [lastDecoded, Option.bind_some, Option.pure_def,
            Option.some.injEq] at decoded
          have back := encodeBlock_of_decodeBlock lastDecoded
          have lastLength : (enc.drop (enc.length / 11 * 11)).length =
              enc.length % 11 := by
            simp only [List.length_drop]
            omega
          rw [lastLength, firstLetter_eq] at back
          exact ⟨lastBytes, ⟨back.1, fun _ => back.2⟩, decoded.symm⟩
      · rw [if_neg lastBlock, Option.pure_def, Option.some.injEq] at decoded
        refine ⟨[],
          ⟨?_, fun positive => absurd positive lastBlock⟩, decoded.symm⟩
        simp only [List.length_nil]
        omega
    -- every full block has eight bytes and encodes back to its letters
    have fullEach : ∀ i < enc.length / 11, (blockOf i).length = 8 ∧
        encodeBlock (blockOf i) (List.replicate 11 '1') =
          (enc.drop (i * 11)).take 11 := by
      intro i within
      have blockLength : ((enc.drop (i * 11)).take 11).length = 11 := by
        simp only [List.length_take, List.length_drop]
        omega
      have back := encodeBlock_of_decodeBlock (each i within)
      rw [blockLength, firstLetter_eq] at back
      exact ⟨back.1, back.2⟩
    have total :
        (((List.range (enc.length / 11)).map blockOf).flatten ++
          lastBytes).length =
        enc.length / 11 * 8 + (decodedBlockSizes (enc.length % 11)).toNat := by
      rw [List.length_append, length_flatten_map_range _ fun i within =>
        (fullEach i within).1, lastSpec.1]
    have dataNonempty : ((List.range (enc.length / 11)).map blockOf).flatten ++
        lastBytes ≠ [] := by
      have : 0 < enc.length := List.length_pos_iff.2 empty
      rw [← List.length_pos_iff, total]
      by_cases lastBlock : 0 < enc.length % 11
      · have := lastNonempty.2 lastBlock
        omega
      · have : 0 < enc.length / 11 := by omega
        omega
    rw [encode_eq dataNonempty, total,
      show (enc.length / 11 * 8 +
        (decodedBlockSizes (enc.length % 11)).toNat) / 8 =
        enc.length / 11 by omega,
      show (enc.length / 11 * 8 +
        (decodedBlockSizes (enc.length % 11)).toNat) % 8 =
        (decodedBlockSizes (enc.length % 11)).toNat by omega]
    -- the full blocks of the bytes are the decoded blocks, which encode back
    have fullBack : ((List.range (enc.length / 11)).map fun i =>
        encodeBlock
          (((((List.range (enc.length / 11)).map
            blockOf).flatten ++ lastBytes).drop (i * 8)).take 8)
              (List.replicate 11 '1')) =
        (List.range (enc.length / 11)).map fun i =>
          (enc.drop (i * 11)).take 11 := by
      refine List.map_congr_left fun i member => ?_
      have within := List.mem_range.1 member
      rw [drop_take_flatten_map_range _
        (fun j within' => (fullEach j within').1) within]
      exact (fullEach i within).2
    rw [fullBack, flatten_map_range_drop_take,
      drop_flatten_map_range _ (fun j within => (fullEach j within).1)]
    by_cases lastBlock : 0 < enc.length % 11
    · rw [if_pos (lastNonempty.2 lastBlock), lastEncoded, lastSpec.2 lastBlock,
        List.take_append_drop]
    · rw [if_neg (fun positive => lastBlock (lastNonempty.1 positive)),
        List.append_nil, List.take_of_length_le (by omega)]

/-! ## Addresses both ways -/

/-- An address decodes to the tag and the data it was encoded from, whatever
function `cn_fast_hash` is. -/
theorem decodeAddr_encodeAddr (cnFastHash : List UInt8 → Hash) (tag : UInt64)
    (data : List UInt8) :
    decodeAddr cnFastHash (encodeAddr cnFastHash tag data) =
      some (tag, data) := by
  have tagFits : tag.toNat < 2 ^ 64 := tag.toNat_lt
  have varint := readVarint_writeVarint 64 tag.toNat tagFits data
  have varintNonempty := writeVarint_ne_nil tag.toNat
  have checksumLength :
      ((cnFastHash (getVarintData tag.toNat ++ data)).bytes.toList.take
        addrChecksumSize).length =
        addrChecksumSize := by
    simp [addrChecksumSize]
  have bufferLength : addrChecksumSize <
      (getVarintData tag.toNat ++ data ++
        (cnFastHash (getVarintData tag.toNat ++ data)).bytes.toList.take
          addrChecksumSize).length := by
    rw [List.length_append, checksumLength, List.length_append]
    have : 0 < (getVarintData tag.toNat).length :=
      List.length_pos_iff.2 varintNonempty
    omega
  have split : (getVarintData tag.toNat ++ data ++
      (cnFastHash (getVarintData tag.toNat ++ data)).bytes.toList.take
        addrChecksumSize).length -
        addrChecksumSize = (getVarintData tag.toNat ++ data).length := by
    rw [List.length_append, checksumLength, Nat.add_sub_cancel]
  simp only [decodeAddr, encodeAddr, decode_encode, Option.bind_eq_bind,
    Option.bind_some, if_neg (not_le.2 bufferLength), split, List.drop_left,
    List.take_left, ne_eq,
    not_true_eq_false, if_false]
  rw [getVarintData, varint]
  have positive : ¬((writeVarint tag.toNat).length : Int) ≤ 0 := by
    have : 0 < (writeVarint tag.toNat).length :=
      List.length_pos_iff.2 varintNonempty
    omega
  simp only [if_neg positive, Int.toNat_natCast, List.drop_left,
    UInt64.ofNat_toNat]

/-! ## The letters of an encoding -/

theorem getD_mem_alphabet (digit : Nat) :
    alphabet.getD digit '1' ∈ alphabet := by
  rw [List.getD_eq_getElem?_getD]
  cases found : alphabet[digit]? with
  | none => decide
  | some letter => exact List.mem_of_getElem? found

/-- The loop writes letters of the alphabet over letters of the alphabet. -/
theorem mem_alphabet_of_mem_encodeBlockLoop {num : UInt64} {i : Nat}
    {res : List Char} (known : ∀ letter ∈ res, letter ∈ alphabet) :
    ∀ letter ∈ encodeBlockLoop num i res, letter ∈ alphabet := by
  fun_induction encodeBlockLoop num i res with
  | case1 num i res positive remainder ih =>
    refine ih fun letter member => ?_
    rcases List.mem_or_eq_of_mem_set member with earlier | rfl
    · exact known letter earlier
    · exact getD_mem_alphabet _
  | case2 => exact known

theorem mem_alphabet_of_mem_encode {data : List UInt8} {letter : Char}
    (member : letter ∈ encode data) : letter ∈ alphabet := by
  have filler : ∀ count, ∀ letter ∈ List.replicate count (alphabet.getD 0 '1'),
      letter ∈ alphabet := by
    intro count letter member
    rw [List.eq_of_mem_replicate member]
    exact getD_mem_alphabet 0
  simp only [encode, encodeBlock] at member
  split at member
  · simp at member
  · rcases List.mem_append.1 member with full | last
    · obtain ⟨i, -, inBlock⟩ := List.mem_flatMap.1 full
      exact mem_alphabet_of_mem_encodeBlockLoop (filler _) letter inBlock
    · split at last
      · exact mem_alphabet_of_mem_encodeBlockLoop (filler _) letter last
      · simp at last

/-- A string `decode_addr` accepts is made of letters of the alphabet. -/
theorem mem_alphabet_of_decodeAddr (cnFastHash : List UInt8 → Hash)
    {addr : List Char} {decoded : UInt64 × List UInt8}
    (accepted : decodeAddr cnFastHash addr = some decoded) :
    ∀ letter ∈ addr, letter ∈ alphabet := by
  cases bytes : decode addr with
  | none => simp [decodeAddr, bytes] at accepted
  | some data =>
    intro letter member
    rw [← encode_of_decode bytes] at member
    exact mem_alphabet_of_mem_encode member

/-- Base58 is a bijection between byte strings and the strings `decode`
accepts, and the address layer gives back the tag and the data. -/
theorem encode_decode_bijective :
    (∀ data, decode (encode data) = some data) ∧
      (∀ enc data, decode enc = some data → encode data = enc) ∧
      ∀ (cnFastHash : List UInt8 → Hash) (tag : UInt64) (data : List UInt8),
        decodeAddr cnFastHash (encodeAddr cnFastHash tag data) =
          some (tag, data) :=
  ⟨decode_encode, fun _ _ decoded => encode_of_decode decoded,
    decodeAddr_encodeAddr⟩

/-- The two letters `11` decode to the zero byte, whose encoding they are. -/
theorem encode_decode_bijective_on_zero_byte :
    decode ['1', '1'] = some [0] ∧ encode [0] = ['1', '1'] :=
  ⟨by decide, encode_decode_bijective.2.1 _ _ (by decide)⟩

end Base58
end Citicash
