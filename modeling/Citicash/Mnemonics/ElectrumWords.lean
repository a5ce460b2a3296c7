import Citicash.BlockchainDb.Aliases

/-!
# Mnemonic seeds

`crypto::ElectrumWords` of `mnemonics/electrum-words.cpp` writes a 32-byte
secret key as 26 words of a language's word list and reads it back.
`bytes_to_words` cuts the key into eight little-endian 32-bit values and
writes each as three word indices in base `n`, the length of the word list,
each index shifted by the one before; it then appends two checksum words: one
of the 24 words, picked by the CRC-32 of their prefixes, and one of the word
list, picked by the CRC-32 of the 25.  `words_to_bytes` splits the text at
spaces, asks `find_seed_language` for the first language, in a fixed order,
whose trimmed word map has every word's prefix, checks both checksum words and
undoes the base-`n` encoding in 32-bit arithmetic.

The word lists are data the model takes as parameters: `languages` lists the
`Language` instances in the order `find_seed_language` tries them.  For a word
list whose trimmed words are distinct, free of NUL and white space, and long
enough that `n ^ 3` reaches `2 ^ 32` (`Language.Valid`), the three indices
give back the value (`groupValue_encodeGroup`) and both checksums pass,
whatever the hash.  `words_to_bytes` then returns the key, and the language
`bytes_to_words` wrote it in, as long as no language tried before that one
has every word's prefix too (`wordsToBytes_bytesToWords`); the first language
tried needs nothing more.
-/

namespace Citicash
namespace Mnemonics

open Cryptonote

/-! ## Words and languages -/

/-- A UTF-8 continuation byte, `10xxxxxx`. -/
def isContinuation (c : UInt8) : Bool := c &&& 0xc0 == 0x80

/-- `Language::utf8prefix(s, count)`: the first `count` characters of `s`,
each a byte and the continuation bytes after it; the copy stops early at a
NUL. -/
def utf8prefix : Bytes → Nat → Bytes
  | [], _ => []
  | _ :: _, 0 => []
  | c :: rest, count + 1 =>
    if c = 0 then []
    else c :: rest.takeWhile isContinuation ++
           utf8prefix (rest.dropWhile isContinuation) count

/-- `Language::Base`: the word list, the language's name and the number of
characters that tell its words apart. -/
structure Language where
  wordList : List Bytes
  languageName : Bytes
  uniquePrefixLength : Nat

/-- A word as `populate_maps`, `create_checksum_index` and the checksum tests
trim it: its first `unique_prefix_length` characters when it is longer than
that many bytes, the whole word otherwise. -/
def trimWord (uniquePrefixLength : Nat) (word : Bytes) : Bytes :=
  if word.length > uniquePrefixLength
    then utf8prefix word uniquePrefixLength else word

/-- One insertion of `populate_maps`. -/
def insertEntry (map : Bytes → Option Nat) (entry : Bytes × Nat) :
    Bytes → Option Nat :=
  Function.update map entry.1 (some entry.2)

/-- The loop of `populate_maps` into one of its maps: each key under its
position, a later key overwriting an earlier one. -/
def populate (keys : List Bytes) : Bytes → Option Nat :=
  keys.zipIdx.foldl insertEntry fun _ => none

/-- `word_map` after `populate_maps`. -/
def Language.wordMap (language : Language) : Bytes → Option Nat :=
  populate language.wordList

/-- `trimmed_word_map` after `populate_maps`. -/
def Language.trimmedWordMap (language : Language) : Bytes → Option Nat :=
  populate (language.wordList.map (trimWord language.uniquePrefixLength))

/-- `crypto::ElectrumWords::seed_length`. -/
def seedLength : Nat := 24

/-! ## Checksums -/

/-- One byte into the register of `boost::crc_32_type`: the reflected
polynomial `0xEDB88320`, one bit at a time. -/
def crc32Byte (crc : UInt32) (byte : UInt8) : UInt32 :=
  (List.range 8).foldl
    (fun crc _ => if crc &&& 1 =
      1 then (crc >>> 1) ^^^ 0xEDB88320 else crc >>> 1)
    (crc ^^^ byte.toUInt32)

/-- `boost::crc_32_type` over bytes: the register starts with all ones and
its complement is the checksum. -/
def crc32 (bytes : List UInt8) : UInt32 :=
  bytes.foldl crc32Byte 0xFFFFFFFF ^^^ 0xFFFFFFFF

/-- The check value of CRC-32, on the digits `123456789`. -/
example :
    crc32 [49, 50, 51, 52, 53, 54, 55, 56, 57] = 0xCBF43926 := by decide +kernel

/-- What the checksum indices hash: the words trimmed and joined. -/
def trimmedWords (seed : List Bytes) (uniquePrefixLength : Nat) : Bytes :=
  (seed.map (trimWord uniquePrefixLength)).flatten

/-- `create_checksum_index(seed, unique_prefix_length)`. -/
def createChecksumIndex (seed : List Bytes) (uniquePrefixLength : Nat) : Nat :=
  (crc32 (trimmedWords seed uniquePrefixLength)).toNat % seedLength

/-- `create_checksum_index2(seed, unique_prefix_length, word_list_length)`. -/
def createChecksumIndex2 (seed : List Bytes) (uniquePrefixLength : Nat)
    (wordListLength : UInt32) : UInt32 :=
  crc32 (trimmedWords seed uniquePrefixLength) % wordListLength

/-- `checksum_test(seed, unique_prefix_length)`: the last word against the
word the first checksum index picks from the others, both trimmed.  The seed
is never empty here, where `seed.back()` would be undefined. -/
def checksumTest (seed : List Bytes) (uniquePrefixLength : Nat) : Bool :=
  let lastWord := seed.getLast?.getD []
  let seed := seed.dropLast
  let checksum := seed.getD (createChecksumIndex seed uniquePrefixLength) []
  trimWord uniquePrefixLength checksum == trimWord uniquePrefixLength lastWord

/-- `checksum_test2(seed, unique_prefix_length, word_list)`: the last word
against the word the second checksum index picks from the word list. -/
def checksumTest2 (seed : List Bytes) (uniquePrefixLength : Nat)
    (wordList : List Bytes) : Bool :=
  let lastWord := seed.getLast?.getD []
  let seed := seed.dropLast
  let checksum :=
    wordList.getD
      (createChecksumIndex2 seed uniquePrefixLength
        wordList.length.toUInt32).toNat []
  trimWord uniquePrefixLength checksum == trimWord uniquePrefixLength lastWord

/-! ## The base-`n` code of a 32-bit value -/

/-- The three word indices `bytes_to_words` writes for a 32-bit value. -/
def encodeGroup (wordListLength val : UInt32) : UInt32 × UInt32 × UInt32 :=
  let w1 := val % wordListLength
  let w2 := (val / wordListLength + w1) % wordListLength
  let w3 := (val / wordListLength / wordListLength + w2) % wordListLength
  (w1, w2, w3)

/-- The value `words_to_bytes` computes from three word indices. -/
def groupValue (wordListLength w1 w2 w3 : UInt32) : UInt32 :=
  w1 + wordListLength * ((wordListLength - w1 + w2) % wordListLength) +
    wordListLength * wordListLength *
      ((wordListLength - w2 + w3) % wordListLength)

/-- `memcpy(&val, src.data + offset, 4)` on a little-endian host. -/
def readUint32 (src : Key) (offset : Nat) : UInt32 :=
  let byte := fun j => (src.bytes.toList.getD (offset + j) 0).toUInt32
  byte 0 + byte 1 * 256 + byte 2 * 65536 + byte 3 * 16777216

/-- `memcpy(dst.data + offset, &val, 4)` on a little-endian host. -/
def writeUint32 (dst : Key) (offset : Nat) (val : UInt32) : Key :=
  ⟨(List.range 4).foldl
    (fun bytes j => bytes.setIfInBounds (offset + j)
      (val.toNat / 256 ^ j).toUInt8) dst.bytes⟩

/-- Shifting an index by one below `n` and reading it back relative to the
one before gives the digit that was added, modulo `n`. -/
theorem shifted_mod {n a : Nat} (below : a < n) (b : Nat) :
    (n - a + (b + a) % n) % n = b % n := by
  rw [Nat.add_mod_mod, show n - a + (b + a) = b + n by omega, Nat.add_mod_right]

/-- The three base-`n` digits of `v` put back together. -/
theorem digits_recompose (n v : Nat) :
    v % n + n * (v / n % n) + n * n * (v / n / n) = v := by
  have low := Nat.mod_add_div v n
  have high := Nat.mod_add_div (v / n) n
  calc v % n + n * (v / n % n) + n * n * (v / n / n)
      = v % n + n * (v / n % n + n * (v / n / n)) := by ring
    _ = v := by rw [high, low]

section Code

variable {n : UInt32} (small : n.toNat < 2 ^ 16)
include small

/-- An index shifted by `n` less another, in 32-bit arithmetic: nothing
wraps while `n` is below `2 ^ 16`. -/
theorem toNat_shifted {a b : UInt32} (below : a.toNat < n.toNat)
    (belowB : b.toNat < n.toNat) :
    ((n - a + b) % n).toNat = (n.toNat - a.toNat + b.toNat) % n.toNat := by
  have noWrap : n.toNat - a.toNat + b.toNat < 2 ^ 32 := by omega
  rw [UInt32.toNat_mod, UInt32.toNat_add,
    UInt32.toNat_sub_of_le _ _ (UInt32.le_iff_toNat_le.2 (by omega)),
    Nat.mod_eq_of_lt noWrap]

variable (cube : 2 ^ 32 ≤ n.toNat ^ 3)
include cube

theorem two_le_of_cube : 2 ≤ n.toNat := by
  by_contra tooShort
  have atMostOne : n.toNat ^ 3 ≤ 1 ^ 3 := Nat.pow_le_pow_left (by omega) 3
  omega

/-- Every index `encodeGroup` writes is below `n`. -/
theorem encodeGroup_lt (val : UInt32) :
    (encodeGroup n val).1.toNat < n.toNat ∧
      (encodeGroup n val).2.1.toNat < n.toNat ∧
      (encodeGroup n val).2.2.toNat < n.toNat := by
  have positive : 0 < n.toNat := by have := two_le_of_cube small cube; omega
  simp only [encodeGroup, UInt32.toNat_mod]
  exact ⟨Nat.mod_lt _ positive, Nat.mod_lt _ positive, Nat.mod_lt _ positive⟩

/-- The base-`n` code of a 32-bit value: the value `words_to_bytes` computes
from the indices `bytes_to_words` writes is the value, with no 32-bit sum
wrapping, since `n ^ 3` reaches `2 ^ 32`. -/
theorem groupValue_encodeGroup (val : UInt32) :
    groupValue n (encodeGroup n val).1 (encodeGroup n val).2.1
      (encodeGroup n val).2.2 = val := by
  have two := two_le_of_cube small cube
  have lt32 := val.toNat_lt
  -- the quotients stay small, so the shifted indices do not wrap
  have q1 : val.toNat / n.toNat < 2 ^ 31 := by
    rw [Nat.div_lt_iff_lt_mul (by omega)]
    omega
  have q2 : val.toNat / n.toNat / n.toNat < n.toNat := by
    rw [Nat.div_div_eq_div_mul, Nat.div_lt_iff_lt_mul (by positivity)]
    calc val.toNat < 2 ^ 32 := lt32
      _ ≤ n.toNat ^ 3 := cube
      _ = n.toNat * (n.toNat * n.toNat) := by ring
  have r1 : val.toNat % n.toNat < n.toNat := Nat.mod_lt _ (by omega)
  have w2 : (val / n + val % n).toNat = val.toNat / n.toNat +
      val.toNat % n.toNat := by
    rw [UInt32.toNat_add, UInt32.toNat_div, UInt32.toNat_mod,
      Nat.mod_eq_of_lt (by omega)]
  have r2 : (val.toNat / n.toNat + val.toNat % n.toNat) % n.toNat < n.toNat :=
    Nat.mod_lt _ (by omega)
  have w3 : (val / n / n + (val / n + val % n) % n).toNat =
      val.toNat / n.toNat / n.toNat +
        (val.toNat / n.toNat + val.toNat % n.toNat) % n.toNat := by
    rw [UInt32.toNat_add, UInt32.toNat_div, UInt32.toNat_div,
      UInt32.toNat_mod, w2, Nat.mod_eq_of_lt (by omega)]
  -- each digit read back relative to the one before
  have mod1 : (val % n).toNat < n.toNat := by rw [UInt32.toNat_mod]; exact r1
  have mod2 : ((val / n + val % n) % n).toNat < n.toNat := by
    rw [UInt32.toNat_mod, w2]; exact r2
  have digit1 : ((n - val % n + (val / n + val % n) % n) % n).toNat =
      val.toNat / n.toNat % n.toNat := by
    rw [toNat_shifted small mod1 mod2, UInt32.toNat_mod, UInt32.toNat_mod,
      w2, shifted_mod r1]
  have digit2 :
      ((n - (val / n + val % n) % n +
        (val / n / n + (val / n + val % n) % n) % n) %
      n).toNat = val.toNat / n.toNat / n.toNat := by
    have mod3 :
        ((val / n / n + (val / n + val % n) % n) % n).toNat < n.toNat := by
      rw [UInt32.toNat_mod]; exact Nat.mod_lt _ (by omega)
    rw [toNat_shifted small mod2 mod3, UInt32.toNat_mod, UInt32.toNat_mod, w2,
      w3, shifted_mod r2, Nat.mod_eq_of_lt q2]
  -- the three terms add up to the value below `2 ^ 32`, so no sum wraps
  have recomposed := digits_recompose n.toNat val.toNat
  have square : n.toNat * n.toNat < 2 ^ 32 := by
    calc n.toNat * n.toNat < 2 ^ 16 * 2 ^ 16 := Nat.mul_lt_mul'' small small
      _ = 2 ^ 32 := by norm_num
  apply UInt32.toNat_inj.1
  simp only [groupValue, encodeGroup]
  rw [UInt32.toNat_add, UInt32.toNat_add, UInt32.toNat_mul, UInt32.toNat_mul,
    UInt32.toNat_mul, digit1, digit2, UInt32.toNat_mod, Nat.mod_eq_of_lt square]
  generalize n.toNat * (val.toNat / n.toNat % n.toNat) = middle at recomposed ⊢
  generalize n.toNat * n.toNat * (val.toNat / n.toNat / n.toNat) =
    top at recomposed ⊢
  omega

end Code

/-- Four bytes, lowest first, as one 32-bit value: no sum wraps. -/
theorem toNat_littleEndian (a b c d : UInt8) :
    (a.toUInt32 + b.toUInt32 * 256 + c.toUInt32 * 65536 + d.toUInt32 *
      16777216).toNat =
      a.toNat + b.toNat * 256 + c.toNat * 65536 + d.toNat * 16777216 := by
  have boundA := a.toNat_lt
  have boundB := b.toNat_lt
  have boundC := c.toNat_lt
  have boundD := d.toNat_lt
  simp only [UInt32.toNat_add, UInt32.toNat_mul, UInt8.toNat_toUInt32,
    UInt32.reduceToNat]
  omega

theorem toNat_readUint32 (src : Key) (offset : Nat) :
    (readUint32 src offset).toNat =
      (src.bytes.toList.getD offset 0).toNat +
        (src.bytes.toList.getD (offset + 1) 0).toNat * 256 +
        (src.bytes.toList.getD (offset + 2) 0).toNat * 65536 +
          (src.bytes.toList.getD (offset + 3) 0).toNat * 16777216 :=
  toNat_littleEndian _ _ _ _

/-- The `j`-th byte of the value read at `offset` is the key's byte there. -/
theorem readUint32_byte (src : Key) {offset j : Nat} (byte : j < 4) :
    ((readUint32 src offset).toNat / 256 ^ j).toUInt8 = src.bytes.toList.getD
      (offset + j) 0 := by
  have b0 := (src.bytes.toList.getD offset 0).toNat_lt
  have b1 := (src.bytes.toList.getD (offset + 1) 0).toNat_lt
  have b2 := (src.bytes.toList.getD (offset + 2) 0).toNat_lt
  have b3 := (src.bytes.toList.getD (offset + 3) 0).toNat_lt
  apply UInt8.toNat_inj.1
  simp only [toNat_readUint32, List.getD_eq_getElem?_getD,
    Vector.getElem?_toList, Nat.toUInt8_eq, UInt8.toNat_ofNat'] at b0 b1 b2 b3 ⊢
  interval_cases j <;> simp only [Nat.add_zero, Nat.reducePow] <;> omega

/-- `memcpy` of four bytes at `offset` changes those four places only. -/
theorem getElem_writeUint32 (dst : Key) (offset : Nat) (val : UInt32) {p : Nat}
    (inKey : p < 32) :
    (writeUint32 dst offset val).bytes[p] =
      if offset ≤ p ∧ p < offset + 4
        then (val.toNat / 256 ^ (p - offset)).toUInt8
      else dst.bytes[p] := by
  simp only [writeUint32, List.range_succ, List.range_zero, List.nil_append,
    List.foldl_append, List.foldl_cons, List.foldl_nil,
    Vector.getElem_setIfInBounds inKey]
  -- one case per byte written, and the places outside
  split_ifs <;>
    first
    | omega
    | rfl
    | (subst_vars; simp)

/-! ## The maps of `populate_maps` -/

section Populate

theorem foldl_insertEntry_of_not_mem {key : Bytes} :
    ∀ {entries : List (Bytes × Nat)} {map : Bytes → Option Nat},
      key ∉ entries.map Prod.fst →
      entries.foldl insertEntry map key = map key
  | [], _, _ => rfl
  | entry :: rest, map, absent => by
    rw [List.map_cons, List.mem_cons, not_or] at absent
    rw [List.foldl_cons, foldl_insertEntry_of_not_mem absent.2, insertEntry,
      Function.update_of_ne absent.1]

/-- With keys that are all different, each key finds its own entry. -/
theorem foldl_insertEntry_of_mem {key : Bytes} {v : Nat} :
    ∀ {entries : List (Bytes × Nat)} {map : Bytes → Option Nat},
      (entries.map Prod.fst).Nodup →
      (key, v) ∈ entries → entries.foldl insertEntry map key = some v
  | [], _, _, absent => nomatch absent
  | entry :: rest, map, distinct, mem => by
    rw [List.map_cons, List.nodup_cons] at distinct
    rw [List.foldl_cons]
    rcases List.mem_cons.1 mem with first | later
    · -- the entry is inserted here and no later key overwrites it
      subst first
      rw [foldl_insertEntry_of_not_mem distinct.1, insertEntry,
        Function.update_self]
    · exact foldl_insertEntry_of_mem distinct.2 later

theorem populate_getElem {keys : List Bytes} (distinct : keys.Nodup) {j : Nat}
    (below : j < keys.length) :
    populate keys keys[j] = some j := by
  have mem : (keys[j], j) ∈ keys.zipIdx :=
    List.mem_zipIdx_iff_getElem?.2 (List.getElem?_eq_getElem below)
  exact foldl_insertEntry_of_mem (by rwa [List.zipIdx_map_fst]) mem

end Populate

/-- `utf8prefix` copies a word with no NUL whole when the count reaches its
length: each character takes at least a byte. -/
theorem utf8prefix_of_length_le : ∀ {count : Nat} {word : Bytes},
    (∀ c ∈ word, c ≠ 0) →
    word.length ≤ count → utf8prefix word count = word
  | _, [], _, _ => by cases ‹Nat› <;> rfl
  | 0, _ :: _, _, long => absurd long (by simp)
  | count + 1, c :: rest, noNul, short => by
    have restNoNul : ∀ d ∈ rest.dropWhile isContinuation, d ≠ 0 := fun d mem =>
      noNul d (List.mem_cons_of_mem c ((List.dropWhile_sublist _).subset mem))
    have restShort : (rest.dropWhile isContinuation).length ≤ count :=
      ((List.dropWhile_sublist _).length_le).trans (by simpa using short)
    rw [ utf8prefix, if_neg (noNul c List.mem_cons_self),
      utf8prefix_of_length_le restNoNul restShort, List.cons_append,
      List.takeWhile_append_dropWhile]

/-- Without NUL bytes, the prefix `find_seed_language` looks up is the word as
`populate_maps` trims it. -/
theorem utf8prefix_eq_trimWord {word : Bytes}
    (noNul : ∀ c ∈ word, c ≠ 0) (count : Nat) :
    utf8prefix word count = trimWord count word := by
  unfold trimWord
  split
  · rfl
  · exact utf8prefix_of_length_le noNul (by omega)

/-! ## The two directions -/

/-- `boost::algorithm::trim` in the classic locale. -/
def trim (words : Bytes) : Bytes :=
  ((words.dropWhile BlockchainDb.isSpace).reverse.dropWhile
    BlockchainDb.isSpace).reverse

/-- The loop of `bytes_to_words` over the key's 32-bit values from value `i`:
the three words of each go to `words`, each followed by a space, and to
`words_store`.  An index is below the list's length, which fits 32 bits. -/
def bytesToWordsLoop (wordList : List Bytes) (src : Key) :
    Nat → Nat → Bytes × List Bytes → Bytes × List Bytes
  | 0, _, acc => acc
  | count + 1, i, (words, wordsStore) =>
    let (w1, w2, w3) :=
      encodeGroup wordList.length.toUInt32 (readUint32 src (i * 4))
    let word := fun w : UInt32 => wordList.getD w.toNat []
    bytesToWordsLoop wordList src count (i + 1)
      (words ++ word w1 ++ [32] ++ word w2 ++ [32] ++ word w3 ++ [32],
        wordsStore ++ [word w1, word w2, word w3])

/-- The loop of `words_to_bytes` over the groups of three words from group
`i`: each group's value goes to `dst` at `4 i`, and a value that does not give
back its first index stops the loop with `false`, the groups before it
written. -/
def wordsToBytesLoop (wordListLength : UInt32) (matchedIndices : List Nat) :
    Nat → Nat → Key → Bool × Key
  | 0, _, dst => (true, dst)
  | count + 1, i, dst =>
    let w1 := (matchedIndices.getD (i * 3) 0).toUInt32
    let w2 := (matchedIndices.getD (i * 3 + 1) 0).toUInt32
    let w3 := (matchedIndices.getD (i * 3 + 2) 0).toUInt32
    let val := groupValue wordListLength w1 w2 w3
    if val % wordListLength ≠ w1 then (false, dst)
    else wordsToBytesLoop wordListLength matchedIndices count (i + 1)
           (writeUint32 dst (i * 4) val)

section Languages

-- the `Language` instances of `find_seed_language`, in the order it tries them
variable (languages : List Language)

/-- `find_seed_language(seed, has_checksum, matched_indices, language)`: the
first language that has every word of the seed, each by its first
`unique_prefix_length` characters when the seed has a checksum, with the
words' positions in it. -/
def findSeedLanguage (seed : List Bytes) (hasChecksum : Bool) :
    Option (List Nat × Language) :=
  languages.findSome? fun language =>
    (seed.mapM fun word =>
        if hasChecksum
          then language.trimmedWordMap
                 ( utf8prefix word language.uniquePrefixLength)
        else language.wordMap word).map
      fun matchedIndices => (matchedIndices, language)

/-- `words_to_bytes(words, dst, language_name)`, with what it leaves in its
two reference arguments.  The language's name is written as soon as the
language is found, before the checksums are tested. -/
def wordsToBytes (words : Bytes) (dst : Key) (languageName : Bytes) :
    Bool × Key × Bytes :=
  let seed := (trim words).splitOn 32
  if seed.length ≠ seedLength + 2 then (false, dst, languageName)
  else
    match findSeedLanguage languages seed true with
    | none => (false, dst, languageName)
    | some (matchedIndices, language) =>
      let languageName := language.languageName
      let wordListLength := language.wordList.length.toUInt32
      if !checksumTest2 seed language.uniquePrefixLength language.wordList then
        (false, dst, languageName)
      else
        let seed := seed.dropLast
        if !checksumTest seed language.uniquePrefixLength
          then (false, dst, languageName)
        else
          let seed := seed.dropLast
          let (ok, dst) :=
            wordsToBytesLoop wordListLength matchedIndices
              (seed.length / 3) 0 dst
          (ok, dst, languageName)

/-- `bytes_to_words(src, words, language_name)`: `false` for a name no
language has; otherwise the key's 24 words, the checksum word picked from
them and the one picked from the word list, appended to `words` with spaces
between.  The source's test of `sizeof(src.data)` always passes: a key has 32
bytes, eight values. -/
def bytesToWords (src : Key) (words : Bytes)
    (languageName : Bytes) : Bool × Bytes :=
  match languages.find? (·.languageName == languageName) with
  | none => (false, words)
  | some language =>
    let wordList := language.wordList
    let (words, wordsStore) := bytesToWordsLoop wordList src 8 0 (words, [])
    -- `words.pop_back()` drops the space after the last group
    let words := words.dropLast
    let checksumWord :=
      wordsStore.getD
        (createChecksumIndex wordsStore language.uniquePrefixLength) []
    let words := words ++ 32 :: checksumWord
    let wordsStore := wordsStore ++ [checksumWord]
    let checksumWord2 := wordList.getD
      (createChecksumIndex2 wordsStore language.uniquePrefixLength
        wordList.length.toUInt32).toNat []
    (true, words ++ 32 :: checksumWord2)

end Languages

/-! ## Word lists the code can be inverted on -/

/-- What the round trip asks of a word list: its trimmed words are distinct,
its words are not empty and hold neither NUL nor white space, and it is long
enough for three indices to hold 32 bits but short enough for the 32-bit
arithmetic on them not to wrap. -/
structure Language.Valid (language : Language) : Prop where
  trimmedDistinct :
    (language.wordList.map (trimWord language.uniquePrefixLength)).Nodup
  wordsNonempty : ∀ word ∈ language.wordList, word ≠ []
  plainBytes : ∀ word ∈ language.wordList, ∀ c ∈ word, c ≠ 0 ∧
    BlockchainDb.isSpace c = false
  longEnough : 2 ^ 32 ≤ language.wordList.length ^ 3
  shortEnough : language.wordList.length < 2 ^ 16

namespace Language.Valid

variable {language : Language} (valid : language.Valid)
include valid

theorem toNat_length :
    language.wordList.length.toUInt32.toNat = language.wordList.length := by
  rw [Nat.toUInt32_eq, UInt32.toNat_ofNat',
    Nat.mod_eq_of_lt (by have := valid.shortEnough; omega)]

-- the two bounds of the base-`n` code, on the length as the code stores it
theorem toNat_length_lt : language.wordList.length.toUInt32.toNat < 2 ^ 16 := by
  rw [valid.toNat_length]
  exact valid.shortEnough

theorem le_toNat_length_cube :
    2 ^ 32 ≤ language.wordList.length.toUInt32.toNat ^ 3 := by
  rw [valid.toNat_length]
  exact valid.longEnough

/-- `find_seed_language` finds each word of the list at its own position. -/
theorem trimmedWordMap_utf8prefix_getD {j : Nat}
    (below : j < language.wordList.length) :
    language.trimmedWordMap
      ( utf8prefix (language.wordList.getD j []) language.uniquePrefixLength) =
      some j := by
  have noNul : ∀ c ∈ language.wordList[j], c ≠ 0 := fun c mem =>
    (valid.plainBytes _ (List.getElem_mem below) c mem).1
  have trimmed := populate_getElem valid.trimmedDistinct (by simpa using below)
  rw [List.getElem_map] at trimmed
  rw [List.getD_eq_getElem _ _ below, utf8prefix_eq_trimWord noNul,
    Language.trimmedWordMap, trimmed]

end Language.Valid

/-! ## What `bytes_to_words` writes -/

/-- The word indices `bytes_to_words` writes for the key's values from value
`i` on. -/
def seedIndices (wordListLength : UInt32) (src : Key) : Nat → Nat → List UInt32
  | 0, _ => []
  | count + 1, i =>
    let (w1, w2, w3) := encodeGroup wordListLength (readUint32 src (i * 4))
    [w1, w2, w3] ++ seedIndices wordListLength src count (i + 1)

/-- The 26 words `bytes_to_words` writes for a key in a language: the words of
the key's indices, then the two checksum words. -/
def seedWords (language : Language) (src : Key) : List Bytes :=
  let wordList := language.wordList
  let wordsStore :=
    (seedIndices wordList.length.toUInt32 src 8 0).map fun w =>
      wordList.getD w.toNat []
  let checksumWord :=
    wordsStore.getD
      (createChecksumIndex wordsStore language.uniquePrefixLength) []
  let wordsStore := wordsStore ++ [checksumWord]
  wordsStore ++ [wordList.getD
    (createChecksumIndex2 wordsStore language.uniquePrefixLength
      wordList.length.toUInt32).toNat []]

theorem length_seedIndices (wordListLength : UInt32) (src : Key) :
    ∀ count i, (seedIndices wordListLength src count i).length = 3 * count
  | 0, _ => rfl
  | count + 1, i => by
    rw [seedIndices, List.length_append,
      length_seedIndices wordListLength src count (i + 1)]
    simp only [List.length_cons, List.length_nil]
    omega

theorem seedIndices_lt {n : UInt32} (small : n.toNat < 2 ^ 16)
    (cube : 2 ^ 32 ≤ n.toNat ^ 3) (src : Key) :
    ∀ count i, ∀ w ∈ seedIndices n src count i, w.toNat < n.toNat
  | 0, _, _, absent => nomatch absent
  | count + 1, i, w, mem => by
    obtain ⟨first, second, third⟩ :=
      encodeGroup_lt small cube (readUint32 src (i * 4))
    simp only [seedIndices, List.cons_append, List.nil_append,
      List.mem_cons] at mem
    rcases mem with rfl | rfl | rfl | later
    · exact first
    · exact second
    · exact third
    · exact seedIndices_lt small cube src count (i + 1) w later

/-- The key's 24 word indices all stand in the word list. -/
theorem seedIndices_lt_length {language : Language}
    (valid : language.Valid) (src : Key) :
    ∀ w ∈ seedIndices language.wordList.length.toUInt32 src 8 0,
      w.toNat < language.wordList.length := by
  have below :=
    seedIndices_lt valid.toNat_length_lt valid.le_toNat_length_cube src 8 0
  rwa [valid.toNat_length] at below

/-- The loop of `bytes_to_words` writes the words of the indices, each
followed by a space, and stores them. -/
theorem bytesToWordsLoop_eq (wordList : List Bytes) (src : Key) :
    ∀ count i words wordsStore,
    bytesToWordsLoop wordList src count i (words, wordsStore) =
      let stored :=
        (seedIndices wordList.length.toUInt32 src count i).map fun w =>
          wordList.getD w.toNat []
      (words ++ stored.flatMap (· ++ [32]), wordsStore ++ stored)
  | 0, _, words, wordsStore => by simp [bytesToWordsLoop, seedIndices]
  | count + 1, i, words, wordsStore => by
    rw [bytesToWordsLoop, seedIndices]
    simp only [encodeGroup]
    rw [bytesToWordsLoop_eq wordList src count (i + 1)]
    simp [List.append_assoc]

/-- A list of words, each followed by a space, is the words joined by spaces
and one more space. -/
theorem dropLast_flatMap_append {a : UInt8} :
    ∀ {words : List Bytes}, words ≠ [] →
    (words.flatMap (· ++ [a])).dropLast = [a].intercalate words
  | [], absent => absurd rfl absent
  | [word], _ => by simp
  | word :: next :: rest, _ => by
    have following : (next :: rest).flatMap (· ++ [a]) ≠ [] := by simp
    rw [List.flatMap_cons, List.append_assoc,
      List.dropLast_append_of_ne_nil (by simp),
      List.dropLast_append_of_ne_nil following,
      dropLast_flatMap_append (List.cons_ne_nil next rest),
      List.intercalate_cons_cons, List.append_assoc]

theorem intercalate_append_singleton {a : UInt8} :
    ∀ {words : List Bytes}, words ≠ [] →
    ∀ word, [a].intercalate (words ++ [word]) =
      [a].intercalate words ++ a :: word
  | [], absent, _ => absurd rfl absent
  | [first], _, word => by simp [List.intercalate_cons_cons]
  | first :: second :: rest, _, word => by
    rw [List.cons_append, List.cons_append, List.intercalate_cons_cons,
      ← List.cons_append,
      intercalate_append_singleton (List.cons_ne_nil second rest),
      List.intercalate_cons_cons]
    simp

/-- `bytes_to_words` in a language it finds by name: the language's 26 words
of the key, joined by spaces, after whatever `words` held. -/
theorem bytesToWords_eq {languages : List Language} {language : Language}
    (found : languages.find?
      (·.languageName == language.languageName) = some language)
    (src : Key) (words : Bytes) :
    bytesToWords languages src words language.languageName =
      (true, words ++ [32].intercalate (seedWords language src)) := by
  have nonempty : (seedIndices language.wordList.length.toUInt32 src 8 0).map
      (fun w => language.wordList.getD w.toNat []) ≠ [] := by
    rw [← List.length_pos_iff, List.length_map, length_seedIndices]
    omega
  rw [bytesToWords, found]
  simp only [bytesToWordsLoop_eq, List.nil_append, seedWords]
  -- the stored words, whatever they are, are not none
  generalize (seedIndices language.wordList.length.toUInt32 src 8 0).map
    (fun w => language.wordList.getD w.toNat []) = stored at nonempty ⊢
  obtain ⟨first, rest, rfl⟩ := List.exists_cons_of_ne_nil nonempty
  rw [List.dropLast_append_of_ne_nil (by simp),
    dropLast_flatMap_append (List.cons_ne_nil first rest),
    intercalate_append_singleton (by simp),
    intercalate_append_singleton (List.cons_ne_nil first rest)]
  simp

/-! ## Reading a seed back -/

/-- The indices the seed's words stand at: the key's 24, then the two
checksum words', all below the list's length. -/
theorem seedWords_eq_map {language : Language}
    (valid : language.Valid) (src : Key) :
    ∃ tail : List Nat, (∀ j ∈ tail, j < language.wordList.length) ∧
      seedWords language src =
        ((seedIndices language.wordList.length.toUInt32 src 8 0).map
          UInt32.toNat ++ tail).map
          fun j => language.wordList.getD j [] := by
  have length := valid.toNat_length
  have indicesBelow := seedIndices_lt_length valid src
  set indices :=
    seedIndices language.wordList.length.toUInt32 src 8 0 with indicesDef
  have indicesLength : indices.length = 24 := length_seedIndices _ _ 8 0
  set stored :=
    indices.map fun w => language.wordList.getD w.toNat [] with storedDef
  -- the first checksum word is one of the 24 words, the second a word of the
  -- list
  have first : createChecksumIndex stored language.uniquePrefixLength <
      indices.length := by
    rw [indicesLength]
    exact Nat.mod_lt _ (by decide)
  have positive : 0 < language.wordList.length := by
    have := two_le_of_cube valid.toNat_length_lt valid.le_toNat_length_cube
    omega
  refine ⟨[(indices[createChecksumIndex stored
        language.uniquePrefixLength]).toNat,
      (createChecksumIndex2 (stored ++
          [stored.getD (createChecksumIndex stored
            language.uniquePrefixLength) []])
        language.uniquePrefixLength
        language.wordList.length.toUInt32).toNat], ?_, ?_⟩
  · intro j mem
    simp only [List.mem_cons, List.not_mem_nil, or_false] at mem
    rcases mem with rfl | rfl
    · exact indicesBelow _ (List.getElem_mem first)
    · rw [createChecksumIndex2, UInt32.toNat_mod, length]
      exact Nat.mod_lt _ positive
  · have checksum :
      stored.getD (createChecksumIndex stored language.uniquePrefixLength) [] =
        language.wordList.getD
          (indices[createChecksumIndex stored
            language.uniquePrefixLength]).toNat [] := by
      rw [List.getD_eq_getElem _ _ (by rwa [storedDef, List.length_map]),
        List.getElem_map]
    simp only [seedWords, ← indicesDef, ← storedDef, List.map_append,
      List.map_map, checksum]
    rfl

theorem length_seedWords (language : Language) (src : Key) :
    (seedWords language src).length = seedLength + 2 := by
  simp [seedWords, length_seedIndices, seedLength]

/-- Every word of a seed is a word of the list. -/
theorem mem_wordList_of_mem_seedWords {language : Language}
    (valid : language.Valid) {src : Key} {word : Bytes}
    (mem : word ∈ seedWords language src) : word ∈ language.wordList := by
  obtain ⟨tail, tailBelow, seed⟩ := seedWords_eq_map valid src
  rw [seed, List.mem_map] at mem
  obtain ⟨j, memJ, rfl⟩ := mem
  have below : j < language.wordList.length := by
    rcases List.mem_append.1 memJ with key | checksum
    · obtain ⟨w, memW, rfl⟩ := List.mem_map.1 key
      exact seedIndices_lt_length valid src w memW
    · exact tailBelow j checksum
  rw [List.getD_eq_getElem _ _ below]
  exact List.getElem_mem below

/-- `boost::algorithm::trim` leaves a text that starts and ends with no
white space. -/
theorem trim_of_ends {text : Bytes}
    (first : ∀ c ∈ text.head?, BlockchainDb.isSpace c = false)
    (last : ∀ c ∈ text.getLast?, BlockchainDb.isSpace c = false) :
    trim text = text := by
  have front : text.dropWhile BlockchainDb.isSpace = text := by
    rw [List.dropWhile_eq_self_iff]
    intro positive
    simpa using first text[0]
      (by simp [List.head?_eq_getElem?, List.getElem?_eq_getElem positive])
  have back : text.reverse.dropWhile BlockchainDb.isSpace = text.reverse := by
    rw [List.dropWhile_eq_self_iff]
    intro positive
    have lastByte : text.reverse[0] ∈ text.getLast? := by
      rw [← List.head?_reverse, List.head?_eq_getElem?,
        List.getElem?_eq_getElem positive]
      rfl
    simpa using last _ lastByte
  rw [trim, front, back, List.reverse_reverse]

/-- The text of a seed splits back into its words. -/
theorem splitOn_trim_seedWords {language : Language}
    (valid : language.Valid) (src : Key) :
    (trim ([32].intercalate (seedWords language src))).splitOn 32 =
      seedWords language src := by
  have plain : ∀ word ∈ seedWords language src, word ≠ [] ∧ ∀ c ∈ word, c ≠ 0 ∧
      BlockchainDb.isSpace c = false :=
    fun word mem =>
      let listed := mem_wordList_of_mem_seedWords valid mem
      ⟨valid.wordsNonempty word listed, valid.plainBytes word listed⟩
  have nonempty : seedWords language src ≠ [] := by
    rw [← List.length_pos_iff, length_seedWords]
    decide
  -- the text starts with the first word and ends with the last one
  obtain ⟨firstWord, rest, split⟩ := List.exists_cons_of_ne_nil nonempty
  obtain ⟨init, lastWord, splitLast⟩ :=
    (List.eq_nil_or_concat (seedWords language src)).resolve_left nonempty
  rw [List.concat_eq_append] at splitLast
  have startsWith : ∃ after, [32].intercalate (seedWords language src) =
      firstWord ++ after := by
    rw [split]
    cases rest with
    | nil => exact ⟨[], by simp⟩
    | cons second rest =>
        exact ⟨_, by rw [List.intercalate_cons_cons, List.append_assoc]⟩
  have endsWith : ∃ before, [32].intercalate (seedWords language src) =
      before ++ lastWord := by
    rw [splitLast]
    by_cases alone : init = []
    · exact ⟨[], by simp [alone]⟩
    · exact ⟨[32].intercalate init ++
        [32], by rw [intercalate_append_singleton alone]; simp⟩
  have firstPlain := plain firstWord (by rw [split]; exact List.mem_cons_self)
  have lastPlain := plain lastWord (by rw [splitLast]; simp)
  obtain ⟨after, starts⟩ := startsWith
  obtain ⟨before, ends⟩ := endsWith
  rw [trim_of_ends ?first ?last]
  · apply List.splitOn_intercalate
    · intro word mem space
      simpa [BlockchainDb.isSpace] using ((plain word mem).2 32 space).2
    · exact nonempty
  case first =>
    intro c mem
    rw [starts, List.head?_append_of_ne_nil _ firstPlain.1] at mem
    exact (firstPlain.2 c (List.mem_of_mem_head? mem)).2
  case last =>
    intro c mem
    rw [ends, List.getLast?_append_of_ne_nil _ lastPlain.1] at mem
    exact (lastPlain.2 c (List.mem_of_mem_getLast? mem)).2

theorem mapM_map_eq_some {f : Bytes → Option Nat} {word : Nat → Bytes} :
    ∀ {indices : List Nat}, (∀ j ∈ indices, f (word j) = some j) →
      (indices.map word).mapM f = some indices
  | [], _ => rfl
  | j :: rest, found => by
    rw [List.map_cons, List.mapM_cons, found j List.mem_cons_self,
      mapM_map_eq_some fun i mem => found i (List.mem_cons_of_mem j mem)]
    rfl

/-- The language a seed was written in finds every word at its index, so
`find_seed_language` stops there unless a language it tries first has every
word too. -/
theorem findSeedLanguage_seedWords {pre post : List Language}
    {language : Language} (valid : language.Valid) {src : Key}
    (unclaimed : findSeedLanguage pre (seedWords language src) true = none) :
    ∃ tail, findSeedLanguage (pre ++ language :: post)
    (seedWords language src) true =
      some ((seedIndices language.wordList.length.toUInt32 src 8 0).map
        UInt32.toNat ++ tail, language) := by
  obtain ⟨tail, tailBelow, seed⟩ := seedWords_eq_map valid src
  have indicesBelow := seedIndices_lt_length valid src
  refine ⟨tail, ?_⟩
  have found : (seedWords language src).mapM (fun word =>
      language.trimmedWordMap ( utf8prefix word language.uniquePrefixLength)) =
        some ((seedIndices language.wordList.length.toUInt32 src 8 0).map
          UInt32.toNat ++ tail) := by
    rw [seed]
    apply mapM_map_eq_some
    intro j mem
    apply valid.trimmedWordMap_utf8prefix_getD
    rcases List.mem_append.1 mem with key | checksum
    · obtain ⟨w, memW, rfl⟩ := List.mem_map.1 key
      exact indicesBelow w memW
    · exact tailBelow j checksum
  unfold findSeedLanguage at unclaimed ⊢
  rw [List.findSome?_append, unclaimed, Option.none_or, List.findSome?_cons]
  simp only [if_true, found, Option.map_some]

/-- Both checksum words of a seed pass their tests, whatever the hash. -/
theorem checksumTest2_seedWords (language : Language) (src : Key) :
    checksumTest2 (seedWords language src) language.uniquePrefixLength
      language.wordList = true := by
  simp only [seedWords]
  generalize (seedIndices _ src 8 0).map _ = stored
  simp only [checksumTest2, List.getLast?_concat, Option.getD_some,
    List.dropLast_concat, beq_self_eq_true]

theorem checksumTest_seedWords (language : Language) (src : Key) :
    checksumTest (seedWords language src).dropLast
      language.uniquePrefixLength = true := by
  simp only [seedWords]
  generalize (seedIndices _ src 8 0).map _ = stored
  simp only [checksumTest, List.dropLast_concat, List.getLast?_concat,
    Option.getD_some, beq_self_eq_true]

theorem getD_append_three (pre rest : List Nat) (a b c : Nat) :
    (pre ++ [a, b, c] ++ rest).getD pre.length 0 = a ∧
      (pre ++ [a, b, c] ++ rest).getD (pre.length + 1) 0 = b ∧
      (pre ++ [a, b, c] ++ rest).getD (pre.length + 2) 0 = c := by
  simp [List.getD_eq_getElem?_getD, List.append_assoc]

section Decode

variable {n : UInt32} (small : n.toNat < 2 ^ 16) (cube : 2 ^ 32 ≤ n.toNat ^ 3)
include small cube

/-- One round of the loop of `words_to_bytes` on the indices of a value:
the value is written, and the loop goes on. -/
theorem wordsToBytesLoop_group {matchedIndices : List Nat}
    {i : Nat} (val : UInt32)
    (first : matchedIndices.getD (i * 3) 0 = (encodeGroup n val).1.toNat)
    (second : matchedIndices.getD (i * 3 + 1) 0 = (encodeGroup n val).2.1.toNat)
    (third : matchedIndices.getD (i * 3 + 2) 0 = (encodeGroup n val).2.2.toNat)
    (count : Nat) (dst : Key) :
    wordsToBytesLoop n matchedIndices (count + 1) i dst =
      wordsToBytesLoop n matchedIndices count (i + 1)
    (writeUint32 dst (i * 4) val) := by
  rw [wordsToBytesLoop]
  simp only [first, second, third, UInt32.ofNat_toNat, Nat.toUInt32_eq]
  rw [groupValue_encodeGroup small cube, if_neg (by simp [encodeGroup])]

/-- The loop of `words_to_bytes` on the indices `bytes_to_words` wrote, from
group `i`: it runs to the end and leaves the key's bytes in the places of the
groups it reads, `dst`'s elsewhere. -/
theorem wordsToBytesLoop_seedIndices (src : Key) (rest : List Nat) :
    ∀ count i (pre : List Nat) (dst : Key),
    pre.length = i * 3 →
      (wordsToBytesLoop n
        (pre ++ (seedIndices n src count i).map UInt32.toNat ++ rest) count
          i dst).1 = true ∧
        ∀ p (inKey : p < 32),
          (wordsToBytesLoop n
            (pre ++ (seedIndices n src count i).map UInt32.toNat ++ rest) count
              i dst).2.bytes[p] =
            if i * 4 ≤ p ∧ p < (i + count) * 4 then src.bytes[p]
              else dst.bytes[p]
  | 0, i, pre, dst, _ => by
    refine ⟨rfl, fun p inKey => ?_⟩
    rw [if_neg (by omega)]
    rfl
  | count + 1, i, pre, dst, prefixLength => by
    -- the group's three indices follow the prefix
    have split : pre ++ (seedIndices n src (count + 1) i).map
        UInt32.toNat ++ rest =
        pre ++ [(encodeGroup n (readUint32 src (i * 4))).1.toNat,
          (encodeGroup n (readUint32 src (i * 4))).2.1.toNat,
            (encodeGroup n (readUint32 src (i * 4))).2.2.toNat] ++
            ((seedIndices n src count (i + 1)).map UInt32.toNat ++ rest) := by
      simp [seedIndices, encodeGroup]
    obtain ⟨at0, at1, at2⟩ :=
      getD_append_three pre
        ((seedIndices n src count (i + 1)).map UInt32.toNat ++ rest)
      (encodeGroup n (readUint32 src (i * 4))).1.toNat
        (encodeGroup n (readUint32 src (i * 4))).2.1.toNat
      (encodeGroup n (readUint32 src (i * 4))).2.2.toNat
    rw [prefixLength] at at0 at1 at2
    rw [split, wordsToBytesLoop_group small cube _ at0 at1 at2,
      ← List.append_assoc]
    generalize (encodeGroup n (readUint32 src (i * 4))).1.toNat = w1
    generalize (encodeGroup n (readUint32 src (i * 4))).2.1.toNat = w2
    generalize (encodeGroup n (readUint32 src (i * 4))).2.2.toNat = w3
    obtain ⟨finished, bytes⟩ :=
      wordsToBytesLoop_seedIndices src rest count (i + 1) (pre ++ [w1, w2, w3])
      (writeUint32 dst (i * 4) (readUint32 src (i * 4)))
        (by simp [prefixLength]; ring)
    refine ⟨finished, fun p inKey => ?_⟩
    rw [bytes p inKey, getElem_writeUint32 _ _ _ inKey]
    -- the group's own four places now hold the key's bytes
    by_cases own : i * 4 ≤ p ∧ p < i * 4 + 4
    · have byte := @readUint32_byte src (i * 4) (p - i * 4) (by omega)
      rw [Nat.add_sub_cancel' own.1,
        List.getD_eq_getElem _ _ (by simpa using inKey),
          Vector.getElem_toList] at byte
      rw [if_neg (by omega), if_pos own, if_pos (by omega), byte]
    · by_cases later : (i + 1) * 4 ≤ p ∧ p < (i + 1 + count) * 4
      · rw [if_pos later, if_pos (by omega)]
      · rw [if_neg later, if_neg own, if_neg (by omega)]

end Decode

/-! ## The round trip -/

/-- `words_to_bytes` on a text whose words pass every test before the loop:
what the loop returns, under the name of the language that found them. -/
theorem wordsToBytes_of_checked {languages : List Language} {words : Bytes}
    {seed : List Bytes} {matchedIndices : List Nat} {language : Language}
    (split : (trim words).splitOn 32 = seed)
    (length : seed.length = seedLength + 2)
    (found : findSeedLanguage languages seed true =
      some (matchedIndices, language))
    (checked2 : checksumTest2 seed language.uniquePrefixLength
      language.wordList = true)
    (checked : checksumTest seed.dropLast language.uniquePrefixLength = true)
    (dst : Key) (languageName : Bytes) :
    wordsToBytes languages words dst languageName =
      let loop :=
        wordsToBytesLoop language.wordList.length.toUInt32 matchedIndices
          (seed.dropLast.dropLast.length / 3) 0 dst
      (loop.1, loop.2, language.languageName) := by
  simp only [wordsToBytes, split, length, ne_eq, not_true_eq_false, if_false,
    found, checked2, checked, Bool.not_true, Bool.false_eq_true]

/-- `words_to_bytes` on the text of a seed: the text splits into the 26
words, `find_seed_language` finds them in the seed's language, both checksum
words pass and the loop writes every byte of the key back. -/
theorem wordsToBytes_seedWords {pre post : List Language} {language : Language}
    (valid : language.Valid) {src : Key}
    (unclaimed : findSeedLanguage pre (seedWords language src) true =
      none) (dst : Key)
    (languageName : Bytes) :
    wordsToBytes (pre ++ language :: post)
    ([32].intercalate (seedWords language src)) dst languageName =
      (true, src, language.languageName) := by
  obtain ⟨tail, found⟩ :=
    @findSeedLanguage_seedWords pre post language valid src unclaimed
  have groups : (seedWords language src).dropLast.dropLast.length / 3 = 8 := by
    rw [List.length_dropLast, List.length_dropLast, length_seedWords]
    rfl
  obtain ⟨finished, bytes⟩ :=
    wordsToBytesLoop_seedIndices valid.toNat_length_lt
      valid.le_toNat_length_cube src tail
    8 0 [] dst rfl
  rw [List.nil_append] at finished bytes
  have written : (wordsToBytesLoop language.wordList.length.toUInt32
      ((seedIndices language.wordList.length.toUInt32 src 8 0).map
        UInt32.toNat ++ tail) 8 0 dst).2 = src := by
    apply Key.eq_of_bytes_toList
    apply List.ext_getElem (by simp)
    intro p inKey _
    simp only [Vector.getElem_toList]
    rw [bytes p (by simpa using inKey), if_pos (by simp at inKey; omega)]
  rw [wordsToBytes_of_checked (splitOn_trim_seedWords valid src)
    (length_seedWords language src) found (checksumTest2_seedWords language src)
    (checksumTest_seedWords language src), groups]
  simp only [finished, written]

/-- The language `bytes_to_words` finds by a name no language before it has. -/
theorem find?_languageName {pre post : List Language} {language : Language}
    (named : language.languageName ∉ pre.map Language.languageName) :
    (pre ++ language :: post).find? (·.languageName == language.languageName) =
      some language := by
  have absent : pre.find? (·.languageName == language.languageName) = none := by
    rw [List.find?_eq_none]
    intro other mem same
    exact named (List.mem_map.2 ⟨other, mem, by simpa using same⟩)
  rw [List.find?_append, absent, Option.none_or]
  exact List.find?_cons_of_pos (by simp)

/-- Seeds round-trip: in a language whose word list `Language.Valid`
describes, `bytes_to_words` writes every key, and `words_to_bytes` reads the
text back to the key and the language, unless a language that
`find_seed_language` tries first also has every word's prefix. -/
theorem wordsToBytes_bytesToWords {pre post : List Language}
    {language : Language} (valid : language.Valid)
    (named : language.languageName ∉ pre.map Language.languageName) {src : Key}
    (unclaimed : findSeedLanguage pre (seedWords language src) true = none)
    (dst : Key) (languageName : Bytes) :
    (bytesToWords (pre ++ language :: post) src []
      language.languageName).1 = true ∧
      wordsToBytes (pre ++ language :: post)
    (bytesToWords (pre ++ language :: post) src [] language.languageName).2
        dst languageName = (true, src, language.languageName) := by
  rw [bytesToWords_eq (find?_languageName named), List.nil_append]
  exact ⟨rfl, wordsToBytes_seedWords valid unclaimed dst languageName⟩

/-! ## A word list the round trip holds for -/

/-- Word `j` of a list of `1626` three-letter words, `aaa` to `ciz`, the
length of the English list. -/
def letterWord (j : Nat) : Bytes :=
  [(97 + j / 676).toUInt8, (97 + j / 26 % 26).toUInt8, (97 + j % 26).toUInt8]

/-- A language of three-letter words, told apart by all three. -/
def letterLanguage (languageName : Bytes) : Language :=
  ⟨(List.range 1626).map letterWord, languageName, 3⟩

theorem wordList_letterLanguage (languageName : Bytes) :
    (letterLanguage languageName).wordList = (List.range 1626).map
      letterWord := by
  rw [letterLanguage]

theorem uniquePrefixLength_letterLanguage (languageName : Bytes) :
    (letterLanguage languageName).uniquePrefixLength = 3 := by
  rw [letterLanguage]

theorem toNat_letter {a : Nat} (small : a < 26) :
    (97 + a).toUInt8.toNat = 97 + a := by
  rw [Nat.toUInt8_eq, UInt8.toNat_ofNat', Nat.mod_eq_of_lt (by omega)]

theorem letterWord_injective {i j : Nat} (below : i < 1626) (belowJ : j < 1626)
    (same : letterWord i = letterWord j) :
    i = j := by
  simp only [letterWord, List.cons.injEq, and_true] at same
  obtain ⟨first, second, third⟩ := same
  have first := congrArg UInt8.toNat first
  have second := congrArg UInt8.toNat second
  have third := congrArg UInt8.toNat third
  rw [toNat_letter (by omega), toNat_letter (by omega)] at first second third
  omega

theorem mem_letterWord {j : Nat} (below : j < 1626) {c : UInt8}
    (mem : c ∈ letterWord j) :
    97 ≤ c.toNat ∧ c.toNat < 123 := by
  simp only [letterWord, List.mem_cons, List.not_mem_nil, or_false] at mem
  rcases mem with rfl | rfl | rfl <;> rw [toNat_letter (by omega)] <;> omega

theorem mem_letterLanguage {languageName word : Bytes}
    (mem : word ∈ (letterLanguage languageName).wordList) :
    ∃ j < 1626, letterWord j = word := by
  rw [wordList_letterLanguage, List.mem_map] at mem
  obtain ⟨j, below, rfl⟩ := mem
  exact ⟨j, List.mem_range.1 below, rfl⟩

theorem letterLanguage_valid (languageName : Bytes) :
    (letterLanguage languageName).Valid where
  trimmedDistinct := by
    have trimmed : ∀ word ∈ (List.range 1626).map letterWord,
        trimWord 3 word = word := by
      intro word mem
      obtain ⟨j, -, rfl⟩ := List.mem_map.1 mem
      simp [trimWord, letterWord]
    rw [wordList_letterLanguage, uniquePrefixLength_letterLanguage]
    rw [List.map_congr_left trimmed, List.map_id']
    exact List.nodup_range.map_on fun i mem j memJ =>
      letterWord_injective (List.mem_range.1 mem) (List.mem_range.1 memJ)
  wordsNonempty := by
    intro word mem
    obtain ⟨j, -, rfl⟩ := mem_letterLanguage mem
    simp [letterWord]
  plainBytes := by
    intro word mem c memC
    obtain ⟨j, below, rfl⟩ := mem_letterLanguage mem
    have letter := mem_letterWord below memC
    refine ⟨fun zero => by simp [zero] at letter, ?_⟩
    simp only [BlockchainDb.isSpace, Bool.or_eq_false_iff,
      Bool.and_eq_false_iff, decide_eq_false_iff_not, UInt8.not_le,
      UInt8.lt_iff_toNat_lt, ← UInt8.toNat_inj]
    show ¬c.toNat = 32 ∧ (c.toNat < 9 ∨ 13 < c.toNat)
    omega
  longEnough := by simp [letterLanguage]
  shortEnough := by simp [letterLanguage]

/-- A seed of bytes `5` written in the three-letter words and read back into
a key that held bytes `9`. -/
theorem wordsToBytes_bytesToWords_of_letters :
    (bytesToWords ([] ++ letterLanguage [101, 110] :: [])
      ⟨Vector.replicate 32 5⟩ []
    (letterLanguage [101, 110]).languageName).1 = true ∧
      wordsToBytes ([] ++ letterLanguage [101, 110] :: [])
          (bytesToWords ([] ++ letterLanguage [101, 110] :: [])
            ⟨Vector.replicate 32 5⟩ []
    (letterLanguage [101, 110]).languageName).2
          ⟨Vector.replicate 32 9⟩ [1] =
        (true, ⟨Vector.replicate 32 5⟩,
          (letterLanguage [101, 110]).languageName) :=
  @wordsToBytes_bytesToWords [] [] (letterLanguage [101, 110])
    (letterLanguage_valid _)
    (List.not_mem_nil) ⟨Vector.replicate 32 5⟩ rfl ⟨Vector.replicate 32 9⟩ [1]

end Mnemonics
end Citicash
