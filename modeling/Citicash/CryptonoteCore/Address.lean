import Citicash.Common.Base58

/-!
# Address strings

`get_account_address_as_str` and `get_account_integrated_address_as_str` of
`cryptonote_basic_impl.cpp` write an address with `encode_addr` under one of
three network prefixes; `get_account_address_from_str` reads it back.  A
string of exactly `2 * sizeof(public_address_outer_blob)` letters is read
instead as the legacy hex blob, with its one-byte additive checksum.

The six prefixes of the two networks are distinct and no base58 address has
the legacy length (`length_getAccountAddressAsStr`), so an address parses back
on its own network to the keys, the subaddress flag and the payment id it was
written with, and fails on the other network
(`getAccountAddressFromStr_getAccountAddressAsStr`,
`getAccountAddressFromStr_getAccountIntegratedAddressAsStr`).  `cn_fast_hash`
and `check_key` are parameters: any function will do for the first, and the
second is assumed of the two keys.
-/

namespace Citicash
namespace CryptonoteCore

open Cryptonote Serialization

/-! ## Network constants -/

/-- `CRYPTONOTE_PUBLIC_ADDRESS_BASE58_PREFIX` of the main network, or of
`config::testnet`. -/
def cryptonotePublicAddressBase58Prefix (testnet : Bool) : UInt64 :=
  if testnet then 0x8f9d4 else 0x7b54

def cryptonotePublicIntegratedAddressBase58Prefix (testnet : Bool) : UInt64 :=
  if testnet then 0x3fb754 else 0x77d4

def cryptonotePublicSubaddressBase58Prefix (testnet : Bool) : UInt64 :=
  if testnet then 0x53754 else 0x7754

def cryptonotePublicAddressTextblobVer : UInt8 := 0

/-- `sizeof(public_address_outer_blob)`: version, two keys and checksum,
packed. -/
def publicAddressOuterBlobSize : Nat := 66

/-! ## Records and their serialization -/

/-- `address_parse_info`; the payment id stays empty unless the address
carries one. -/
structure AddressParseInfo where
  address : AccountPublicAddress
  isSubaddress : Bool
  hasPaymentId : Bool
  paymentId : List UInt8
  deriving DecidableEq, Repr

/-- `integrated_address` of `cryptonote_basic_impl.cpp`. -/
structure IntegratedAddress where
  adr : AccountPublicAddress
  paymentId : List UInt8
  deriving DecidableEq, Repr

/-- `account_public_address` on a saver: the spend key, then the view key. -/
def writeAccountPublicAddress (adr : AccountPublicAddress) : List UInt8 :=
  writeKey adr.spendPublicKey ++ writeKey adr.viewPublicKey

def readAccountPublicAddress : Reader AccountPublicAddress := do
  let spendPublicKey ← serializeKey
  let viewPublicKey ← serializeKey
  pure ⟨spendPublicKey, viewPublicKey⟩

def writeIntegratedAddress (iadr : IntegratedAddress) : List UInt8 :=
  writeAccountPublicAddress iadr.adr ++ writeString iadr.paymentId

def readIntegratedAddress : Reader IntegratedAddress := do
  let adr ← readAccountPublicAddress
  let paymentId ← readString
  pure ⟨adr, paymentId⟩

/-! ## The legacy hex form -/

/-- The value of a hexadecimal digit. -/
def hexDigit (c : Char) : Option Nat :=
  if '0' ≤ c ∧ c ≤ '9' then some (c.toNat - '0'.toNat)
  else if 'a' ≤ c ∧ c ≤ 'f' then some (c.toNat - 'a'.toNat + 10)
  else if 'A' ≤ c ∧ c ≤ 'F' then some (c.toNat - 'A'.toNat + 10)
  else none

/-- `isspace` in the C locale. -/
def isSpace (c : Char) : Bool :=
  c = ' ' || c = '\t' || c = '\n' || c = '\x0b' || c = '\x0c' || c = '\r'

/-- One byte of `parse_hexstr_to_binbuff`: `strtoul` in base 16 on two
characters, kept when it reads both and the value, stored in a `long`, lies in
`[0, 0xFF]`.  `strtoul` skips leading white space and reads a sign, so a
space or `+` before one digit is a byte, and so is `-0`; any other negative
value is below zero as a `long`. -/
def hexPairByte (first second : Char) : Option UInt8 :=
  match hexDigit first, hexDigit second with
  | some high, some low => some (high * 16 + low).toUInt8
  | none, some low =>
    if isSpace first || first = '+' then some low.toUInt8
    else if first = '-' && low = 0 then some 0
    else none
  | _, none => none

/-- `parse_hexstr_to_binbuff(s, res)`: two characters a byte; an odd length is
refused. -/
def parseHexstrToBinbuff : List Char → Option (List UInt8)
  | [] => some []
  | [_] => none
  | first :: second :: rest => do
    let byte ← hexPairByte first second
    let bytes ← parseHexstrToBinbuff rest
    pure (byte :: bytes)

/-- `get_account_address_checksum`: the sum of the blob's bytes but the last. -/
def getAccountAddressChecksum (blob : List UInt8) : UInt8 :=
  (blob.take (publicAddressOuterBlobSize - 1)).foldl (· + ·) 0

/-- The old address format of `get_account_address_from_str`: the hex of a
`public_address_outer_blob`, whose keys are not checked. -/
def getLegacyAccountAddress (str : List Char) : Option AddressParseInfo := do
  let buff ← parseHexstrToBinbuff str
  if buff.length ≠ publicAddressOuterBlobSize then none
  else if buff.getD 0 0 > cryptonotePublicAddressTextblobVer then none
  else if buff.getD (publicAddressOuterBlobSize - 1) 0 ≠
         getAccountAddressChecksum buff then none
  else
    let address ← parseAll readAccountPublicAddress ((buff.drop 1).take 64)
    pure ⟨address, false, false, []⟩

/-! ## Address strings -/

section Strings

variable (cnFastHash : List UInt8 → Hash) (checkKey : PublicKey → Bool)

/-- `get_account_address_as_str(testnet, subaddress, adr)`. -/
def getAccountAddressAsStr (testnet subaddress : Bool)
    (adr : AccountPublicAddress) : List Char :=
  let addressPrefix :=
    if subaddress then cryptonotePublicSubaddressBase58Prefix testnet
    else cryptonotePublicAddressBase58Prefix testnet
  Base58.encodeAddr cnFastHash addressPrefix (writeAccountPublicAddress adr)

/-- `get_account_integrated_address_as_str(testnet, subaddress, adr,
payment_id)`; the subaddress flag is not read. -/
def getAccountIntegratedAddressAsStr (testnet _subaddress : Bool)
    (adr : AccountPublicAddress) (paymentId : List UInt8) : List Char :=
  let integratedAddressPrefix :=
    cryptonotePublicIntegratedAddressBase58Prefix testnet
  Base58.encodeAddr cnFastHash integratedAddressPrefix
    (writeIntegratedAddress ⟨adr, paymentId⟩)

/-- `get_account_address_from_str(info, testnet, str)`: the parsed address, or
`none` where it returns false. -/
def getAccountAddressFromStr (testnet : Bool) (str : List Char) :
    Option AddressParseInfo :=
  let addressPrefix := cryptonotePublicAddressBase58Prefix testnet
  let integratedAddressPrefix :=
    cryptonotePublicIntegratedAddressBase58Prefix testnet
  let subaddressPrefix := cryptonotePublicSubaddressBase58Prefix testnet
  if 2 * publicAddressOuterBlobSize ≠ str.length then do
    let (decodedPrefix, data) ← Base58.decodeAddr cnFastHash str
    let (isSubaddress, hasPaymentId) ←
      if integratedAddressPrefix = decodedPrefix then some (false, true)
      else if addressPrefix = decodedPrefix then some (false, false)
      else if subaddressPrefix = decodedPrefix then some (true, false)
      else none
    let (address, paymentId) ←
      if hasPaymentId then
        (parseAll readIntegratedAddress data).map fun iadr =>
          (iadr.adr, iadr.paymentId)
      else (parseAll readAccountPublicAddress data).map
             fun address => (address, [])
    if !checkKey address.spendPublicKey ||
      !checkKey address.viewPublicKey then none
    else some ⟨address, isSubaddress, hasPaymentId, paymentId⟩
  else getLegacyAccountAddress str

end Strings

/-! ## Reading back what was written -/

theorem parseAll_readAccountPublicAddress (adr : AccountPublicAddress) :
    parseAll readAccountPublicAddress
      (writeAccountPublicAddress adr) = some adr := by
  have view := serializeKey_run [] adr.viewPublicKey
  rw [List.append_nil] at view
  simp only [parseAll, readAccountPublicAddress, writeAccountPublicAddress,
    StateT.run_bind, serializeKey_run, view, Option.bind_eq_bind,
    Option.bind_some, StateT.run_pure,
    Option.pure_def]

theorem parseAll_readIntegratedAddress (iadr : IntegratedAddress)
    (fits : iadr.paymentId.length < 2 ^ 64) :
    parseAll readIntegratedAddress
      (writeIntegratedAddress iadr) = some iadr := by
  have paymentId := readString_run [] iadr.paymentId fits
  rw [List.append_nil] at paymentId
  simp only [parseAll, readIntegratedAddress, readAccountPublicAddress,
    writeIntegratedAddress, writeAccountPublicAddress, List.append_assoc,
    StateT.run_bind, serializeKey_run, paymentId,
    Option.bind_eq_bind, Option.bind_some, StateT.run_pure, Option.pure_def]

/-! ## Lengths: no base58 address is a legacy one -/

/-- Every prefix of either network is a three-byte varint but the test
network's integrated one, which takes four. -/
theorem length_writeVarint_prefixes (testnet : Bool) :
    (writeVarint
      (cryptonotePublicAddressBase58Prefix testnet).toNat).length = 3 ∧
        (writeVarint
          (cryptonotePublicSubaddressBase58Prefix testnet).toNat).length = 3 ∧
      (writeVarint
        (cryptonotePublicIntegratedAddressBase58Prefix testnet).toNat).length =
          if testnet then 4 else 3 := by
  cases testnet <;> decide

theorem length_getAccountAddressAsStr (cnFastHash : List UInt8 → Hash)
    (testnet subaddress : Bool) (adr : AccountPublicAddress) :
    (getAccountAddressAsStr cnFastHash testnet subaddress adr).length = 98 := by
  obtain ⟨address, subaddressPrefix, -⟩ := length_writeVarint_prefixes testnet
  have varint :
      (getVarintData
        (if subaddress then cryptonotePublicSubaddressBase58Prefix testnet
           else cryptonotePublicAddressBase58Prefix testnet).toNat).length =
             3 := by
    cases subaddress <;> assumption
  simp only [getAccountAddressAsStr, Base58.encodeAddr, Base58.length_encode,
    List.length_append, varint, writeAccountPublicAddress, writeKey,
    Vector.length_toList, List.length_take,
    Base58.addrChecksumSize]
  rfl

theorem length_getAccountIntegratedAddressAsStr (cnFastHash : List UInt8 → Hash)
    (testnet subaddress : Bool) (adr : AccountPublicAddress)
    {paymentId : List UInt8} (eight : paymentId.length = 8) :
    (getAccountIntegratedAddressAsStr cnFastHash testnet subaddress adr
      paymentId).length = if testnet then 112 else 110 := by
  obtain ⟨-, -, integrated⟩ := length_writeVarint_prefixes testnet
  simp only [getAccountIntegratedAddressAsStr, Base58.encodeAddr,
    Base58.length_encode, List.length_append, getVarintData, integrated,
    writeIntegratedAddress,
    writeAccountPublicAddress, writeString, writeKey, Vector.length_toList,
      List.length_take,
    Base58.addrChecksumSize, eight]
  cases testnet <;> rfl

/-! ## Round trips -/

section RoundTrips

variable (cnFastHash : List UInt8 → Hash) (checkKey : PublicKey → Bool)
  {adr : AccountPublicAddress}
    (spendChecked : checkKey adr.spendPublicKey = true)
  (viewChecked : checkKey adr.viewPublicKey = true)
include spendChecked viewChecked

/-- An address parses back on its own network, and not on the other. -/
theorem getAccountAddressFromStr_getAccountAddressAsStr
    (testnet subaddress : Bool) :
    getAccountAddressFromStr cnFastHash checkKey testnet
      (getAccountAddressAsStr cnFastHash testnet subaddress adr) =
        some ⟨adr, subaddress, false, []⟩ ∧
      getAccountAddressFromStr cnFastHash checkKey (!testnet)
        (getAccountAddressAsStr cnFastHash testnet subaddress adr) = none := by
  have length := length_getAccountAddressAsStr cnFastHash testnet subaddress adr
  unfold getAccountAddressFromStr
  rw [length, if_pos (by decide), if_pos (by decide)]
  unfold getAccountAddressAsStr
  rw [Base58.decodeAddr_encodeAddr]
  cases testnet <;> cases subaddress <;>
    simp [cryptonotePublicAddressBase58Prefix,
      cryptonotePublicIntegratedAddressBase58Prefix,
      cryptonotePublicSubaddressBase58Prefix,
      parseAll_readAccountPublicAddress, spendChecked,
      viewChecked]

/-- An integrated address with an eight-byte payment id parses back on its own
network, with the id, and not on the other. -/
theorem getAccountAddressFromStr_getAccountIntegratedAddressAsStr
    (testnet subaddress : Bool) {paymentId : List UInt8}
    (eight : paymentId.length = 8) :
    getAccountAddressFromStr cnFastHash checkKey testnet
        (getAccountIntegratedAddressAsStr cnFastHash testnet subaddress
          adr paymentId) =
      some ⟨adr, false, true, paymentId⟩ ∧
      getAccountAddressFromStr cnFastHash checkKey (!testnet)
        (getAccountIntegratedAddressAsStr cnFastHash testnet subaddress adr
          paymentId) = none := by
  have length :=
    length_getAccountIntegratedAddressAsStr cnFastHash testnet
      subaddress adr eight
  have parsed :=
    parseAll_readIntegratedAddress ⟨adr, paymentId⟩ (by rw [eight]; decide)
  unfold getAccountAddressFromStr
  rw [length, if_pos (by cases testnet <;> decide),
    if_pos (by cases testnet <;> decide)]
  unfold getAccountIntegratedAddressAsStr
  rw [Base58.decodeAddr_encodeAddr]
  cases testnet <;>
    simp [cryptonotePublicAddressBase58Prefix,
      cryptonotePublicIntegratedAddressBase58Prefix,
      cryptonotePublicSubaddressBase58Prefix, parsed, spendChecked, viewChecked]

end RoundTrips

/-! ## The letters of an accepted string -/

/-- A byte of the legacy form is two hex digits, or one after a space or a
sign. -/
theorem hexPairByte_letters {first second : Char} {byte : UInt8}
    (parsed : hexPairByte first second = some byte) :
    ((hexDigit first).isSome ∨ isSpace first ∨ first = '+' ∨ first = '-') ∧
      (hexDigit second).isSome := by
  unfold hexPairByte at parsed
  split at parsed
  · rename_i high low firstDigit secondDigit
    simp [firstDigit, secondDigit]
  · rename_i low firstDigit secondDigit
    refine ⟨?_, by simp [secondDigit]⟩
    by_cases signed : isSpace first || first = '+'
    · simp only [Bool.or_eq_true, decide_eq_true_eq] at signed
      tauto
    · rw [if_neg signed] at parsed
      split at parsed
      · simp_all
      · cases parsed
  · cases parsed

theorem parseHexstrToBinbuff_letters {str : List Char} {buff : List UInt8}
    (parsed : parseHexstrToBinbuff str = some buff) :
    ∀ c ∈ str, (hexDigit c).isSome ∨ isSpace c ∨ c = '+' ∨ c = '-' := by
  fun_induction parseHexstrToBinbuff str generalizing buff with
  | case1 => simp
  | case2 => cases parsed
  | case3 first second rest ih =>
    cases pair : hexPairByte first second with
    | none => simp [pair] at parsed
    | some byte =>
      cases restParsed : parseHexstrToBinbuff rest with
      | none => simp [pair, restParsed] at parsed
      | some bytes =>
        obtain ⟨firstLetter, secondLetter⟩ := hexPairByte_letters pair
        intro c member
        rcases List.mem_cons.1 member with rfl | member
        · exact firstLetter
        rcases List.mem_cons.1 member with rfl | member
        · exact Or.inl secondLetter
        · exact ih restParsed c member

/-- An accepted address string holds only base58 letters or, in the legacy
form, hex digits, white space and signs. -/
theorem getAccountAddressFromStr_letters (cnFastHash : List UInt8 → Hash)
    (checkKey : PublicKey → Bool) {testnet : Bool} {str : List Char}
    {info : AddressParseInfo}
    (accepted : getAccountAddressFromStr cnFastHash checkKey testnet
      str = some info) :
    ∀ c ∈ str, c ∈ Base58.alphabet ∨ (hexDigit c).isSome ∨ isSpace c ∨
      c = '+' ∨ c = '-' := by
  unfold getAccountAddressFromStr at accepted
  split at accepted
  · cases decoded : Base58.decodeAddr cnFastHash str with
    | none => simp [decoded] at accepted
    | some tagged =>
      exact fun c member =>
        Or.inl (Base58.mem_alphabet_of_decodeAddr cnFastHash decoded c member)
  · cases legacy : parseHexstrToBinbuff str with
    | none => simp [getLegacyAccountAddress, legacy] at accepted
    | some buff =>
        exact fun c member =>
          Or.inr (parseHexstrToBinbuff_letters legacy c member)

/-- Address strings of either kind parse back on their network, to the keys,
the subaddress flag and the payment id they were written with, and are
refused on the other network. -/
theorem address_strings_roundtrip (cnFastHash : List UInt8 → Hash)
    (checkKey : PublicKey → Bool) (adr : AccountPublicAddress)
    (spendChecked : checkKey adr.spendPublicKey = true)
    (viewChecked : checkKey adr.viewPublicKey = true)
    (testnet subaddress : Bool) :
    (getAccountAddressFromStr cnFastHash checkKey testnet
          (getAccountAddressAsStr cnFastHash testnet subaddress adr) =
        some ⟨adr, subaddress, false, []⟩ ∧
      getAccountAddressFromStr cnFastHash checkKey (!testnet)
          (getAccountAddressAsStr cnFastHash testnet subaddress adr) = none) ∧
    ∀ paymentId : List UInt8, paymentId.length = 8 →
      getAccountAddressFromStr cnFastHash checkKey testnet
          (getAccountIntegratedAddressAsStr cnFastHash testnet false
            adr paymentId) =
        some ⟨adr, false, true, paymentId⟩ ∧
      getAccountAddressFromStr cnFastHash checkKey (!testnet)
          (getAccountIntegratedAddressAsStr cnFastHash testnet false adr
            paymentId) = none :=
  ⟨getAccountAddressFromStr_getAccountAddressAsStr cnFastHash checkKey
    spendChecked viewChecked testnet subaddress,
    fun _ eight => getAccountAddressFromStr_getAccountIntegratedAddressAsStr
      cnFastHash checkKey
      spendChecked viewChecked testnet false eight⟩

/-- The all-zero keys on the main network, with a hash that is always zero and
a key check that accepts everything. -/
theorem address_strings_roundtrip_on_zero_keys :
    (fun _ => true : PublicKey → Bool)
    (default : AccountPublicAddress).spendPublicKey = true ∧
    (fun _ => true : PublicKey → Bool)
    (default : AccountPublicAddress).viewPublicKey = true ∧
    (getAccountAddressFromStr (fun _ => default) (fun _ => true) false
          (getAccountAddressAsStr (fun _ => default) false false
            (default : AccountPublicAddress)) =
        some ⟨(default : AccountPublicAddress), false, false, []⟩ ∧
      getAccountAddressFromStr (fun _ => default) (fun _ => true) (!false)
          (getAccountAddressAsStr (fun _ => default) false false
            (default : AccountPublicAddress)) = none) ∧
    ∀ paymentId : List UInt8, paymentId.length = 8 →
      getAccountAddressFromStr (fun _ => default) (fun _ => true) false
          (getAccountIntegratedAddressAsStr (fun _ => default) false false
            (default : AccountPublicAddress) paymentId) =
        some ⟨(default : AccountPublicAddress), false, true, paymentId⟩ ∧
      getAccountAddressFromStr (fun _ => default) (fun _ => true) (!false)
          (getAccountIntegratedAddressAsStr (fun _ => default) false false
            (default : AccountPublicAddress) paymentId) = none :=
  ⟨rfl, rfl, address_strings_roundtrip (fun _ => default) (fun _ => true)
    default rfl rfl false false⟩

end CryptonoteCore
end Citicash
