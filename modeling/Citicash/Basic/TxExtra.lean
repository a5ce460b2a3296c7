import Citicash.Serialization.BinaryArchive

/-!
# The `extra` field of a transaction

The fields of `tx_extra.h`, their loaders, `parse_tx_extra` and
`find_tx_extra_field_by_type` of `cryptonote_format_utils`, and the alias
registration that CitiCash carries in three extra nonces: the alias, the
aliased address and a signature, each behind its own marker byte.

`parse_tx_extra` reports failure but keeps the fields it read before the
failure; callers such as `get_tx_pub_key_from_extra` ignore the flag, so the
model returns both.
-/

namespace Citicash
namespace Cryptonote

open Serialization

/-- `std::string` contents. -/
abbrev Bytes := List UInt8

/-- `TX_EXTRA_PADDING_MAX_COUNT` and `TX_EXTRA_NONCE_MAX_COUNT`. -/
def txExtraPaddingMaxCount : Nat := 255
def txExtraNonceMaxCount : Nat := 255

/-- The variant tags of `tx_extra_field`. -/
def txExtraTagPadding : UInt8 := 0x00
def txExtraTagPubkey : UInt8 := 0x01
def txExtraNonce : UInt8 := 0x02
def txExtraMergeMiningTag : UInt8 := 0x03
def txExtraTagAdditionalPubkeys : UInt8 := 0x04
def txExtraMysteriousMinergateTag : UInt8 := 0xDE

/-- The first byte of an alias-registration nonce. -/
def txExtraNonceAlias : UInt8 := 0x02
def txExtraNonceAddress : UInt8 := 0x03
def txExtraNonceSignature : UInt8 := 0x04

/-- `config::MAX_ALIAS_LENGTH`. -/
def maxAliasLength : Nat := 42

structure TxExtraMergeMiningTag where
  depth : Nat
  merkleRoot : Hash
  deriving DecidableEq, Repr

/-- `tx_extra_field`, in the order of the C++ variant. -/
inductive TxExtraField
  | txExtraPadding (size : Nat)
  | txExtraPubKey (pubKey : PublicKey)
  | txExtraNonce (nonce : Bytes)
  | txExtraMergeMiningTag (tag : TxExtraMergeMiningTag)
  | txExtraAdditionalPubKeys (data : List PublicKey)
  | txExtraMysteriousMinergate (data : Bytes)
  deriving DecidableEq, Repr

/-! ## Loaders -/

/-- The loop of `tx_extra_padding::do_serialize`: zero bytes up to the end of
the stream, `left` rounds at most, counting from `size`. -/
def paddingLoop : Nat → Nat → Reader Nat
  | 0, size => pure size
  | left + 1, size => do
      if ← peekEof then pure size
      else
        let zero ← getByte
        if zero ≠ 0 then failStream else paddingLoop left (size + 1)

/-- `tx_extra_padding::do_serialize` on a loader; `size` counts the tag. -/
def readPadding : Reader Nat := do
  let size ← paddingLoop txExtraPaddingMaxCount 1
  if size ≤ txExtraPaddingMaxCount then pure size else failStream

/-- `tx_extra_nonce`: a string of at most 255 bytes. -/
def readNonce : Reader Bytes := do
  let nonce ← readString
  if txExtraNonceMaxCount < nonce.length then failStream else pure nonce

/-- `tx_extra_merge_mining_tag`: a string, parsed on its own as a varint
depth and a hash that must use it up. -/
def readMergeMiningTag : Reader TxExtraMergeMiningTag := do
  let field ← readString
  let helper : Reader TxExtraMergeMiningTag := do
    let depth ← serializeVarint 64
    let merkleRoot ← serializeKey
    pure ⟨depth, merkleRoot⟩
  match parseAll helper field with
  | some tag => pure tag
  | none => failStream

/-- The variant loader of `tx_extra_field`: a tag byte, then the matching
field; an unknown tag fails the stream. -/
def readTxExtraField : Reader TxExtraField := do
  let tag ← getByte
  if tag = txExtraTagPadding then .txExtraPadding <$> readPadding
  else if tag = txExtraTagPubkey then .txExtraPubKey <$> serializeKey
  else if tag = txExtraNonce then .txExtraNonce <$> readNonce
  else if tag = txExtraMergeMiningTag
         then .txExtraMergeMiningTag <$> readMergeMiningTag
  else if tag = txExtraTagAdditionalPubkeys then
    .txExtraAdditionalPubKeys <$> readVector serializeKey
  else if tag = txExtraMysteriousMinergateTag then
    .txExtraMysteriousMinergate <$> readString
  else failStream

/-- The loop of `parse_tx_extra`, at most `fuel` fields: fields are read
until the stream is at its end.  Returns the success flag and every field
read before a failure. -/
def parseTxExtraLoop : Nat → Bytes → List TxExtraField →
    Bool × List TxExtraField
  | 0, _, fields => (false, fields)
  | fuel + 1, input, fields =>
      match readTxExtraField.run input with
      | none => (false, fields)
      | some (field, rest) =>
          if rest.isEmpty then (true, fields ++ [field])
          else parseTxExtraLoop fuel rest (fields ++ [field])

/-- `parse_tx_extra`: an empty extra has no fields; otherwise every byte must
belong to a field.  Each field takes at least its tag byte, so the length of
the extra bounds the number of rounds. -/
def parseTxExtra (txExtra : Bytes) : Bool × List TxExtraField :=
  if txExtra.isEmpty then (true, [])
  else parseTxExtraLoop txExtra.length txExtra []

/-- `find_tx_extra_field_by_type<tx_extra_nonce>(fields, field, index)`: the
`index`-th nonce field. -/
def findNonce (fields : List TxExtraField) (index : Nat) : Option Bytes :=
  (fields.filterMap fun
    | .txExtraNonce nonce => some nonce
    | _ => none)[index]?

/-! ## Aliases -/

/-- One character of an alias after `convert_alias`: allowed characters are
kept, capitals are lowered, anything else rejects the alias. -/
def convertAliasChar (c : UInt8) : Option UInt8 :=
  if c = '-'.toNat.toUInt8 ∨ c = '_'.toNat.toUInt8 ∨ c = '.'.toNat.toUInt8 ∨
      c = '@'.toNat.toUInt8 ∨ ('0'.toNat.toUInt8 ≤ c ∧ c ≤ '9'.toNat.toUInt8) ∨
      ('a'.toNat.toUInt8 ≤ c ∧ c ≤ 'z'.toNat.toUInt8) then some c
  else if 'A'.toNat.toUInt8 ≤ c ∧ c ≤ 'Z'.toNat.toUInt8 then some (c + 32)
  else none

/-- `convert_alias`: too long or containing a bad character gives the empty
alias. -/
def convertAlias (name : Bytes) : Bytes :=
  if maxAliasLength < name.length then []
  else (name.mapM convertAliasChar).getD []

/-- The three nonces of an alias registration, each without its marker
byte: the alias still before `convert_alias`, the address, the
signature. -/
structure AliasNonces where
  name : Bytes
  address : Bytes
  signature : Bytes
  deriving DecidableEq, Repr

/-- A nonce whose first byte is `marker`, without that byte. -/
def stripMarker (marker : UInt8) : Option Bytes → Option Bytes
  | some (first :: rest) => if first = marker then some rest else none
  | _ => none

/-- The condition shared by `add_transaction_data`,
`remove_transaction_data`, `handle_block_to_main_chain` and the pool: the
extra parses, and its first three nonces carry the alias, address and
signature markers. -/
def aliasNonces (txExtra : Bytes) : Option AliasNonces :=
  let (parsed, fields) := parseTxExtra txExtra
  if parsed then do
    let name ← stripMarker txExtraNonceAlias (findNonce fields 0)
    let address ← stripMarker txExtraNonceAddress (findNonce fields 1)
    let signature ← stripMarker txExtraNonceSignature (findNonce fields 2)
    pure ⟨name, address, signature⟩
  else none

/-- The alias a transaction registers, after `convert_alias`; it may be
empty. -/
def registeredAlias (tx : Transaction) : Option Bytes :=
  (aliasNonces tx.extra).map fun nonces => convertAlias nonces.name

end Cryptonote
end Citicash
