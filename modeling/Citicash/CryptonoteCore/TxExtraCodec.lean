import Citicash.Basic.TxExtra
import Citicash.Serialization.Varint

/-!
# The tx extra codec

The saver of `tx_extra_field` (`tx_extra.h`) and the functions of
`cryptonote_format_utils` that edit an extra: `add_tx_pub_key_to_extra`,
`add_additional_tx_pub_keys_to_extra`, `add_extra_nonce_to_tx_extra` and
`remove_field_from_tx_extra`.

The saver and `parse_tx_extra` agree on the saver's side: a list of fields
within the saver's bounds, with padding (which the loader runs to the end of
the extra) only last, is read back from its bytes
(`parseTxExtra_writeTxExtraFields`).  Every list `parse_tx_extra` returns is
such a list (`parseTxExtra_writable`), so on a nonempty extra that parses,
`remove_field_from_tx_extra` succeeds and leaves an extra that parses as the
fields of the other types, in their order
(`parseTxExtra_removeFieldFromTxExtra`).  Each `add` function appends a field
that parses behind the saver's bytes of fields without padding
(`parseTxExtra_add`), a nonce only below 128 bytes.

The other direction fails (`txExtra_codec_not_exact`).  The loader takes
non-canonical varints, so the bytes of a parsed extra need not be the saver's
bytes for its fields; `remove_field_from_tx_extra` has no case for the empty
extra that `parse_tx_extra` accepts; a field added behind padding is read as
more padding; and `add_extra_nonce_to_tx_extra` writes the nonce length as one
byte, which is its varint only below 128.
-/

namespace Citicash
namespace Cryptonote

open Serialization

/-! ## Field types and the saver -/

/-- The alternatives of `tx_extra_field`, as `field.type()` tells them apart. -/
inductive TxExtraFieldType
  | txExtraPadding
  | txExtraPubKey
  | txExtraNonce
  | txExtraMergeMiningTag
  | txExtraAdditionalPubKeys
  | txExtraMysteriousMinergate
  deriving DecidableEq, Repr

/-- `field.type()`. -/
def TxExtraField.type : TxExtraField → TxExtraFieldType
  | .txExtraPadding _ => .txExtraPadding
  | .txExtraPubKey _ => .txExtraPubKey
  | .txExtraNonce _ => .txExtraNonce
  | .txExtraMergeMiningTag _ => .txExtraMergeMiningTag
  | .txExtraAdditionalPubKeys _ => .txExtraAdditionalPubKeys
  | .txExtraMysteriousMinergate _ => .txExtraMysteriousMinergate

/-- What the saver of `tx_extra_field` writes: the variant tag, then the field.
Padding writes a zero for each of its bytes but the tag; the merge mining tag
writes its depth and root as one string; the additional keys are a vector, a
varint count and the keys.  The saver refuses padding of more than
`TX_EXTRA_PADDING_MAX_COUNT` bytes and a nonce of more than
`TX_EXTRA_NONCE_MAX_COUNT`; the functions modelled here save only fields the
loader has just read or additional keys, which pass both checks. -/
def writeTxExtraField : TxExtraField → Bytes
  | .txExtraPadding size => txExtraTagPadding :: List.replicate (size - 1) 0
  | .txExtraPubKey pubKey => txExtraTagPubkey :: writeKey pubKey
  | .txExtraNonce nonce => txExtraNonce :: writeString nonce
  | .txExtraMergeMiningTag tag =>
    txExtraMergeMiningTag ::
      writeString (writeVarint tag.depth ++ writeKey tag.merkleRoot)
  | .txExtraAdditionalPubKeys data =>
    txExtraTagAdditionalPubkeys ::
      (writeVarint data.length ++ data.flatMap writeKey)
  | .txExtraMysteriousMinergate data =>
      txExtraMysteriousMinergateTag :: writeString data

/-- Fields saved one after another, as `remove_field_from_tx_extra` writes
them. -/
def writeTxExtraFields (fields : List TxExtraField) : Bytes :=
  fields.flatMap writeTxExtraField

/-- The bounds under which the loader reads a saved field back: the saver's
checks on padding and nonce sizes, padding at least its tag, and counts and
depths that a `size_t` holds. -/
def TxExtraField.Fits : TxExtraField → Prop
  | .txExtraPadding size => 1 ≤ size ∧ size ≤ txExtraPaddingMaxCount
  | .txExtraPubKey _ => True
  | .txExtraNonce nonce => nonce.length ≤ txExtraNonceMaxCount
  | .txExtraMergeMiningTag tag => tag.depth < 2 ^ 64
  | .txExtraAdditionalPubKeys data => data.length < 2 ^ 64
  | .txExtraMysteriousMinergate data => data.length < 2 ^ 64

instance TxExtraField.decidableFits :
    (field : TxExtraField) → Decidable field.Fits
  | .txExtraPadding size =>
    inferInstanceAs (Decidable (1 ≤ size ∧ size ≤ txExtraPaddingMaxCount))
  | .txExtraPubKey _ => inferInstanceAs (Decidable True)
  | .txExtraNonce nonce =>
      inferInstanceAs (Decidable (nonce.length ≤ txExtraNonceMaxCount))
  | .txExtraMergeMiningTag tag =>
      inferInstanceAs (Decidable (tag.depth < 2 ^ 64))
  | .txExtraAdditionalPubKeys data =>
      inferInstanceAs (Decidable (data.length < 2 ^ 64))
  | .txExtraMysteriousMinergate data =>
      inferInstanceAs (Decidable (data.length < 2 ^ 64))

/-- Field lists whose saved bytes `parse_tx_extra` reads back as the same
list: every field fits, and a padding field, which the loader runs to the end
of the extra, has nothing behind it. -/
inductive WritableFields : List TxExtraField → Prop
  | nil : WritableFields []
  | cons {field : TxExtraField} {fields : List TxExtraField} (fits : field.Fits)
      (paddingLast : field.type = .txExtraPadding → fields = [])
    (rest : WritableFields fields) :
      WritableFields (field :: fields)

/-! ## Editing an extra -/

/-- `add_tx_pub_key_to_extra(tx, tx_pub_key)`: the pubkey tag and the key's
bytes written past the end of `tx.extra`. -/
def addTxPubKeyToExtra (tx : Transaction)
    (txPubKey : PublicKey) : Transaction :=
  { tx with extra := tx.extra ++ txExtraTagPubkey :: writeKey txPubKey }

/-- `add_additional_tx_pub_keys_to_extra(tx_extra, additional_pub_keys)`: the
field saved on its own and appended; its saver has no check that fails. -/
def addAdditionalTxPubKeysToExtra (txExtra : Bytes)
    (additionalPubKeys : List PublicKey) : Bytes :=
  txExtra ++ writeTxExtraField (.txExtraAdditionalPubKeys additionalPubKeys)

/-- `add_extra_nonce_to_tx_extra(tx_extra, extra_nonce)`: a nonce of more than
`TX_EXTRA_NONCE_MAX_COUNT` bytes is refused and the extra left as it is;
otherwise the nonce tag, the length cast to one byte, and the nonce. -/
def addExtraNonceToTxExtra (txExtra extraNonce : Bytes) : Option Bytes :=
  if txExtraNonceMaxCount < extraNonce.length then none
  else some (txExtra ++ txExtraNonce :: extraNonce.length.toUInt8 :: extraNonce)

/-- The loop of `remove_field_from_tx_extra`, at most `fuel` fields: each field
read is saved to the new extra unless it has the type removed, until the input
is at its end; a field that fails to load fails the call. -/
def removeFieldLoop (type : TxExtraFieldType) :
    Nat → Bytes → Bytes → Option Bytes
  | 0, _, _ => none
  | fuel + 1, input, out =>
    match readTxExtraField.run input with
    | none => none
    | some (field, rest) =>
      let out :=
        if field.type ≠ type then out ++ writeTxExtraField field else out
      if rest.isEmpty then some out else removeFieldLoop type fuel rest out

/-- `remove_field_from_tx_extra(tx_extra, type)`: the rewritten extra, or
`none` for the C++ `false`, which leaves the extra untouched.  Unlike
`parse_tx_extra` it has no case for the empty extra, whose first read fails.
Each field takes its tag byte, so one round more than the extra has bytes
lets the loop reach every read. -/
def removeFieldFromTxExtra (txExtra : Bytes)
    (type : TxExtraFieldType) : Option Bytes :=
  removeFieldLoop type (txExtra.length + 1) txExtra []

/-! ## The saver's bytes -/

@[simp] theorem writeTxExtraFields_nil : writeTxExtraFields [] = [] := rfl

@[simp] theorem writeTxExtraFields_cons (field : TxExtraField)
    (fields : List TxExtraField) :
    writeTxExtraFields (field :: fields) = writeTxExtraField field ++
      writeTxExtraFields fields :=
  List.flatMap_cons

theorem writeTxExtraFields_append (fields more : List TxExtraField) :
    writeTxExtraFields (fields ++ more) = writeTxExtraFields fields ++
      writeTxExtraFields more :=
  List.flatMap_append

theorem writeTxExtraField_ne_nil (field : TxExtraField) :
    writeTxExtraField field ≠ [] := by
  cases field <;> simp [writeTxExtraField]

theorem writeTxExtraFields_eq_nil {fields : List TxExtraField} :
    writeTxExtraFields fields = [] ↔ fields = [] := by
  cases fields with
  | nil => simp
  | cons field fields => simp [writeTxExtraField_ne_nil]

/-- Each saved field takes at least its tag byte. -/
theorem length_le_writeTxExtraFields (fields : List TxExtraField) :
    fields.length ≤ (writeTxExtraFields fields).length := by
  induction fields with
  | nil => simp
  | cons field fields ih =>
    have tag := List.length_pos_iff.2 (writeTxExtraField_ne_nil field)
    simp only [writeTxExtraFields_cons, List.length_cons, List.length_append]
    omega

theorem length_flatMap_writeKey (keys : List PublicKey) :
    (keys.flatMap writeKey).length = 32 * keys.length := by
  induction keys with
  | nil => simp
  | cons key keys ih =>
    simp only [List.flatMap_cons, List.length_append, List.length_cons, ih]
    simp only [writeKey, Vector.length_toList]
    ring

/-! ## Loading one field -/

theorem run_map_eq_some {f : α → β} {reader : Reader α}
    {input rest : Bytes} {value : β}
    (read : (f <$> reader).run input = some (value, rest)) :
    ∃ loaded, reader.run input = some (loaded, rest) ∧ f loaded = value := by
  rw [StateT.run_map] at read
  cases run : reader.run input with
  | none => simp [run] at read
  | some result =>
    simp only [run, Option.map_eq_map, Option.map_some, Option.some.injEq,
      Prod.mk.injEq] at read
    exact ⟨result.1, by rw [← read.2], read.1⟩

theorem paddingLoop_nil (left size : Nat) :
    (paddingLoop left size).run [] = some (size, []) := by
  cases left <;> rfl

theorem paddingLoop_cons (left size : Nat) (byte : UInt8) (input : Bytes) :
    (paddingLoop (left + 1) size).run (byte :: input) =
      if byte = 0 then (paddingLoop left (size + 1)).run input else none := by
  by_cases zero : byte = 0
  · subst zero
    rfl
  · rw [if_neg zero]
    simp [paddingLoop, peekEof, getByte, failStream, zero, StateT.run,
      bind, StateT.bind]

/-- The padding loop on the zeros the saver writes: it takes them all. -/
theorem paddingLoop_replicate :
    ∀ left size count, count ≤ left →
      (paddingLoop left size).run (List.replicate count 0) =
        some (size + count, [])
  | left, size, 0, _ => paddingLoop_nil left size
  | left + 1, size, count + 1, within => by
    rw [List.replicate_succ, paddingLoop_cons, if_pos rfl,
      paddingLoop_replicate left (size + 1) count (by omega),
        Nat.add_right_comm]
    rfl

/-- The padding loop stops at the end of its input, or after `left` zeros. -/
theorem paddingLoop_spec :
    ∀ left size {input : Bytes} {value : Nat} {rest : Bytes},
      (paddingLoop left size).run input = some (value, rest) →
        size ≤ value ∧ value ≤ size + left ∧ (rest = [] ∨ value = size + left)
  | 0, size, input, value, rest, read => by
    simp only [paddingLoop, StateT.run_pure, Option.pure_def, Option.some.injEq,
      Prod.mk.injEq] at read
    omega
  | left + 1, size, [], value, rest, read => by
    rw [paddingLoop_nil] at read
    simp only [Option.some.injEq, Prod.mk.injEq] at read
    obtain ⟨rfl, rfl⟩ := read
    exact ⟨le_rfl, by omega, .inl rfl⟩
  | left + 1, size, byte :: input, value, rest, read => by
    rw [paddingLoop_cons] at read
    split at read
    · obtain ⟨above, below, ended⟩ := paddingLoop_spec left (size + 1) read
      exact ⟨by omega, by omega, ended.imp_right fun full => by omega⟩
    · cases read

theorem readPadding_eq (input : Bytes) :
    readPadding.run input =
      ((paddingLoop txExtraPaddingMaxCount 1).run input).bind
        fun (size, rest) =>
        if size ≤ txExtraPaddingMaxCount then some (size, rest) else none := by
  simp only [readPadding, StateT.run_bind, Option.bind_eq_bind]
  congr 1
  funext ⟨size, rest⟩
  split <;> rfl

theorem readPadding_run {size : Nat} (positive : 1 ≤ size)
    (bounded : size ≤ txExtraPaddingMaxCount) :
    readPadding.run (List.replicate (size - 1) 0) = some (size, []) := by
  have zeros : size - 1 ≤ txExtraPaddingMaxCount := by omega
  rw [readPadding_eq, paddingLoop_replicate _ 1 (size - 1) zeros,
    show 1 + (size - 1) = size by omega, Option.bind_some]
  exact if_pos bounded

/-- A padding field the loader accepts is within its bounds and has taken
the input to its end: the loop stopped at the end and not after its last
round, which would make the size one too many. -/
theorem readPadding_spec {input rest : Bytes} {size : Nat}
    (read : readPadding.run input = some (size, rest)) :
    1 ≤ size ∧ size ≤ txExtraPaddingMaxCount ∧ rest = [] := by
  rw [readPadding_eq, Option.bind_eq_some_iff] at read
  obtain ⟨⟨loaded, left⟩, loop, checked⟩ := read
  dsimp only at checked
  split at checked
  · rename_i bounded
    simp only [Option.some.injEq, Prod.mk.injEq] at checked
    obtain ⟨rfl, rfl⟩ := checked
    obtain ⟨atLeast, -, ended⟩ := paddingLoop_spec _ 1 loop
    exact ⟨atLeast, bounded, ended.resolve_right fun full => by omega⟩
  · cases checked

theorem readNonce_run (nonce rest : Bytes)
    (bounded : nonce.length ≤ txExtraNonceMaxCount) :
    readNonce.run (writeString nonce ++ rest) = some (nonce, rest) := by
  have fits : nonce.length < 2 ^ 64 := by
    simp only [txExtraNonceMaxCount] at bounded
    omega
  simp only [readNonce, StateT.run_bind, readString_run rest nonce fits,
    Option.bind_eq_bind, Option.bind_some]
  rw [if_neg (by omega)]
  rfl

theorem readNonce_spec {input rest nonce : Bytes}
    (read : readNonce.run input = some (nonce, rest)) :
    nonce.length ≤ txExtraNonceMaxCount := by
  simp only [readNonce, StateT.run_bind, Option.bind_eq_bind,
    Option.bind_eq_some_iff] at read
  obtain ⟨⟨loaded, left⟩, -, checked⟩ := read
  dsimp only at checked
  split at checked
  · cases checked
  · simp only [StateT.run_pure, Option.pure_def, Option.some.injEq,
      Prod.mk.injEq] at checked
    rw [← checked.1]
    omega

theorem readMergeMiningTag_run (tag : TxExtraMergeMiningTag) (rest : Bytes)
    (fits : tag.depth < 2 ^ 64) :
    readMergeMiningTag.run
      (writeString (writeVarint tag.depth ++ writeKey tag.merkleRoot) ++ rest) =
        some (tag, rest) := by
  have depthBytes := length_writeVarint_le tag.depth
  have fieldFits :
      (writeVarint tag.depth ++ writeKey tag.merkleRoot).length < 2 ^ 64 := by
    simp only [List.length_append, writeKey, Vector.length_toList]
    omega
  have helper := serializeKey_run [] tag.merkleRoot
  rw [List.append_nil] at helper
  simp only [readMergeMiningTag, parseAll, StateT.run_bind,
    readString_run rest _ fieldFits, serializeVarint_run _ fits, helper,
    Option.bind_eq_bind, Option.bind_some]
  rfl

theorem readMergeMiningTag_spec {input rest : Bytes}
    {tag : TxExtraMergeMiningTag}
    (read : readMergeMiningTag.run input = some (tag, rest)) :
    tag.depth < 2 ^ 64 := by
  simp only [readMergeMiningTag, StateT.run_bind, Option.bind_eq_bind,
    Option.bind_eq_some_iff] at read
  obtain ⟨⟨field, left⟩, -, parsed⟩ := read
  dsimp only at parsed
  split at parsed
  · rename_i inner
    simp only [StateT.run_pure, Option.pure_def, Option.some.injEq,
      Prod.mk.injEq] at parsed
    rw [← parsed.1]
    simp only [parseAll] at inner
    split at inner
    · rename_i helperRead
      simp only [Option.some.injEq] at inner
      simp only [StateT.run_bind, Option.bind_eq_bind,
        Option.bind_eq_some_iff] at helperRead
      obtain ⟨⟨depth, afterDepth⟩, depthRead, ⟨root, afterRoot⟩, -,
        done⟩ := helperRead
      simp only [StateT.run_pure, Option.pure_def, Option.some.injEq,
        Prod.mk.injEq] at done
      rw [← inner, ← done.1]
      exact serializeVarint_lt depthRead
    · cases inner
  · cases parsed

/-- The variant loader reads a saved field back and leaves what follows;
padding only when nothing follows, since the loader runs it to the end. -/
theorem readTxExtraField_run {field : TxExtraField}
    (fits : field.Fits) (rest : Bytes)
    (paddingLast : field.type = .txExtraPadding → rest = []) :
    readTxExtraField.run (writeTxExtraField field ++ rest) =
      some (field, rest) := by
  cases field with
  | txExtraPadding size =>
    obtain rfl := paddingLast rfl
    show (TxExtraField.txExtraPadding <$> readPadding).run
        (List.replicate (size - 1) 0 ++ []) = _
    rw [List.append_nil, StateT.run_map, readPadding_run fits.1 fits.2]
    rfl
  | txExtraPubKey pubKey =>
    show (TxExtraField.txExtraPubKey <$> serializeKey).run
        (writeKey pubKey ++ rest) = _
    rw [StateT.run_map, serializeKey_run]
    rfl
  | txExtraNonce nonce =>
    show (TxExtraField.txExtraNonce <$> readNonce).run
        (writeString nonce ++ rest) = _
    rw [StateT.run_map, readNonce_run nonce rest fits]
    rfl
  | txExtraMergeMiningTag tag =>
    show (TxExtraField.txExtraMergeMiningTag <$> readMergeMiningTag).run
      (writeString
        (writeVarint tag.depth ++ writeKey tag.merkleRoot) ++ rest) = _
    rw [StateT.run_map, readMergeMiningTag_run tag rest fits]
    rfl
  | txExtraAdditionalPubKeys data =>
    have covers : data.length ≤ (data.flatMap writeKey).length := by
      rw [length_flatMap_writeKey]
      omega
    show (TxExtraField.txExtraAdditionalPubKeys <$> readVector serializeKey).run
      (writeVarint data.length ++ data.flatMap writeKey ++ rest) = _
    rw [StateT.run_map,
      readVector_run rest (fun key rest => serializeKey_run rest key)
      data fits covers]
    rfl
  | txExtraMysteriousMinergate data =>
    show (TxExtraField.txExtraMysteriousMinergate <$> readString).run
        (writeString data ++ rest) = _
    rw [StateT.run_map, readString_run rest data fits]
    rfl

/-- What the variant loader returns fits the saver's bounds, and a padding
field has taken the input to its end. -/
theorem readTxExtraField_fits {input rest : Bytes} {field : TxExtraField}
    (read : readTxExtraField.run input = some (field, rest)) :
    field.Fits ∧ (field.type = .txExtraPadding → rest = []) := by
  simp only [readTxExtraField, StateT.run_bind, Option.bind_eq_bind,
    Option.bind_eq_some_iff] at read
  obtain ⟨⟨tag, left⟩, -, read⟩ := read
  dsimp only at read
  -- one branch for each tag of the variant, then the unknown tag
  split at read
  · obtain ⟨size, loaded, rfl⟩ := run_map_eq_some read
    obtain ⟨positive, bounded, ended⟩ := readPadding_spec loaded
    exact ⟨⟨positive, bounded⟩, fun _ => ended⟩
  split at read
  · obtain ⟨key, -, rfl⟩ := run_map_eq_some read
    exact ⟨trivial, fun wrong => by cases wrong⟩
  split at read
  · obtain ⟨nonce, loaded, rfl⟩ := run_map_eq_some read
    exact ⟨readNonce_spec loaded, fun wrong => by cases wrong⟩
  split at read
  · obtain ⟨tag, loaded, rfl⟩ := run_map_eq_some read
    exact ⟨readMergeMiningTag_spec loaded, fun wrong => by cases wrong⟩
  split at read
  · obtain ⟨data, loaded, rfl⟩ := run_map_eq_some read
    exact ⟨readVector_lt loaded, fun wrong => by cases wrong⟩
  split at read
  · obtain ⟨data, loaded, rfl⟩ := run_map_eq_some read
    exact ⟨readString_lt loaded, fun wrong => by cases wrong⟩
  · cases read

theorem paddingLoop_neverGrows : ∀ left size, NeverGrows (paddingLoop left size)
  | 0, size => .pure size
  | left + 1, size => .bind peekEof_neverGrows fun _ => by
    split
    · exact .pure size
    · exact .bind getByte_neverGrows fun _ => by
        split
        · exact .failStream
        · exact paddingLoop_neverGrows left (size + 1)

/-- Each field takes its tag byte, and no loader behind the tag gives bytes
back. -/
theorem readTxExtraField_shrinks {input rest : Bytes} {field : TxExtraField}
    (read : readTxExtraField.run input = some (field, rest)) :
    rest.length < input.length := by
  simp only [readTxExtraField, StateT.run_bind, Option.bind_eq_bind,
    Option.bind_eq_some_iff] at read
  obtain ⟨⟨tag, left⟩, readTag, read⟩ := read
  have padding : NeverGrows readPadding :=
    .bind (paddingLoop_neverGrows _ 1) fun _ => by
      split
      · exact .pure _
      · exact .failStream
  have nonce : NeverGrows readNonce :=
    .bind readString_neverGrows fun _ => by
      split
      · exact .failStream
      · exact .pure _
  have mergeMiningTag : NeverGrows readMergeMiningTag :=
    .bind readString_neverGrows fun _ => by
      dsimp only
      split
      · exact .pure _
      · exact .failStream
  have body : rest.length ≤ left.length := by
    dsimp only at read
    split at read
    · exact padding.map _ _ _ _ read
    split at read
    · exact serializeKey_neverGrows.map _ _ _ _ read
    split at read
    · exact nonce.map _ _ _ _ read
    split at read
    · exact mergeMiningTag.map _ _ _ _ read
    split at read
    · exact (readVector_neverGrows serializeKey_neverGrows).map _ _ _ _ read
    split at read
    · exact readString_neverGrows.map _ _ _ _ read
    · cases read
  exact lt_of_le_of_lt body (getByte_shrinks readTag)

/-! ## Parsing a whole extra -/

/-- The parse loop only collects: the fields it reads are appended to what it
was given. -/
theorem parseTxExtraLoop_acc :
    ∀ fuel input acc, parseTxExtraLoop fuel input acc =
      ((parseTxExtraLoop fuel input []).1,
        acc ++ (parseTxExtraLoop fuel input []).2)
  | 0, input, acc => by simp [parseTxExtraLoop]
  | fuel + 1, input, acc => by
    simp only [parseTxExtraLoop]
    split
    · simp
    · split
      · simp
      · rw [parseTxExtraLoop_acc fuel _ (acc ++ _),
          parseTxExtraLoop_acc fuel _ ([] ++ _)]
        simp

/-- Fuel past the length of the input changes nothing: each round takes at
least a byte (`readTxExtraField_shrinks`). -/
theorem parseTxExtraLoop_succ :
    ∀ fuel input acc, input.length ≤ fuel →
      parseTxExtraLoop (fuel + 1) input acc = parseTxExtraLoop fuel input acc
  | 0, input, acc, short => by
    obtain rfl : input = [] := List.eq_nil_of_length_eq_zero (by omega)
    rfl
  | fuel + 1, input, acc, short => by
    rw [parseTxExtraLoop, parseTxExtraLoop]
    split
    · rfl
    · rename_i field rest read
      split
      · rfl
      · exact parseTxExtraLoop_succ fuel rest _
          (by have := readTxExtraField_shrinks read; omega)

theorem parseTxExtraLoop_writeTxExtraFields {fields : List TxExtraField}
    (writable : WritableFields fields) :
    ∀ fuel acc, fields ≠ [] → fields.length ≤ fuel →
      parseTxExtraLoop fuel (writeTxExtraFields fields) acc =
        (true, acc ++ fields) := by
  induction writable with
  | nil => exact fun _ _ nonempty => absurd rfl nonempty
  | @cons field fields fits paddingLast _ ih =>
    intro fuel acc _ enough
    obtain ⟨fuel, rfl⟩ : ∃ rounds, fuel = rounds + 1 :=
      ⟨fuel - 1, by simp only [List.length_cons] at enough; omega⟩
    have read :=
      readTxExtraField_run fits (writeTxExtraFields fields) fun padding => by
      rw [paddingLast padding, writeTxExtraFields_nil]
    rw [writeTxExtraFields_cons, parseTxExtraLoop, read]
    dsimp only
    -- the last field ends the input; otherwise the loop goes on with the others
    by_cases last : fields = []
    · subst last
      simp
    · have more : (writeTxExtraFields fields).isEmpty = false := by
        simpa [writeTxExtraFields_eq_nil] using last
      rw [if_neg (by simp [more]), ih fuel (acc ++ [field]) last
        (by simp only [List.length_cons] at enough; omega)]
      simp

/-- The saver's bytes for a writable list parse as that list. -/
theorem parseTxExtra_writeTxExtraFields {fields : List TxExtraField}
    (writable : WritableFields fields) :
    parseTxExtra (writeTxExtraFields fields) = (true, fields) := by
  by_cases empty : fields = []
  · subst empty
    rfl
  · have nonempty : (writeTxExtraFields fields).isEmpty = false := by
      simpa [writeTxExtraFields_eq_nil] using empty
    rw [parseTxExtra, if_neg (by simp [nonempty]),
      parseTxExtraLoop_writeTxExtraFields writable _ [] empty
        (length_le_writeTxExtraFields fields)]
    simp

theorem parseTxExtraLoop_writable :
    ∀ fuel input fields, parseTxExtraLoop fuel input [] = (true, fields) →
      WritableFields fields
  | 0, input, fields, parsed => by simp [parseTxExtraLoop] at parsed
  | fuel + 1, input, fields, parsed => by
    rw [parseTxExtraLoop] at parsed
    split at parsed
    · simp at parsed
    · rename_i field rest read
      obtain ⟨fits, paddingLast⟩ := readTxExtraField_fits read
      split at parsed
      · -- the last field of the extra
        simp only [List.nil_append, Prod.mk.injEq, true_and] at parsed
        subst parsed
        exact .cons fits (fun _ => rfl) .nil
      · rename_i notEnd
        rw [parseTxExtraLoop_acc] at parsed
        simp only [List.nil_append, Prod.mk.injEq,
          List.singleton_append] at parsed
        obtain ⟨succeeded, rfl⟩ := parsed
        have nonempty : rest ≠ [] := by simpa using notEnd
        exact .cons fits (fun padding => absurd (paddingLast padding) nonempty)
          (parseTxExtraLoop_writable fuel rest _ (Prod.ext succeeded rfl))

/-- Every field list `parse_tx_extra` accepts is one the saver writes back
and the loader reads again. -/
theorem parseTxExtra_writable {txExtra : Bytes} {fields : List TxExtraField}
    (parsed : parseTxExtra txExtra = (true, fields)) :
    WritableFields fields := by
  unfold parseTxExtra at parsed
  split at parsed
  · simp only [Prod.mk.injEq, true_and] at parsed
    subst parsed
    exact .nil
  · exact parseTxExtraLoop_writable _ _ _ parsed

theorem WritableFields.filter {fields : List TxExtraField}
    (writable : WritableFields fields) (keep : TxExtraField → Bool) :
    WritableFields (fields.filter keep) := by
  induction writable with
  | nil => exact .nil
  | cons fits paddingLast _ ih =>
    rw [List.filter_cons]
    split
    · exact .cons fits
        (fun padding => by rw [paddingLast padding, List.filter_nil]) ih
    · exact ih

/-! ## Removing and adding fields -/

/-- The removal loop writes the fields the parse loop reads, less those of the
type removed, and fails where the parse loop fails. -/
theorem removeFieldLoop_eq (type : TxExtraFieldType) :
    ∀ fuel input out, removeFieldLoop type fuel input out =
      if (parseTxExtraLoop fuel input []).1 then
        some (out ++ writeTxExtraFields
          ((parseTxExtraLoop fuel input []).2.filter fun field =>
            field.type ≠ type))
      else none
  | 0, input, out => rfl
  | fuel + 1, input, out => by
    rw [removeFieldLoop, parseTxExtraLoop]
    cases readTxExtraField.run input with
    | none => rfl
    | some loaded =>
      obtain ⟨field, rest⟩ := loaded
      dsimp only
      split
      · by_cases kept : field.type ≠ type <;> simp [kept]
      · rw [removeFieldLoop_eq type fuel rest,
          parseTxExtraLoop_acc fuel rest ([] ++ [field])]
        by_cases kept : field.type ≠ type <;> simp [kept]

/-- On a nonempty extra, removal succeeds exactly when the parse does, and
writes the parsed fields of the other types. -/
theorem removeFieldFromTxExtra_eq (type : TxExtraFieldType) {txExtra : Bytes}
    (nonempty : txExtra ≠ []) :
    removeFieldFromTxExtra txExtra type =
      if (parseTxExtra txExtra).1 then
        some
          (writeTxExtraFields
            ((parseTxExtra txExtra).2.filter fun field => field.type ≠ type))
      else none := by
  have notEmpty : ¬ txExtra.isEmpty = true := by simpa using nonempty
  rw [removeFieldFromTxExtra, removeFieldLoop_eq,
    parseTxExtraLoop_succ _ _ _ le_rfl, parseTxExtra, if_neg notEmpty]
  simp only [List.nil_append]

/-- Removal is a filter: on a nonempty extra that parses, it leaves an extra
that parses as the fields of the other types, in their order. -/
theorem parseTxExtra_removeFieldFromTxExtra (type : TxExtraFieldType)
    {txExtra : Bytes} {fields : List TxExtraField} (nonempty : txExtra ≠ [])
    (parsed : parseTxExtra txExtra = (true, fields)) :
    ∃ removed, removeFieldFromTxExtra txExtra type = some removed ∧
      parseTxExtra removed =
        (true, fields.filter fun field => field.type ≠ type) := by
  refine ⟨_, by rw [removeFieldFromTxExtra_eq type nonempty, parsed]; rfl, ?_⟩
  exact parseTxExtra_writeTxExtraFields
    ((parseTxExtra_writable parsed).filter _)

/-- An extra with a public key and a nonce: removing the key leaves the
nonce. -/
theorem parseTxExtra_removeFieldFromTxExtra_of_key_and_nonce :
    writeTxExtraFields [.txExtraPubKey default, .txExtraNonce [1, 2]] ≠ [] ∧
      parseTxExtra
        (writeTxExtraFields [.txExtraPubKey default, .txExtraNonce [1, 2]]) =
          (true, [.txExtraPubKey default, .txExtraNonce [1, 2]]) ∧
      ∃ removed, removeFieldFromTxExtra
          (writeTxExtraFields [.txExtraPubKey default, .txExtraNonce [1, 2]])
            .txExtraPubKey =
          some removed ∧
        parseTxExtra removed =
          (true, [TxExtraField.txExtraPubKey default,
            .txExtraNonce [1, 2]].filter fun field => field.type ≠
              .txExtraPubKey) := by
  have nonempty :
      writeTxExtraFields
        [.txExtraPubKey default, .txExtraNonce [1, 2]] ≠ [] := by
    decide
  have parsed :
      parseTxExtra
        (writeTxExtraFields [.txExtraPubKey default, .txExtraNonce [1, 2]]) =
      (true, [.txExtraPubKey default, .txExtraNonce [1, 2]]) := by
        decide +kernel
  exact ⟨nonempty, parsed, parseTxExtra_removeFieldFromTxExtra .txExtraPubKey
    nonempty parsed⟩

/-- Below 128 bytes the length byte `add_extra_nonce_to_tx_extra` writes is
the varint of the length, and the nonce is appended as the saver writes it. -/
theorem addExtraNonceToTxExtra_of_lt (txExtra : Bytes) {extraNonce : Bytes}
    (short : extraNonce.length < 128) :
    addExtraNonceToTxExtra txExtra extraNonce =
      some (txExtra ++ writeTxExtraField (.txExtraNonce extraNonce)) := by
  rw [addExtraNonceToTxExtra,
    if_neg (by simp only [txExtraNonceMaxCount]; omega), writeTxExtraField,
    writeString, writeVarint_of_lt short]
  rfl

/-- A field appended to the saver's bytes of fields without padding parses
behind them. -/
theorem parseTxExtra_append_field {fields : List TxExtraField}
    (writable : WritableFields fields)
    (noPadding : ∀ field ∈ fields, field.type ≠ .txExtraPadding)
    {field : TxExtraField} (fits : field.Fits) :
    parseTxExtra (writeTxExtraFields fields ++ writeTxExtraField field) =
      (true, fields ++ [field]) := by
  have appended : WritableFields (fields ++ [field]) := by
    induction writable with
    | nil => exact .cons fits (fun _ => rfl) .nil
    | @cons first rest firstFits _ _ ih =>
      have notPadding := noPadding first (List.mem_cons_self ..)
      exact .cons firstFits (fun padding => absurd padding notPadding)
        (ih fun other mem => noPadding other (List.mem_cons_of_mem _ mem))
  have single : writeTxExtraField field = writeTxExtraFields [field] := by simp
  rw [single, ← writeTxExtraFields_append]
  exact parseTxExtra_writeTxExtraFields appended

/-- Each `add` function, on the saver's bytes of fields without padding, gives
an extra that parses as those fields followed by the one added: a public key,
a list of additional keys, a nonce below 128 bytes. -/
theorem parseTxExtra_add {fields : List TxExtraField}
    (writable : WritableFields fields)
    (noPadding : ∀ field ∈ fields, field.type ≠ .txExtraPadding) :
    (∀ (tx : Transaction) (txPubKey : PublicKey),
      tx.extra = writeTxExtraFields fields →
        parseTxExtra (addTxPubKeyToExtra tx txPubKey).extra =
          (true, fields ++ [.txExtraPubKey txPubKey])) ∧
    (∀ additionalPubKeys : List PublicKey, additionalPubKeys.length < 2 ^ 64 →
      parseTxExtra
        (addAdditionalTxPubKeysToExtra (writeTxExtraFields fields)
          additionalPubKeys) =
            (true, fields ++ [.txExtraAdditionalPubKeys additionalPubKeys])) ∧
    (∀ extraNonce : Bytes, extraNonce.length < 128 →
      (addExtraNonceToTxExtra (writeTxExtraFields fields)
        extraNonce).map parseTxExtra =
          some (true, fields ++ [.txExtraNonce extraNonce])) := by
  refine ⟨fun tx txPubKey saved => ?_, fun additionalPubKeys fits => ?_,
    fun extraNonce short => ?_⟩
  · show parseTxExtra
      (tx.extra ++ writeTxExtraField (.txExtraPubKey txPubKey)) = _
    rw [saved]
    exact parseTxExtra_append_field writable noPadding trivial
  · exact parseTxExtra_append_field writable noPadding fits
  · have fits : (TxExtraField.txExtraNonce extraNonce).Fits := by
      simp only [TxExtraField.Fits, txExtraNonceMaxCount]
      omega
    rw [addExtraNonceToTxExtra_of_lt _ short, Option.map_some,
      parseTxExtra_append_field writable noPadding fits]

/-- Each addition behind an extra that holds a nonce. -/
theorem parseTxExtra_add_behind_nonce :
    WritableFields [.txExtraNonce [7]] ∧
    (∀ field ∈ [TxExtraField.txExtraNonce [7]], field.type ≠ .txExtraPadding) ∧
    (∀ (tx : Transaction) (txPubKey : PublicKey),
      tx.extra = writeTxExtraFields [.txExtraNonce [7]] →
        parseTxExtra (addTxPubKeyToExtra tx txPubKey).extra =
          (true, [.txExtraNonce [7]] ++ [.txExtraPubKey txPubKey])) ∧
    (∀ additionalPubKeys : List PublicKey, additionalPubKeys.length < 2 ^ 64 →
      parseTxExtra
        (addAdditionalTxPubKeysToExtra (writeTxExtraFields [.txExtraNonce [7]])
          additionalPubKeys) =
        (true, [.txExtraNonce [7]] ++
          [.txExtraAdditionalPubKeys additionalPubKeys])) ∧
    (∀ extraNonce : Bytes, extraNonce.length < 128 →
      (addExtraNonceToTxExtra
        (writeTxExtraFields [.txExtraNonce [7]]) extraNonce).map parseTxExtra =
        some (true, [.txExtraNonce [7]] ++ [.txExtraNonce extraNonce])) := by
  have writable : WritableFields [.txExtraNonce [7]] :=
    .cons (by decide) (fun _ => rfl) .nil
  have noPadding : ∀ field ∈ [TxExtraField.txExtraNonce [7]],
      field.type ≠ .txExtraPadding := by
    decide
  exact ⟨writable, noPadding, parseTxExtra_add writable noPadding⟩

/-! ## Where the codec is not exact -/

set_option maxRecDepth 4096 in
/-- The codec is not exact.  The loader takes the non-canonical varint
`80 00` for the length 0, so `02 80 00` parses as an empty nonce, which the
saver writes as `02 00`.  Removal refuses the empty extra that parses.  A
public key added behind padding makes the padding loader meet a nonzero byte,
and the extra no longer parses.  A nonce of 128 bytes has its length written
as the single byte `80`, which the loader reads with the nonce's first byte as
the varint `80 01`, 128, and then finds one byte too few. -/
theorem txExtra_codec_not_exact :
    (parseTxExtra [0x02, 0x80, 0x00] = (true, [.txExtraNonce []]) ∧
      writeTxExtraFields [.txExtraNonce []] = [0x02, 0x00]) ∧
    (parseTxExtra [] = (true, []) ∧
      removeFieldFromTxExtra [] .txExtraPubKey = none) ∧
    (parseTxExtra [0x00] = (true, [.txExtraPadding 1]) ∧
      parseTxExtra
        (addTxPubKeyToExtra { (default : Transaction) with extra := [0x00] }
          default).extra = (false, [])) ∧
    (addExtraNonceToTxExtra [] (List.replicate 128 1) =
      some (0x02 :: 0x80 :: List.replicate 128 1) ∧
        parseTxExtra (0x02 :: 0x80 :: List.replicate 128 1) = (false, [])) := by
  refine ⟨⟨by decide, by decide⟩, ⟨by decide, by decide⟩,
    ⟨by decide, by decide⟩, by rfl, by rfl⟩

end Cryptonote
end Citicash
