import Citicash.Basic.Types

/-!
# The binary archive

A model of `binary_archive<false>` (the loader) and `binary_archive<true>`
(the saver) of `serialization/binary_archive.h`, with the varint codec of
`common/varint.h` they call.

The loader reads a `std::istringstream`.  Its state is the list of bytes not
yet consumed; the stream turning not `good()` is the failure of the `Reader`
monad.  This is exact for the entry points modelled here: a stream that is no
longer good never becomes good again, and every entry point
(`::serialization::serialize`, `parse_tx_extra`) ends with a check of the
stream state, so a failure anywhere makes the whole parse return `false`.

Varints are read through `std::istreambuf_iterator`, which works on the
stream buffer and never touches the stream state.  `serialize_uvarint`
discards the result code of `read_varint` (the source marks it
`XXX handle failure`), so an overflowing, non-canonical or truncated varint
leaves the stream good, with the value accumulated so far.
-/

namespace Citicash
namespace Serialization

open Cryptonote

/-- A loader step: the unread bytes in, a value and the unread bytes out;
`none` once the stream is no longer `good()`. -/
abbrev Reader := StateT (List UInt8) Option

/-! ## Varints -/

/-- `EVARINT_OVERFLOW` and `EVARINT_REPRESENT`. -/
def evarintOverflow : Int := -1
def evarintRepresent : Int := -2

/-- The loop of `tools::read_varint<bits>` from position `shift`, with the
value `write` and the count `read` so far: the C++ result code, the value
written and the unread input. -/
def readVarintFrom (bits : Nat) :
    Nat → Nat → Int → List UInt8 → Int × Nat × List UInt8
  | _, write, read, [] => (read, write, [])
  | shift, write, read, byte :: rest =>
      if shift + 7 ≥ bits ∧ 2 ^ (bits - shift) ≤ byte.toNat then
        (evarintOverflow, write, rest)
      else if byte = 0 ∧ shift ≠ 0 then
        (evarintRepresent, write, rest)
      else
        let write := write ||| (byte.toNat % 128) <<< shift
        if byte.toNat < 128 then (read + 1, write, rest)
        else readVarintFrom bits (shift + 7) write (read + 1) rest

/-- `tools::read_varint` for an unsigned type of `bits` bits. -/
def readVarint (bits : Nat) (input : List UInt8) : Int × Nat × List UInt8 :=
  readVarintFrom bits 0 0 0 input

/-- The loop of `tools::write_varint`, run for at most `fuel` bytes. -/
def writeVarintLoop : Nat → Nat → List UInt8
  | 0, value => [value.toUInt8]
  | fuel + 1, value =>
      if value < 128 then [value.toUInt8]
      else (value % 128 + 128).toUInt8 :: writeVarintLoop fuel (value / 128)

/-- `tools::write_varint`: seven bits a byte, lowest first, the high bit set
on every byte but the last.  The value itself bounds the number of rounds. -/
def writeVarint (value : Nat) : List UInt8 :=
  writeVarintLoop value value

/-! ## Loader primitives -/

/-- `serialize_uvarint`: the result code of `read_varint` is dropped and the
stream stays good whatever was read. -/
def serializeVarint (bits : Nat) : Reader Nat := fun input =>
  let (_, value, rest) := readVarint bits input
  some (value, rest)

/-- `stream_.get(c)` once: fails at the end of the input. -/
def getByte : Reader UInt8 := fun
  | [] => none
  | byte :: rest => some (byte, rest)

/-- `serialize_uint` of a `width`-byte integer, little endian. -/
def serializeUint : Nat → Reader Nat
  | 0 => pure 0
  | width + 1 => do
      let low ← getByte
      let high ← serializeUint width
      pure (low.toNat + 256 * high)

/-- `serialize_blob`: `stream_.read` of `len` bytes, failing when fewer
remain. -/
def serializeBlob (len : Nat) : Reader (List UInt8) := fun input =>
  if len ≤ input.length then some (input.take len, input.drop len) else none

/-- `remaining_bytes()` of a good stream. -/
def remainingBytes : Reader Nat := fun input => some (input.length, input)

/-- `EOF == peek()`, with the stream state restored afterwards. -/
def peekEof : Reader Bool := fun input => some (input.isEmpty, input)

/-- Fails the stream (`setstate(std::ios::failbit)` followed by
`return false`). -/
def failStream : Reader α := fun _ => none

/-- A 32-byte POD read by `BLOB_SERIALIZER`. -/
def serializeKey : Reader Key := do
  let bytes ← serializeBlob 32
  if h : bytes.length = 32 then pure ⟨⟨bytes.toArray, by simpa using h⟩⟩
  else failStream

/-- Read `count` elements one after another. -/
def readCount (element : Reader α) : Nat → Reader (List α)
  | 0 => pure []
  | count + 1 => do
      let head ← element
      let tail ← readCount element count
      pure (head :: tail)

/-- `do_serialize(Archive<false>&, std::vector<T>&)`: a varint count, the
sanity check against the remaining bytes, then the elements. -/
def readVector (element : Reader α) : Reader (List α) := do
  let count ← serializeVarint 64
  let remaining ← remainingBytes
  if remaining < count then failStream
  else readCount element count

/-- `do_serialize(Archive<false>&, std::string&)`: a varint size, the same
sanity check, then the bytes. -/
def readString : Reader (List UInt8) := do
  let size ← serializeVarint 64
  let remaining ← remainingBytes
  if remaining < size then failStream
  else serializeBlob size

/-- `::serialization::serialize` on a loader: the object, then
`check_stream_state`, which asks for a good stream at its end. -/
def parseAll (object : Reader α) (input : List UInt8) : Option α :=
  match object.run input with
  | some (value, []) => some value
  | _ => none

/-! ## Saver primitives -/

/-- `serialize_uint` on a saver: `width` bytes, little endian. -/
def writeUint : Nat → Nat → List UInt8
  | 0, _ => []
  | width + 1, value => (value % 256).toUInt8 :: writeUint width (value / 256)

def writeKey (key : Key) : List UInt8 := key.bytes.toList

/-- `do_serialize(Archive<true>&, std::string&)`. -/
def writeString (bytes : List UInt8) : List UInt8 :=
  writeVarint bytes.length ++ bytes

end Serialization
end Citicash
