import Citicash.Serialization.Varint
import Citicash.Crypto.TreeHash

/-!
# Block ids

`get_block_hash` of `cryptonote_format_utils.cpp`.  A block's id is
`cn_fast_hash` of its hashing blob (`get_block_hashing_blob`): the serialized
header, the tree hash of the miner transaction's hash followed by
`tx_hashes`, and the number of transactions as a varint.  `get_object_hash`
serializes the blob as a string, so the hashed bytes start with the blob's
size.  The proof-of-work hash of `get_block_longhash` hashes the same blob
with no size before it.

The header codec of `block_header::do_serialize` is taken on both sides: the
loader reads back what the saver writes (`readBlockHeader_run`), so the header's
bytes followed by anything determine the header.  With the varint's and the
string's framing this makes the hashing blob determine the header, the root of
the transaction tree and the count, and the tree hash then binds the transaction
hashes: two blocks with one id have the same header, the same miner transaction
hash and the same `tx_hashes` when `cn_fast_hash` is injective on the inputs it
is applied to in the two ids.  The transaction hash stays a parameter, as
`cn_fast_hash` and the proof-of-work hash do.
-/

namespace Citicash
namespace Cryptonote

open Serialization Crypto

/-! ## The header codec -/

/-- `block_header::do_serialize` on a saver: the two versions and the
timestamp as varints, `prev_id` as its 32 bytes and the nonce as four bytes. -/
def writeBlockHeader (header : BlockHeader) : List UInt8 :=
  writeVarint header.majorVersion.toNat ++
    writeVarint header.minorVersion.toNat ++
    writeVarint header.timestamp.toNat ++ writeKey header.prevId ++
      writeUint 4 header.nonce.toNat

/-- `block_header::do_serialize` on a loader: `serialize_varint` reads a
`uint8_t` with `read_varint` of 8 bits and a `uint64_t` with 64. -/
def readBlockHeader : Reader BlockHeader := do
  let majorVersion ← serializeVarint 8
  let minorVersion ← serializeVarint 8
  let timestamp ← serializeVarint 64
  let prevId ← serializeKey
  let nonce ← serializeUint 4
  pure ⟨majorVersion.toUInt8, minorVersion.toUInt8, timestamp.toUInt64,
    prevId, nonce.toUInt32⟩

theorem readBlockHeader_run (header : BlockHeader) (rest : List UInt8) :
    readBlockHeader.run (writeBlockHeader header ++ rest) =
      some (header, rest) := by
  have major : header.majorVersion.toNat < 2 ^ 8 := header.majorVersion.toNat_lt
  have minor : header.minorVersion.toNat < 2 ^ 8 := header.minorVersion.toNat_lt
  have timestamp : header.timestamp.toNat < 2 ^ 64 := header.timestamp.toNat_lt
  have nonce : header.nonce.toNat % 256 ^ 4 = header.nonce.toNat :=
    Nat.mod_eq_of_lt header.nonce.toNat_lt
  simp only [writeBlockHeader, List.append_assoc, readBlockHeader,
    StateT.run_bind, serializeVarint_run_of_lt _ major,
    serializeVarint_run_of_lt _ minor,
    serializeVarint_run_of_lt _ timestamp, serializeKey_run,
      serializeUint_run, nonce,
    Option.bind_eq_bind, Option.bind_some, StateT.run_pure, Option.pure_def]
  simp

/-- The header's bytes followed by anything give back the header and the
rest. -/
theorem writeBlockHeader_append_inj {header header' : BlockHeader}
    {rest rest' : List UInt8}
    (same : writeBlockHeader header ++ rest =
      writeBlockHeader header' ++ rest') :
    header = header' ∧ rest = rest' := by
  have read := congrArg readBlockHeader.run same
  rw [readBlockHeader_run, readBlockHeader_run] at read
  simpa using read

/-! ## The hashing blob and the ids -/

section BlockId

variable (cnFastHash : List UInt8 → Hash)
    (getTransactionHash : Transaction → Hash)

/-- `get_tx_tree_hash(const block&)`: the tree hash of the miner
transaction's hash followed by `tx_hashes`, into a hash that starts as
`null_hash`.  The list is never empty, so the `assert(count > 0)` of
`tree_hash` holds and the hash is always written. -/
def getTxTreeHash (b : Block) : Hash :=
  (treeHash cnFastHash
    (getTransactionHash b.minerTx :: b.txHashes)).getD nullHash

/-- `get_block_hashing_blob`. -/
def getBlockHashingBlob (b : Block) : List UInt8 :=
  writeBlockHeader b.toBlockHeader ++
    writeKey (getTxTreeHash cnFastHash getTransactionHash b) ++
    getVarintData (b.txHashes.length + 1)

/-- `get_block_hash`: `get_object_hash` of the hashing blob, which
serializes the blob as a string before `get_blob_hash` takes `cn_fast_hash`
of it. -/
def getBlockHash (b : Block) : Hash :=
  cnFastHash (writeString (getBlockHashingBlob cnFastHash getTransactionHash b))

/-- `get_block_longhash`: the proof-of-work hash of the hashing blob's own
bytes. -/
def getBlockLonghash (powHash : List UInt8 → Hash) (b : Block) : Hash :=
  powHash (getBlockHashingBlob cnFastHash getTransactionHash b)

theorem getTxTreeHash_eq_some (b : Block) :
    treeHash cnFastHash (getTransactionHash b.minerTx :: b.txHashes) =
      some (getTxTreeHash cnFastHash getTransactionHash b) := by
  obtain ⟨root, computed⟩ := Option.isSome_iff_exists.1
    (treeHash_isSome cnFastHash
      (List.cons_ne_nil (getTransactionHash b.minerTx) b.txHashes))
  rw [getTxTreeHash, computed, Option.getD_some]

/-- The inputs of `cn_fast_hash` in a block's id: the hashing blob as a
string, and the 64-byte inputs of the transaction tree hash. -/
def blockHashInputs (b : Block) : List (List UInt8) :=
  writeString (getBlockHashingBlob cnFastHash getTransactionHash b) ::
    treeHashInputs cnFastHash (getTransactionHash b.minerTx :: b.txHashes)

/-- The hashing blob determines the header, the miner transaction's hash and
`tx_hashes` when `cn_fast_hash` is injective on the inputs of the two
transaction tree hashes: the header's bytes and the 32 bytes of the root
split one way only, the varint gives back the count, and lists of one length
with one tree hash are then equal. -/
theorem getBlockHashingBlob_commits {b b' : Block}
    (injective : Set.InjOn cnFastHash
      {x | x ∈ treeHashInputs cnFastHash (getTransactionHash
        b.minerTx :: b.txHashes) ∨
        x ∈ treeHashInputs cnFastHash
          (getTransactionHash b'.minerTx :: b'.txHashes)})
    (same : getBlockHashingBlob cnFastHash getTransactionHash b =
      getBlockHashingBlob cnFastHash getTransactionHash b') :
    b.toBlockHeader = b'.toBlockHeader ∧
      getTransactionHash b.minerTx = getTransactionHash b'.minerTx ∧
      b.txHashes = b'.txHashes := by
  simp only [getBlockHashingBlob, List.append_assoc] at same
  obtain ⟨headers, afterHeader⟩ := writeBlockHeader_append_inj same
  obtain ⟨roots, counts⟩ := Key.append_inj afterHeader
  have sameCount : b.txHashes.length = b'.txHashes.length :=
    Nat.succ_injective (writeVarint_injective counts)
  have sameTree :
      treeHash cnFastHash (getTransactionHash b.minerTx :: b.txHashes) =
      treeHash cnFastHash (getTransactionHash b'.minerTx :: b'.txHashes) := by
    rw [getTxTreeHash_eq_some, getTxTreeHash_eq_some, roots]
  have sameHashes :=
    treeHash_binds_hashes cnFastHash (by simp [sameCount]) injective sameTree
  simp only [List.cons.injEq] at sameHashes
  exact ⟨headers, sameHashes⟩

/-- Two blocks with one id have the same header, the same miner transaction
hash and the same transaction hashes when `cn_fast_hash` is injective on the
inputs it is applied to in the two ids. -/
theorem getBlockHash_commits {b b' : Block}
    (injective : Set.InjOn cnFastHash
      {x | x ∈ blockHashInputs cnFastHash getTransactionHash b ∨
        x ∈ blockHashInputs cnFastHash getTransactionHash b'})
    (same : getBlockHash cnFastHash getTransactionHash b =
      getBlockHash cnFastHash getTransactionHash b') :
    b.toBlockHeader = b'.toBlockHeader ∧
      getTransactionHash b.minerTx = getTransactionHash b'.minerTx ∧
      b.txHashes = b'.txHashes := by
  -- the two blob strings are hashed inputs, so one id means one blob
  have sameBlob : getBlockHashingBlob cnFastHash getTransactionHash b =
      getBlockHashingBlob cnFastHash getTransactionHash b' :=
    writeString_injective (injective (.inl (List.mem_cons_self ..))
      (.inr (List.mem_cons_self ..)) same)
  refine getBlockHashingBlob_commits cnFastHash getTransactionHash
    (injective.mono ?_) sameBlob
  exact fun _ mem => Or.imp (List.mem_cons_of_mem _)
    (List.mem_cons_of_mem _) mem

/-- Two blocks that differ only in the miner transaction, under a
transaction hash that does not see the difference: a `cn_fast_hash` that
tells inputs apart by their length is injective on the blob string and the
one pair the tree hash joins, and the ids agree. -/
theorem getBlockHash_commits_of_one_transaction :
    let cnFastHash : List UInt8 → Hash :=
      fun x => ⟨Vector.replicate 32 (UInt8.ofNat x.length)⟩
    let b : Block := { (default : Block) with txHashes := [nullHash] }
    let b' : Block :=
      { b with minerTx := { (default : Transaction) with unlockTime := 5 } }
    b.minerTx ≠ b'.minerTx ∧
      Set.InjOn cnFastHash
        {x | x ∈ blockHashInputs cnFastHash (fun _ => nullHash) b ∨
        x ∈ blockHashInputs cnFastHash (fun _ => nullHash) b'} ∧
      getBlockHash cnFastHash (fun _ => nullHash) b = getBlockHash cnFastHash
        (fun _ => nullHash) b' ∧
      (b.toBlockHeader = b'.toBlockHeader ∧ nullHash = nullHash ∧
        b.txHashes = b'.txHashes) := by
  intro cnFastHash b b'
  have nodup : (((blockHashInputs cnFastHash (fun _ => nullHash) b ++
      blockHashInputs cnFastHash (fun _ => nullHash) b').dedup).map
        cnFastHash).Nodup := by
    decide +kernel
  have injective :
      Set.InjOn cnFastHash
        {x | x ∈ blockHashInputs cnFastHash (fun _ => nullHash) b ∨
      x ∈ blockHashInputs cnFastHash (fun _ => nullHash) b'} :=
        fun _ mem _ mem' =>
    List.inj_on_of_nodup_map nodup (List.mem_dedup.2 (List.mem_append.2 mem))
      (List.mem_dedup.2 (List.mem_append.2 mem'))
  have same : getBlockHash cnFastHash (fun _ => nullHash) b =
      getBlockHash cnFastHash (fun _ => nullHash) b' := by decide +kernel
  exact ⟨by decide, injective, same,
    getBlockHash_commits cnFastHash (fun _ => nullHash) injective same⟩

end BlockId

end Cryptonote
end Citicash
