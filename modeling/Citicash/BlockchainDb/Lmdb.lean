import Citicash.Basic.TxExtra
import Citicash.Lib.AppendTable
import Citicash.Lib.StateRun
import Mathlib.Data.List.AList

/-!
# The LMDB tables of the block store

The state of `BlockchainLMDB` (`blockchain_db/lmdb/db_lmdb.cpp`) and its
table-level operations: adding and removing a block's own rows, a
transaction's rows, its outputs and its spent key images.

A table written with `MDB_APPEND` or `MDB_APPENDDUP` is an `AppendTable`
keyed by the field its comparison reads; tables written with plain puts and
read by hash are functions.  Blobs are stored as the values they encode: the
codec is the subject of the serialization modules.

The in-memory members `m_num_txs`, `m_num_outputs`, `m_height` and the alias
cache `m_aliases_multi_index` live next to the tables, not in them: an
aborted write transaction gives back the tables but not these.

An operation is an `EStateM` step whose error carries the state at the
`throw`, so that the abort handlers can keep what they do not roll back.
An out-of-range `operator[]` is undefined in C++; the model stops there with
`undefinedRead`.
-/

namespace Citicash
namespace BlockchainDb

open Cryptonote StateRun

/-- `mdb_block_info`. -/
structure BlockInfo where
  biHeight : Nat
  biTimestamp : UInt64
  biCoins : UInt64
  biSize : Nat
  biDiff : UInt64
  biHash : Hash
  deriving DecidableEq, Repr

/-- The `data` part of `txindex`. -/
structure TxIndex where
  txId : Nat
  unlockTime : UInt64
  blockId : Nat
  deriving DecidableEq, Repr

/-- `outtx`. -/
structure OutTx where
  outputId : Nat
  txHash : Hash
  localIndex : Nat
  deriving DecidableEq, Repr

/-- `outkey`; `commitment` is stored for amount-zero (RingCT) outputs only,
the others being written as the shorter `pre_rct_outkey`. -/
structure OutKey where
  amountIndex : Nat
  outputId : Nat
  pubkey : PublicKey
  unlockTime : UInt64
  height : Nat
  commitment : Option Key
  deriving DecidableEq, Repr

/-- The exceptions of `blockchain_db.h` the store throws. -/
inductive DbException
  | blockDne
  | blockExists
  | blockParentDne
  | txDne
  | txExists
  | outputDne
  | keyImageExists
  | dbError
  | undefinedRead
  deriving DecidableEq, Repr

/-- The LMDB tables, each named after its `m_` handle. -/
structure Tables where
  blocks : List (Nat × Block)
  blockInfo : List (Nat × BlockInfo)
  blockHeights : Hash → Option Nat
  txs : List (Nat × Transaction)
  txIndices : Hash → Option TxIndex
  txOutputs : List (Nat × List Nat)
  outputTxs : List (Nat × OutTx)
  outputAmounts : UInt64 → List (Nat × OutKey)
  spentKeys : Finset KeyImage
  aliases : AList fun _ : Bytes => Bytes

/-- `BlockchainLMDB`: the committed tables and the members kept in memory.
The alias cache maps an alias to its height and address. -/
structure BlockchainLmdb where
  tables : Tables
  numTxs : Nat
  numOutputs : Nat
  height : Nat
  aliasesMultiIndex : AList fun _ : Bytes => Nat × Bytes

/-- The tables of a newly created store. -/
def Tables.empty : Tables where
  blocks := []
  blockInfo := []
  blockHeights := fun _ => none
  txs := []
  txIndices := fun _ => none
  txOutputs := []
  outputTxs := []
  outputAmounts := fun _ => []
  spentKeys := ∅
  aliases := ∅

/-- A newly created store: empty tables, no transactions, outputs or
blocks, and an empty alias cache. -/
def BlockchainLmdb.empty : BlockchainLmdb where
  tables := Tables.empty
  numTxs := 0
  numOutputs := 0
  height := 0
  aliasesMultiIndex := ∅

/-- The functions of other components the store calls: the object hashes,
`rct::zeroCommit`, and what `remove_transaction_data` uses to check an alias
registration before it drops it. -/
structure DbEnv where
  getTransactionHash : Transaction → Hash
  getBlockHash : Block → Hash
  zeroCommit : UInt64 → Key
  decodeAddr : Bytes → Option (UInt64 × Bytes)
  getAccountAddressFromStr : Bool → Bytes → Option AccountPublicAddress
  verifyHelper : Bytes → AccountPublicAddress → Bytes → Bool

/-- `config::testnet` address prefixes. -/
def testnetPublicAddressBase58Prefix : UInt64 := 0x8f9d4
def testnetPublicIntegratedAddressBase58Prefix : UInt64 := 0x3fb754
def testnetPublicSubaddressBase58Prefix : UInt64 := 0x53754

abbrev DbM := EStateM DbException BlockchainLmdb

/-- Change the tables inside the current write transaction. -/
def modifyTables (change : Tables → Tables) : DbM Unit :=
  modify fun db => { db with tables := change db.tables }

/-- A C string copy (`MDB_val_copy<const char*>`): the bytes before the first
NUL. -/
def cString (bytes : Bytes) : Bytes :=
  bytes.takeWhile (· ≠ 0)

/-- `std::to_string` of a height, as ASCII digits. -/
def decimalBytes (n : Nat) : Bytes :=
  (Nat.toDigits 10 n).map fun digit => digit.toNat.toUInt8

/-- Unwrap a table put, throwing `DB_ERROR` when LMDB refuses it. -/
def orDbError : Option α → DbM α
  | some value => pure value
  | none => throw .dbError

/-- `if (cond) throw e;` -/
def throwIf (cond : Prop) [Decidable cond] (e : DbException) : DbM Unit :=
  if cond then throw e else pure ()

@[simp] theorem orDbError_eq_ok {result : Option α}
    {db db' : BlockchainLmdb} {a : α} : orDbError result db = .ok a db' ↔
      result = some a ∧ db' = db := by
  cases result <;> simp [orDbError, eq_comm]

@[simp] theorem throwIf_eq_ok {cond : Prop} [Decidable cond] {e : DbException}
    {db db' : BlockchainLmdb} {u : Unit} :
    throwIf cond e db = .ok u db' ↔ ¬cond ∧ db' = db := by
  unfold throwIf
  split <;> simp_all [eq_comm]

/-! ## Spent key images -/

/-- `add_spent_key`: `MDB_NODUPDATA` refuses a key image already there. -/
def addSpentKey (kImage : KeyImage) : DbM Unit := do
  let db ← get
  throwIf (kImage ∈ db.tables.spentKeys) .keyImageExists
  modifyTables fun tables =>
    { tables with spentKeys := insert kImage tables.spentKeys }

/-- `remove_spent_key`: a key image that is not there is no error. -/
def removeSpentKey (kImage : KeyImage) : DbM Unit :=
  modifyTables fun tables =>
    { tables with spentKeys := tables.spentKeys.erase kImage }

/-! ## Block rows -/

/-- The parent check of `add_block`: above the genesis block, the parent's
height must be that of the top block. -/
def checkParent (db : BlockchainLmdb) (prevId : Hash) : DbM Unit :=
  if 0 < db.height then
    match db.tables.blockHeights prevId with
    | none => throw .dbError
    | some parentHeight =>
        throwIf (parentHeight ≠ db.height - 1) .blockParentDne
  else pure ()

/-- `BlockchainLMDB::add_block(blk, size, difficulty, coins, hash)`: the
block's own rows.  The genesis row stores no generated coins. -/
def addBlockRows (blk : Block) (blockSize : Nat) (cumulativeDifficulty : UInt64)
    (coinsGenerated : UInt64) (blkHash : Hash) : DbM Unit := do
  let db ← get
  throwIf (db.tables.blockHeights blkHash).isSome .blockExists
  checkParent db blk.prevId
  let blocks ← orDbError (AppendTable.append db.tables.blocks db.height blk)
  modifyTables fun tables => { tables with blocks }
  let info : BlockInfo :=
    { biHeight := db.height
      biTimestamp := blk.timestamp
      biCoins := if db.height = 0 then 0 else coinsGenerated
      biSize := blockSize
      biDiff := cumulativeDifficulty
      biHash := blkHash }
  let blockInfo ← orDbError
      (AppendTable.append db.tables.blockInfo db.height info)
  modifyTables fun tables =>
    { tables with
      blockInfo
      blockHeights :=
        Function.update tables.blockHeights blkHash (some db.height) }

/-- `BlockchainLMDB::remove_block`: the top block's own rows. -/
def removeBlock : DbM Unit := do
  let db ← get
  throwIf (db.height = 0) .blockDne
  let some info := AppendTable.get db.tables.blockInfo (db.height - 1)
    | throw .blockDne
  throwIf (db.tables.blockHeights info.biHash).isNone .dbError
  modifyTables fun tables =>
    { tables with
      blockHeights := Function.update tables.blockHeights info.biHash none }
  throwIf (AppendTable.get db.tables.blocks (db.height - 1)).isNone .dbError
  modifyTables fun tables =>
    { tables with
      blocks := AppendTable.delete tables.blocks (db.height - 1)
      blockInfo := AppendTable.delete tables.blockInfo (db.height - 1) }

/-- `get_top_block`: the block at `m_height - 1`, or a default block on an
empty chain. -/
def getTopBlock : DbM Block := do
  let db ← get
  if db.height = 0 then pure default
  else
    match AppendTable.get db.tables.blocks (db.height - 1) with
    | some blk => pure blk
    | none => throw .blockDne

/-! ## Reads -/

/-- The `block_info` row at a height, as every `get_block_*(height)` looks
it up: `BLOCK_DNE` when there is none. -/
def getBlockInfo (height : Nat) : DbM BlockInfo := do
  let db ← get
  match AppendTable.get db.tables.blockInfo height with
  | some info => pure info
  | none => throw .blockDne

def getBlockTimestamp (height : Nat) : DbM UInt64 :=
  BlockInfo.biTimestamp <$> getBlockInfo height
def getBlockCumulativeDifficulty (height : Nat) : DbM UInt64 :=
  BlockInfo.biDiff <$> getBlockInfo height
def getBlockAlreadyGeneratedCoins (height : Nat) : DbM UInt64 :=
  BlockInfo.biCoins <$> getBlockInfo height
def getBlockHashFromHeight (height : Nat) : DbM Hash :=
  BlockInfo.biHash <$> getBlockInfo height
def getBlockSize (height : Nat) : DbM Nat :=
  BlockInfo.biSize <$> getBlockInfo height

/-- `top_block_hash`: the hash of the block at `m_height - 1`, or the null
hash on an empty chain. -/
def topBlockHash : DbM Hash := do
  let db ← get
  if db.height ≠ 0 then getBlockHashFromHeight (db.height - 1)
    else pure nullHash

/-- `block_exists`. -/
def blockExists (blkHash : Hash) : DbM Bool := do
  let db ← get
  pure (db.tables.blockHeights blkHash).isSome

/-- `get_block_height`: `BLOCK_DNE` for an unknown hash. -/
def getBlockHeight (blkHash : Hash) : DbM Nat := do
  let db ← get
  match db.tables.blockHeights blkHash with
  | some height => pure height
  | none => throw .blockDne

/-- `tx_exists`. -/
def txExists (txHash : Hash) : DbM Bool := do
  let db ← get
  pure (db.tables.txIndices txHash).isSome

/-! ## Outputs -/

/-- `add_output`: the global output row and the row under the amount, whose
`amount_index` is the number of outputs of that amount. -/
def addOutput (txHash : Hash) (txOutput : TxOut) (localIndex : Nat)
    (unlockTime : UInt64) (commitment : Option Key) : DbM Nat := do
  let db ← get
  let .txoutToKey pubkey := txOutput.target | throw .dbError
  throwIf (txOutput.amount = 0 ∧ commitment.isNone) .dbError
  let outputTxs ← orDbError
    (AppendTable.append db.tables.outputTxs db.numOutputs
      ⟨db.numOutputs, txHash, localIndex⟩)
  modifyTables fun tables => { tables with outputTxs }
  let amountIndex := (db.tables.outputAmounts txOutput.amount).length
  let outKey : OutKey :=
    { amountIndex
      outputId := db.numOutputs
      pubkey
      unlockTime
      height := db.height
      commitment := if txOutput.amount = 0 then commitment else none }
  let amountOutputs ← orDbError
    (AppendTable.append (db.tables.outputAmounts txOutput.amount)
      amountIndex outKey)
  modifyTables fun tables =>
    { tables with
      outputAmounts :=
        Function.update tables.outputAmounts txOutput.amount amountOutputs }
  modify fun db => { db with numOutputs := db.numOutputs + 1 }
  pure amountIndex

/-- `add_tx_amount_output_indices`. -/
def addTxAmountOutputIndices (txId : Nat)
    (amountOutputIndices : List Nat) : DbM Unit := do
  let db ← get
  let txOutputs ← orDbError
      (AppendTable.append db.tables.txOutputs txId amountOutputIndices)
  modifyTables fun tables => { tables with txOutputs }

/-- `remove_output`: find the row by amount and amount index, then drop it
and its global output row. -/
def removeOutput (amount : UInt64) (outIndex : Nat) : DbM Unit := do
  let db ← get
  let some outKey := AppendTable.get (db.tables.outputAmounts amount) outIndex
    | throw .outputDne
  throwIf (AppendTable.get db.tables.outputTxs outKey.outputId).isNone .dbError
  modifyTables fun tables =>
    { tables with
      outputTxs := AppendTable.delete tables.outputTxs outKey.outputId
      outputAmounts := Function.update tables.outputAmounts amount
        (AppendTable.delete (tables.outputAmounts amount) outIndex) }
  modify fun db => { db with numOutputs := db.numOutputs - 1 }

/-- Whether `remove_tx_outputs` takes a transaction's outputs as RingCT
outputs of amount zero: a version-2-or-later transaction whose only input
is a `txin_gen`. -/
def isPseudoRct (tx : Transaction) : Bool :=
  decide (2 ≤ tx.version) && match tx.vin with
    | [.txinGen _] => true
    | _ => false

/-- `remove_tx_outputs`: the outputs, last first, by their stored amount
indices.  A missing `tx_outputs` row leaves the read undefined. -/
def removeTxOutputs (txId : Nat) (tx : Transaction) : DbM Unit := do
  let db ← get
  let some amountOutputIndices := AppendTable.get db.tables.txOutputs txId
    | throw .undefinedRead
  throwIf (amountOutputIndices.isEmpty ∧ !tx.vout.isEmpty) .dbError
  for i in (List.range tx.vout.length).reverse do
    let some outIndex := amountOutputIndices[i]? | throw .undefinedRead
    let amount := if isPseudoRct tx then 0 else (tx.vout.getD i default).amount
    removeOutput amount outIndex

/-! ## Transaction rows and aliases -/

/-- `get_tx`: the transaction under a hash, through its `txindex`. -/
def getTx (txHash : Hash) : DbM Transaction := do
  let db ← get
  let some index := db.tables.txIndices txHash | throw .txDne
  let some tx := AppendTable.get db.tables.txs index.txId | throw .txDne
  pure tx

/-- The alias-table row `add_transaction_data` writes for a registration:
the key is the alias as a C string, the value the height in decimal followed
by the address, again cut at its first NUL. -/
def aliasRow (height : Nat) (nonces : AliasNonces) : Bytes × Bytes :=
  (cString (convertAlias nonces.name),
    cString (decimalBytes height ++ nonces.address))

/-- The alias part of `add_transaction_data`: the alias row
(`MDB_NOOVERWRITE`), then the cache entry. -/
def addAlias (nonces : AliasNonces) : DbM Unit := do
  let db ← get
  let (key, value) := aliasRow db.height nonces
  let name := convertAlias nonces.name
  throwIf (key ∈ db.tables.aliases) .dbError
  modifyTables fun tables =>
    { tables with aliases := tables.aliases.insert key value }
  throwIf (name ∈ db.aliasesMultiIndex) .dbError
  modify fun db =>
    { db with
      aliasesMultiIndex :=
        db.aliasesMultiIndex.insert name (db.height, nonces.address) }

/-- `add_transaction_data`: the `txindex` and transaction rows and, for an
alias registration, the alias.  The new transaction id is `m_num_txs`. -/
def addTransactionData (tx : Transaction) (txHash : Hash) : DbM Nat := do
  let db ← get
  let txId := db.numTxs
  throwIf (db.tables.txIndices txHash).isSome .txExists
  modifyTables fun tables =>
    { tables with
      txIndices := Function.update tables.txIndices txHash
        (some ⟨txId, tx.unlockTime, db.height⟩) }
  let txs ← orDbError (AppendTable.append db.tables.txs txId tx)
  modifyTables fun tables => { tables with txs }
  (aliasNonces tx.extra).forM addAlias
  modify fun db => { db with numTxs := db.numTxs + 1 }
  pure txId

/-- Whether `remove_transaction_data` drops the alias of a registration: the
address decodes, parses on the network its prefix names, the alias is not
empty after `convert_alias` and the signature verifies. -/
def aliasRemovable (env : DbEnv) (nonces : AliasNonces) : Bool :=
  match env.decodeAddr nonces.address with
  | none => false
  | some (addressPrefix, _) =>
      let testnet := addressPrefix = testnetPublicAddressBase58Prefix ∨
        addressPrefix = testnetPublicIntegratedAddressBase58Prefix ∨
        addressPrefix = testnetPublicSubaddressBase58Prefix
      match env.getAccountAddressFromStr testnet nonces.address with
      | none => false
      | some info =>
          let name := convertAlias nonces.name
          !name.isEmpty && env.verifyHelper name info nonces.signature

/-- The alias part of `remove_transaction_data`: the alias row, then the
cache entry, each of which must be there. -/
def removeAlias (nonces : AliasNonces) : DbM Unit := do
  let db ← get
  let key := cString (convertAlias nonces.name)
  let name := convertAlias nonces.name
  throwIf (key ∉ db.tables.aliases) .dbError
  modifyTables fun tables => { tables with aliases := tables.aliases.erase key }
  throwIf (name ∉ db.aliasesMultiIndex) .dbError
  modify fun db =>
    { db with aliasesMultiIndex := db.aliasesMultiIndex.erase name }

/-- `remove_transaction_data`: the transaction row, its outputs, its
`tx_outputs` row, the alias when `aliasRemovable` holds, and last the
`txindex` row. -/
def removeTransactionData (env : DbEnv) (txHash : Hash) (tx : Transaction) :
    DbM Unit := do
  let db ← get
  let some index := db.tables.txIndices txHash | throw .txDne
  throwIf (AppendTable.get db.tables.txs index.txId).isNone .dbError
  modifyTables fun tables =>
    { tables with txs := AppendTable.delete tables.txs index.txId }
  removeTxOutputs index.txId tx
  modifyTables fun tables =>
    { tables with txOutputs := AppendTable.delete tables.txOutputs index.txId }
  (aliasNonces tx.extra).forM fun nonces =>
    if aliasRemovable env nonces then removeAlias nonces else pure ()
  modifyTables fun tables =>
    { tables with txIndices := Function.update tables.txIndices txHash none }
  modify fun db => { db with numTxs := db.numTxs - 1 }

end BlockchainDb
end Citicash
