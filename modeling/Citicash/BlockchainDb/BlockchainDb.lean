import Citicash.BlockchainDb.Lmdb

/-!
# Adding and popping blocks

`BlockchainDB::add_transaction`, `add_block`, `remove_transaction` and
`pop_block` of `blockchain_db/blockchain_db.cpp`, and the wrappers
`BlockchainLMDB::add_block` / `pop_block` that run them in one write
transaction: on any exception the wrapper puts back `m_num_txs` and
`m_num_outputs`, aborts the transaction (the tables return to where they
were) and rethrows.  The alias cache is not put back.

The write transaction is the non-batch one the daemon uses: a batch
transaction, which only the import tool and checkpoint checks open, turns
`block_txn_abort` into a no-op and is not modelled.  The hard-fork
bookkeeping `add_block` calls is not modelled either.
-/

namespace Citicash
namespace BlockchainDb

open Cryptonote StateRun

variable (env : DbEnv)

/-- How the input loop of `add_transaction` ends: with the flag `miner_tx`,
or at an input that is neither `txin_to_key` nor `txin_gen`. -/
inductive InputsOutcome
  | supported (minerTx : Bool)
  | unsupported
  deriving DecidableEq, Repr

/-- The input loop of `add_transaction`: spend each key image, note a
`txin_gen`, stop at an unsupported input. -/
def addInputs : List TxinV → Bool → DbM InputsOutcome
  | [], minerTx => pure (.supported minerTx)
  | .txinToKey input :: rest, minerTx => do
      addSpentKey input.kImage
      addInputs rest minerTx
  | .txinGen _ :: rest, _ => addInputs rest true
  | _ :: _, _ => pure .unsupported

/-- The output loop of `add_transaction`.  A version-2 miner transaction
stores its outputs as RingCT outputs of amount zero under
`zeroCommit(amount)`; other version-2 outputs take their commitment from
`outPk[i]`. -/
def addOutputs (tx : Transaction) (txHash : Hash) (minerTx : Bool) :
    DbM (List Nat) :=
  tx.vout.zipIdx.mapM fun (vout, i) =>
    if minerTx ∧ tx.version = 2 then
      addOutput txHash { vout with amount := 0 } i tx.unlockTime
        (some (env.zeroCommit vout.amount))
    else if 1 < tx.version then
      match tx.rctSignatures.outPk[i]? with
      | some outPk => addOutput txHash vout i tx.unlockTime (some outPk.mask)
      | none => throw .undefinedRead
    else addOutput txHash vout i tx.unlockTime none

/-- `BlockchainDB::add_transaction`.  At an unsupported input it removes the
key image of every `txin_to_key` input of the transaction and returns
without storing it.  A missing hash is computed. -/
def addTransaction (tx : Transaction) (txHashPtr : Option Hash) : DbM Unit := do
  let txHash := txHashPtr.getD (env.getTransactionHash tx)
  match ← addInputs tx.vin false with
  | .unsupported => tx.keyImages.forM removeSpentKey
  | .supported minerTx =>
      let txId ← addTransactionData tx txHash
      let amountOutputIndices ← addOutputs env tx txHash minerTx
      addTxAmountOutputIndices txId amountOutputIndices

/-- The loop of `BlockchainDB::add_block` over the block's transactions,
each stored under the hash at its position in `tx_hashes`. -/
def addTransactions (blk : Block) : List (Transaction × Nat) → DbM Unit
  | [] => pure ()
  | (tx, i) :: rest => do
      let some txHash := blk.txHashes[i]? | throw .undefinedRead
      addTransaction env tx (some txHash)
      addTransactions blk rest

/-- `BlockchainDB::add_block`: the block rows, the miner transaction, the
other transactions; returns the height before the block. -/
def addBlockUnwrapped (blk : Block) (blockSize : Nat)
    (cumulativeDifficulty : UInt64) (coinsGenerated : UInt64)
    (txs : List Transaction) : DbM Nat := do
  addBlockRows blk blockSize cumulativeDifficulty coinsGenerated
    (env.getBlockHash blk)
  addTransaction env blk.minerTx none
  addTransactions env blk txs.zipIdx
  let db ← get
  pure db.height

/-- Run a step in one write transaction: on an exception, the tables and the
two counters return to their values at the start, everything else stays as
the failed step left it, and the exception goes on. -/
def inWriteTxn (step : DbM α) : DbM α := fun db =>
  match step db with
  | .ok value db' => .ok value db'
  | .error e db' =>
      .error e { db' with tables := db.tables, numTxs := db.numTxs,
                          numOutputs := db.numOutputs }

theorem inWriteTxn_eq_ok {step : DbM α} {db db' : BlockchainLmdb} {a : α} :
    inWriteTxn step db = .ok a db' ↔ step db = .ok a db' := by
  unfold inWriteTxn
  split <;> simp_all

/-- `BlockchainLMDB::add_block`: returns the new height. -/
def addBlock (blk : Block) (blockSize : Nat) (cumulativeDifficulty : UInt64)
    (coinsGenerated : UInt64) (txs : List Transaction) : DbM Nat := do
  let _ ← inWriteTxn
      (addBlockUnwrapped env blk blockSize cumulativeDifficulty
        coinsGenerated txs)
  modifyGet fun db => (db.height + 1, { db with height := db.height + 1 })

/-- `BlockchainDB::remove_transaction`: the spent key images of its
`txin_to_key` inputs, then its rows. -/
def removeTransaction (txHash : Hash) : DbM Unit := do
  let tx ← getTx txHash
  tx.keyImages.forM removeSpentKey
  removeTransactionData env txHash tx

/-- `BlockchainDB::pop_block`: the top block's rows, its transactions last
first, then its miner transaction; returns the block and its transactions
in the order they were removed. -/
def popBlockUnwrapped : DbM (Block × List Transaction) := do
  let blk ← getTopBlock
  removeBlock
  let txs ← blk.txHashes.reverse.mapM fun txHash => do
    let tx ← getTx txHash
    removeTransaction env txHash
    pure tx
  removeTransaction env (env.getTransactionHash blk.minerTx)
  pure (blk, txs)

/-- `BlockchainLMDB::pop_block`. -/
def popBlock : DbM (Block × List Transaction) := do
  let popped ← inWriteTxn (popBlockUnwrapped env)
  modify fun db => { db with height := db.height - 1 }
  pure popped

/-- The 32-byte value with every byte `b`. -/
def fillKey (b : UInt8) : Key := ⟨Vector.replicate 32 b⟩

/-- An environment for runs on fixed inputs: every transaction hash the
store computes is `fillKey 3`, every block hash `fillKey 4`, and no alias
registration checks out. -/
def fixedHashEnv : DbEnv where
  getTransactionHash _ := fillKey 3
  getBlockHash _ := fillKey 4
  zeroCommit _ := fillKey 0
  decodeAddr _ := none
  getAccountAddressFromStr _ _ := none
  verifyHelper _ _ _ := false

/-! ## Reading the alias cache -/

/-- `CRYPTONOTE_DEFAULT_TX_SPENDABLE_AGE`. -/
def cryptonoteDefaultTxSpendableAge : Nat := 10

/-- `get_alias_address`: the cached address of an alias, or the empty
string; a premature alias counts only when `getIfPremature`. -/
def getAliasAddress (db : BlockchainLmdb) (name : Bytes)
    (getIfPremature : Bool) : Bytes :=
  match db.aliasesMultiIndex.lookup name with
  | some (height, address) =>
      if getIfPremature ∨ height + cryptonoteDefaultTxSpendableAge ≤
        db.height then address
      else []
  | none => []

end BlockchainDb
end Citicash
