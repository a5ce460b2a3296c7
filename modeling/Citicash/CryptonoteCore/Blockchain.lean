import Citicash.BlockchainDb.BlockchainDb
import Citicash.CryptonoteCore.TxPool
import Citicash.CryptonoteCore.Consensus

/-!
# The blockchain

`Blockchain` of `cryptonote_core/blockchain.cpp`: the store, the pool, the
difficulty cache, the alternative and invalid blocks, and the operations
that move the main chain: `handle_block_to_main_chain` and
`pop_block_from_blockchain` here, the reorganisation in
`Citicash.CryptonoteCore.Reorganize`.  An exception of the store that the
source does not catch leaves the operation with the state it reached.

What the model takes from outside is collected in `ChainEnv`: the hashes,
the proof-of-work hash, `check_key`, the inputs check of a transaction
against the chain (`check_tx_inputs`, ring signatures and RingCT), the
dynamic fee, the hard-fork check, the clock, and the `double` stages of the
emission.  The hard-fork state, the block size limit and the statistics the
source keeps on the side are not modelled.
-/

namespace Citicash
namespace CryptonoteCore

open Cryptonote StateRun BlockchainDb

/-! ## Checkpoints -/

/-- `checkpoints::m_points`. -/
abbrev Checkpoints := AList fun _ : Nat => Hash

/-- `is_in_checkpoint_zone`: at or below the highest checkpoint. -/
def isInCheckpointZone (points : Checkpoints) (height : Nat) : Bool :=
  match points.keys.max? with
  | some top => height ≤ top
  | none => false

/-- `checkpoints::check_block(height, h, is_a_checkpoint)`: whether the
block passes, and whether its height has a checkpoint. -/
def checkBlock (points : Checkpoints) (height : Nat) (h : Hash) : Bool × Bool :=
  match points.lookup height with
  | some expected => (expected = h, true)
  | none => (true, false)

/-- `is_alternative_block_allowed`: above the last checkpoint at or below
the chain's height. -/
def isAlternativeBlockAllowed (points : Checkpoints)
    (blockchainHeight blockHeight : Nat) : Bool :=
  if blockHeight = 0 then false
  else
    match (points.keys.filter (· ≤ blockchainHeight)).max? with
    | none => true
    | some checkpointHeight => checkpointHeight < blockHeight

/-! ## State and environment -/

/-- `block_extended_info`: the fields the alternative chains set and read. -/
structure BlockExtendedInfo where
  bl : Block
  height : Nat
  cumulativeDifficulty : UInt64
  deriving DecidableEq, Repr, Inhabited

/-- The members of `Blockchain` the modelled operations read or write. -/
structure Blockchain where
  db : BlockchainLmdb
  txPool : TxMemoryPool
  timestampsAndDifficultiesHeight : Nat
  timestamps : List UInt64
  difficulties : List UInt64
  alternativeChains : AList fun _ : Hash => BlockExtendedInfo
  invalidBlocks : AList fun _ : Hash => BlockExtendedInfo
  blocksTxsCheck : List Hash

/-- What the chain's operations take from outside. -/
structure ChainEnv where
  dbEnv : DbEnv
  checkpoints : Checkpoints
  /-- `m_blocks_hash_check`, the compiled-in block hashes. -/
  blocksHashCheck : List Hash
  /-- `m_hardfork->check`. -/
  hardForkCheck : BlockchainLmdb → Block → Bool
  /-- `get_adjusted_time`, the clock. -/
  adjustedTime : UInt64
  /-- `get_block_longhash`; the precomputed table holds the same values. -/
  getBlockLonghash : Block → Hash
  checkKey : PublicKey → Bool
  /-- `check_tx_inputs(tx, tvc, &max_used_block_height)` and its bound on
  the height used. -/
  checkTxInputs : BlockchainLmdb → Transaction → Bool
  checkFee : BlockchainLmdb → Nat → UInt64 → Bool
  getObjectBlobsize : Transaction → Nat
  earlyEmission : Nat → UInt64

abbrev ChainM := EStateM DbException Blockchain

/-- A step of the store run on the chain's store. -/
def liftDb (x : DbM α) : ChainM α := fun chain =>
  match x chain.db with
  | .ok a db => .ok a { chain with db }
  | .error e db => .error e { chain with db }

/-- `CRYPTONOTE_BLOCK_FUTURE_TIME_LIMIT`, `BLOCKCHAIN_TIMESTAMP_CHECK_WINDOW`,
`CRYPTONOTE_REWARD_BLOCKS_WINDOW`, `CRYPTONOTE_MINED_MONEY_UNLOCK_WINDOW`. -/
def cryptonoteBlockFutureTimeLimit : UInt64 := 60 * 24
def blockchainTimestampCheckWindow : Nat := 12
def cryptonoteRewardBlocksWindow : Nat := 60
def cryptonoteMinedMoneyUnlockWindow : Nat := 10

/-! ## Single checks -/

/-- `get_block_height`: the height in the miner transaction's `txin_gen`,
zero for a miner transaction of another shape. -/
def getBlockHeight (b : Block) : Nat :=
  match b.minerTx.vin with
  | [.txinGen gen] => gen.height
  | _ => 0

/-- `is_coinbase`. -/
def isCoinbase (tx : Transaction) : Bool :=
  match tx.vin with
  | [.txinGen _] => true
  | _ => false

/-- `prevalidate_miner_transaction`: one `txin_gen` input at the block's
height, the unlock time `height + CRYPTONOTE_MINED_MONEY_UNLOCK_WINDOW`, and
output amounts whose sum does not wrap. -/
def prevalidateMinerTransaction (b : Block) (height : Nat) : Bool :=
  match b.minerTx.vin with
  | [.txinGen gen] =>
      gen.height = height ∧
        b.minerTx.unlockTime =
          UInt64.ofNat (height + cryptonoteMinedMoneyUnlockWindow) ∧
        b.minerTx.checkOutsOverflow
  | _ => false

/-- `Blockchain::check_tx_outputs`: amounts zero and keys valid. -/
def checkTxOutputs (env : ChainEnv) (tx : Transaction) : Bool :=
  tx.vout.all (fun out => out.amount = 0) &&
    tx.vout.all fun out =>
      match out.target with
      | .txoutToKey key => env.checkKey key
      | _ => true

/-- The alias a transaction registers is already on the chain
(`get_alias_address` with premature aliases). -/
def aliasTaken (db : BlockchainLmdb) (tx : Transaction) : Bool :=
  match registeredAlias tx with
  | some name => !name.isEmpty && !(getAliasAddress db name true).isEmpty
  | none => false

/-- What the pool asks of the chain.  Below the compiled-in block hashes
the inputs check of a transaction from a block passes without checking. -/
def poolChecks (env : ChainEnv) (db : BlockchainLmdb) : PoolChecks where
  checkFee := env.checkFee db
  checkTxOutputs := checkTxOutputs env
  checkTxInputs keptByBlock tx :=
    if db.height < env.blocksHashCheck.length ∧ keptByBlock then true
    else env.checkTxInputs db tx
  getAliasAddress name := getAliasAddress db name true

variable (env : ChainEnv)

/-! ## The chain's own steps -/

/-- `get_tail_id`. -/
def getTailId : ChainM Hash := liftDb topBlockHash

/-- `tx_memory_pool::add_tx(tx, tvc, kept_by_block, relayed, version)` as
the chain calls it, with the transaction's hash and blob size.  The inputs
check of a transaction from a block below the compiled-in block hashes
records its hash in `m_blocks_txs_check`; it is reached when the checks
before it pass. -/
def addTxToPool (tx : Transaction) (keptByBlock relayed : Bool) : ChainM Bool :=
  modifyGet fun chain =>
    let id := env.dbEnv.getTransactionHash tx
    let blobSize := env.getObjectBlobsize tx
    let checks := poolChecks env chain.db
    let reachesInputs :=
      (addTxChecksBeforeInputs checks chain.txPool tx id blobSize
        keptByBlock).isSome
    let blocksTxsCheck :=
      if reachesInputs ∧ chain.db.height < env.blocksHashCheck.length ∧
        keptByBlock then
        chain.blocksTxsCheck ++ [id]
      else chain.blocksTxsCheck
    let (added, txPool) :=
      addTx checks tx id blobSize keptByBlock relayed chain.txPool
    (added, { chain with txPool, blocksTxsCheck })

/-- `return_tx_to_pool`: each transaction back into the pool as kept by a
block; a refusal is only logged. -/
def returnTxToPool (txs : List Transaction) : ChainM Unit :=
  txs.forM fun tx => discard (addTxToPool env tx true true)

/-- `tx_memory_pool::take_tx`. -/
def takeTxFromPool (id : Hash) : ChainM (Option TxDetails) :=
  modifyGet fun chain =>
    let (taken, txPool) := takeTx env.dbEnv.getTransactionHash id chain.txPool
    (taken, { chain with txPool })

/-- `add_block_as_invalid(bei, h)`: refused when `h` is already invalid. -/
def addBlockAsInvalid (bei : BlockExtendedInfo) (h : Hash) : ChainM Bool :=
  modifyGet fun chain =>
    if h ∈ chain.invalidBlocks then (false, chain)
    else (true,
      { chain with invalidBlocks := chain.invalidBlocks.insert h bei })

/-- The block overload of `add_block_as_invalid`. -/
def addBlockAsInvalidBlock (bl : Block) (h : Hash) : ChainM Bool :=
  addBlockAsInvalid { bl, height := 0, cumulativeDifficulty := 0 } h

/-- The timestamp and the cumulative difficulty of a height, read in turn. -/
def readPoint (height : Nat) : DbM (UInt64 × UInt64) := do
  let timestamp ← getBlockTimestamp height
  let difficulty ← getBlockCumulativeDifficulty height
  pure (timestamp, difficulty)

/-- The timestamps and cumulative difficulties of the heights
`[start, stop)`. -/
def readWindow (start stop : Nat) : ChainM (List UInt64 × List UInt64) := do
  let rows ← liftDb ((List.range' start (stop - start)).mapM readPoint)
  pure rows.unzip

/-- `check_block_timestamp(b)`: not past the clock by more than
`CRYPTONOTE_BLOCK_FUTURE_TIME_LIMIT`, and, once the chain is long enough,
not below the median of the last `BLOCKCHAIN_TIMESTAMP_CHECK_WINDOW`
timestamps. -/
def checkBlockTimestamp (b : Block) : ChainM Bool := do
  let chain ← get
  let h := chain.db.height
  if env.adjustedTime + cryptonoteBlockFutureTimeLimit <
    b.timestamp then pure false
  else if h < blockchainTimestampCheckWindow then pure true
  else
    let timestamps ← liftDb
      ((List.range' (h - blockchainTimestampCheckWindow)
        blockchainTimestampCheckWindow).mapM getBlockTimestamp)
    pure (median timestamps ≤ b.timestamp)

/-- `get_last_n_blocks_sizes(sz, count)`: the sizes of the last `count`
blocks, fewer on a shorter chain. -/
def getLastNBlocksSizes (count : Nat) : ChainM (List Nat) := do
  let chain ← get
  let h := chain.db.height
  liftDb ((List.range' (h - min h count) (min h count)).mapM getBlockSize)

/-! ## The difficulty of the next block -/

/-- The last `n` entries: the `while (size() > n) erase(begin())` loops. -/
def keepLast (n : Nat) (v : List UInt64) : List UInt64 :=
  v.drop (v.length - n)

/-- `get_difficulty_for_next_block`.  When the cache was filled at the
height just below, it takes the new top block's timestamp and cumulative
difficulty and drops the oldest; otherwise it reads the window
`[max(1, height - DIFFICULTY_BLOCKS_COUNT), height)` again. -/
def getDifficultyForNextBlock : ChainM UInt64 := do
  let chain ← get
  let height := chain.db.height
  if chain.timestampsAndDifficultiesHeight ≠ 0 ∧
      height - chain.timestampsAndDifficultiesHeight = 1 then
    let timestamp ← liftDb (getBlockTimestamp (height - 1))
    modify fun chain =>
      { chain with timestamps := chain.timestamps ++ [timestamp] }
    let difficulty ← liftDb (getBlockCumulativeDifficulty (height - 1))
    modifyGet fun chain =>
      let timestamps := keepLast difficultyBlocksCount chain.timestamps
      let difficulties :=
        keepLast difficultyBlocksCount (chain.difficulties ++ [difficulty])
      (nextDifficulty timestamps difficulties difficultyTarget,
        { chain with
          timestamps, difficulties, timestampsAndDifficultiesHeight := height })
  else
    let offset := height - min height difficultyBlocksCount
    let (timestamps, difficulties) ← readWindow (max offset 1) height
    modifyGet fun chain =>
      (nextDifficulty timestamps difficulties difficultyTarget,
        { chain with
          timestamps, difficulties, timestampsAndDifficultiesHeight := height })

/-! ## Adding a block on top of the main chain -/

/-- Go on with `rest` when `check` passes, else stop with `refused`: the
source's early `return false` (or `goto leave`). -/
def whenPasses (refused : α) (check : ChainM Bool)
    (rest : ChainM α) : ChainM α := do
  if ← check then rest else pure refused

/-- The checks of `handle_block_to_main_chain` before its transaction loop:
the parent, the hard fork, the timestamp, the difficulty, the proof of work
or, below the compiled-in hashes, the block hash itself, the checkpoint and
the miner transaction.  `some` carries the difficulty and `fast_check`. -/
def checkBlockToMainChain (bl : Block) (id : Hash) :
    ChainM (Option (UInt64 × Bool)) :=
  whenPasses none (do let tailId ← getTailId; pure (bl.prevId = tailId)) <|
  whenPasses none (do let chain ← get; pure (env.hardForkCheck chain.db bl)) <|
  whenPasses none (checkBlockTimestamp env bl) <| do
  let currentDiffic ← getDifficultyForNextBlock
  let chain ← get
  let height := chain.db.height
  let fastCheck := decide (height < env.blocksHashCheck.length)
  whenPasses none (pure (currentDiffic ≠ 0)) <|
  whenPasses none
    (pure (if fastCheck
             then env.blocksHashCheck[height]? =
                    some (env.dbEnv.getBlockHash bl)
    else checkHash (env.getBlockLonghash bl) currentDiffic)) <|
  whenPasses none (pure (!isInCheckpointZone env.checkpoints height ||
    (checkBlock env.checkpoints height id).1)) <|
  whenPasses none (pure (prevalidateMinerTransaction bl height)) <|
  pure (some (currentDiffic, fastCheck))

/-- A rejected block's exit from the transaction loop: the transactions
taken so far go back to the pool. -/
def rejectBlockTxs (txs : List Transaction) : ChainM (Option α) := do
  returnTxToPool env txs
  pure none

/-- The exit for a transaction that fails its checks: the block is also
marked invalid. -/
def invalidateBlockTxs (bl : Block) (id : Hash) (txs : List Transaction) :
    ChainM (Option α) := do
  discard (addBlockAsInvalidBlock bl id)
  rejectBlockTxs env txs

/-- The transaction loop of `handle_block_to_main_chain`: each hash must be
new to the chain and taken from the pool; then its inputs are checked
against the chain, or under `fast_check` its hash against
`m_blocks_txs_check`, and its alias against the chain.  `some` carries the
transactions, the fee sum and the block size. -/
def takeBlockTxs (bl : Block) (id : Hash) (fastCheck : Bool) :
    List Hash → List Transaction → UInt64 → UInt64 → Nat →
      ChainM (Option (List Transaction × UInt64 × UInt64))
  | [], txs, feeSummary, cumulativeBlockSize, _ =>
      pure (some (txs, feeSummary, cumulativeBlockSize))
  | txId :: rest, txs, feeSummary, cumulativeBlockSize, txIndex => do
      let known ← liftDb (txExists txId)
      if known then rejectBlockTxs env txs
      else
        match ← takeTxFromPool env txId with
        | none => rejectBlockTxs env txs
        | some details =>
            let txs := txs ++ [details.tx]
            let chain ← get
            let inputsPass :=
              if fastCheck then chain.blocksTxsCheck[txIndex]? = some txId
              else env.checkTxInputs chain.db details.tx
            if !inputsPass ∨ aliasTaken chain.db details.tx
              then invalidateBlockTxs env bl id txs
            else
              takeBlockTxs bl id fastCheck rest txs (feeSummary + details.fee)
                (cumulativeBlockSize + UInt64.ofNat details.blobSize)
                (if fastCheck then txIndex + 1 else txIndex)

/-- `validate_miner_transaction(b, cumulative_block_size, fee, base_reward,
already_generated_coins, partial_block_reward, version)`: the base reward
for the block's size and the coins generated before, then the miner's
outputs against the reward and the fees.  `some` carries what the block
generates: the outputs less the fees. -/
def validateMinerTransaction (b : Block)
    (cumulativeBlockSize fee alreadyGeneratedCoins : UInt64) :
    ChainM (Option UInt64) := do
  let moneyInUse := b.minerTx.getOutsMoneyAmount
  let lastBlocksSizes ← getLastNBlocksSizes cryptonoteRewardBlocksWindow
  let chain ← get
  match getBlockReward env.earlyEmission
    (median (lastBlocksSizes.map UInt64.ofNat))
      cumulativeBlockSize alreadyGeneratedCoins chain.db.height with
  | none => pure none
  | some baseReward =>
      if baseReward + fee < moneyInUse then pure none
      else if baseReward < moneyInUse - fee then pure none
      else pure (some (moneyInUse - fee))

/-- The coins generated up to the top block, zero on an empty chain. -/
def generatedCoinsBelow (height : Nat) : ChainM UInt64 :=
  if height ≠ 0
    then liftDb (getBlockAlreadyGeneratedCoins (height - 1)) else pure 0

/-- The cumulative difficulty of a block of difficulty `difficulty` on top
of a chain of height `height`. -/
def cumulativeDifficultyOnTop (height : Nat) (difficulty : UInt64) :
    ChainM UInt64 :=
  if height ≠ 0
    then (difficulty + ·) <$> liftDb (getBlockCumulativeDifficulty (height - 1))
  else pure difficulty

/-- `handle_block_to_main_chain(bl, id, bvc)`: the checks, the transactions
out of the pool, the miner transaction, then the coins generated (capped at
`MONEY_SUPPLY`) and the cumulative difficulty for `add_block`.  An exception
of `add_block` returns the transactions to the pool; an exception of a read
goes on to the caller. -/
def handleBlockToMainChain (bl : Block) (id : Hash) : ChainM Bool := do
  match ← checkBlockToMainChain env bl id with
  | none => pure false
  | some (currentDiffic, fastCheck) =>
      let coinbaseBlobSize := UInt64.ofNat (env.getObjectBlobsize bl.minerTx)
      match ← takeBlockTxs env bl id fastCheck bl.txHashes [] 0
        coinbaseBlobSize 0 with
      | none => pure false
      | some (txs, feeSummary, cumulativeBlockSize) =>
          modify fun chain => { chain with blocksTxsCheck := [] }
          let chain ← get
          let height := chain.db.height
          let calGeneratedCoins ←
            generatedCoinsBelow (height - height % coinEmissionHeightInterval)
          match ← validateMinerTransaction env bl cumulativeBlockSize feeSummary
            calGeneratedCoins with
          | none =>
              returnTxToPool env txs
              pure false
          | some baseReward =>
              let generated ← generatedCoinsBelow height
              let alreadyGeneratedCoins :=
                if baseReward < moneySupply - generated
                  then generated + baseReward else moneySupply
              let cumulativeDifficulty ← cumulativeDifficultyOnTop
                  height currentDiffic
              tryCatch
                (do
                  let _ ← liftDb
                      (addBlock env.dbEnv bl cumulativeBlockSize.toNat
                        cumulativeDifficulty alreadyGeneratedCoins txs)
                  pure true)
                fun _ => do
                  returnTxToPool env txs
                  pure false

/-! ## Popping the top block -/

/-- `pop_block_from_blockchain`: invalidates the difficulty cache, pops the
top block from the store (an exception goes on to the caller) and returns
its other transactions to the pool as kept by a block. -/
def popBlockFromBlockchain : ChainM Block := do
  modify fun chain => { chain with timestampsAndDifficultiesHeight := 0 }
  let (popped, poppedTxs) ← liftDb (popBlock env.dbEnv)
  poppedTxs.forM fun tx =>
    if isCoinbase tx then pure () else discard (addTxToPool env tx true true)
  pure popped

end CryptonoteCore
end Citicash
