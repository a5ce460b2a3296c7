import Citicash.CryptonoteCore.Blockchain

/-!
# Alternative chains and reorganisation

`handle_alternative_block`, `get_next_difficulty_for_alternative_chain`,
`switch_to_alternative_blockchain`, `rollback_blockchain_switching` and
`add_new_block` of `cryptonote_core/blockchain.cpp`.

An alternative chain is the list of `m_alternative_chains` entries from the
one next to the main chain to the newest, as `handle_alternative_block`
collects it; the source keeps iterators into the map, whose entries never
change once inserted, so the list holds the entries themselves.

`handle_alternative_block` and `switch_to_alternative_blockchain` call each
other: a switch that keeps the disconnected blocks hands each of them to
`handle_alternative_block`.  The model bounds the depth with `fuel`; out of
fuel, `handleAlternativeBlock` refuses the block and changes nothing.  The
loops that pop blocks are bounded by the height, which they lower by one
each round or throw.
-/

namespace Citicash
namespace CryptonoteCore

open Cryptonote StateRun BlockchainDb

variable (env : ChainEnv)

/-- An alternative chain: map keys and entries, next to the main chain
first. -/
abbrev AltChain := List (Hash × BlockExtendedInfo)

/-- Invalidate the difficulty cache (`m_timestamps_and_difficulties_height
= 0`). -/
def resetDifficultyCache : ChainM Unit :=
  modify fun chain => { chain with timestampsAndDifficultiesHeight := 0 }

/-- `m_alternative_chains.erase`. -/
def eraseAlternative (h : Hash) : ChainM Unit :=
  modify fun chain =>
    { chain with alternativeChains := chain.alternativeChains.erase h }

/-! ## Rolling back -/

/-- The loop of `rollback_blockchain_switching`: pop until the store's
height is `rollbackHeight`, at most `count` times. -/
def popBlocksToHeight (rollbackHeight : Nat) : Nat → ChainM Unit
  | 0 => pure ()
  | count + 1 => do
      let chain ← get
      if chain.db.height = rollbackHeight then pure ()
      else do
        let _ ← popBlockFromBlockchain env
        popBlocksToHeight rollbackHeight count

/-- The second loop of `rollback_blockchain_switching`: each original
block through `handle_block_to_main_chain`; `false` at the first refusal
(the source's PANIC). -/
def readdOriginalChain : List Block → ChainM Bool
  | [] => pure true
  | bl :: rest => do
      let added ← handleBlockToMainChain env bl (env.dbEnv.getBlockHash bl)
      if added then readdOriginalChain rest else pure false

/-- `rollback_blockchain_switching(original_chain, rollback_height)`: pop
back to `rollback_height`, then add the original blocks again. -/
def rollbackBlockchainSwitching (originalChain : List Block)
    (rollbackHeight : Nat) :
    ChainM Bool := do
  let chain ← get
  if chain.db.height < rollbackHeight then pure true
  else do
    resetDifficultyCache
    popBlocksToHeight env rollbackHeight (chain.db.height - rollbackHeight)
    readdOriginalChain env originalChain

/-! ## Switching -/

/-- The first loop of `switch_to_alternative_blockchain`: pop until the top
block is `prevId`, at most `count` times; the popped blocks, lowest
first. -/
def popBlocksToParent (prevId : Hash) : Nat → List Block → ChainM (List Block)
  | 0, disconnected => pure disconnected
  | count + 1, disconnected => do
      let top ← liftDb topBlockHash
      if top = prevId then pure disconnected
      else do
        let b ← popBlockFromBlockchain env
        popBlocksToParent prevId count (b :: disconnected)

/-- The connecting loop of `switch_to_alternative_blockchain`: each
alternative block through `handle_block_to_main_chain`; the entries from
the first refused one on, empty when all are added. -/
def connectAltChain : AltChain → ChainM AltChain
  | [] => pure []
  | entry :: rest => do
      let added ← handleBlockToMainChain env entry.2.bl
          (env.dbEnv.getBlockHash entry.2.bl)
      if added then connectAltChain rest else pure (entry :: rest)

/-- The failure path of `switch_to_alternative_blockchain`: the refused
block and every block after it are marked invalid and leave the
alternative chains. -/
def invalidateAltChain (refused : Hash × BlockExtendedInfo) (rest : AltChain) :
    ChainM Unit := do
  discard (addBlockAsInvalid refused.2 (env.dbEnv.getBlockHash refused.2.bl))
  eraseAlternative refused.1
  rest.forM fun entry => do
    discard (addBlockAsInvalid entry.2 entry.1)
    eraseAlternative entry.1

/-- `switch_to_alternative_blockchain(alt_chain, discard_disconnected_chain)`:
pop to the alternative chain's parent, add its blocks; on a refusal roll
back to the original chain and invalidate the rest of the alternative one.
On success the disconnected blocks go to `handleAlternative` unless
discarded, and the alternative chain leaves `m_alternative_chains`. -/
def switchToAlternativeBlockchain
    (handleAlternative : Block → Hash → ChainM Bool)
    (altChain : AltChain) (discardDisconnectedChain : Bool) : ChainM Bool := do
  resetDifficultyCache
  match altChain with
  | [] => pure false
  | front :: _ =>
      let parentExists ← liftDb (blockExists front.2.bl.prevId)
      if !parentExists then pure false
      else do
        let chain ← get
        let disconnected ← popBlocksToParent env front.2.bl.prevId
            (chain.db.height + 1) []
        let chain ← get
        let splitHeight := chain.db.height
        match ← connectAltChain env altChain with
        | refused :: rest =>
            discard (rollbackBlockchainSwitching env disconnected splitHeight)
            invalidateAltChain env refused rest
            pure false
        | [] =>
            (if discardDisconnectedChain then []
               else disconnected).forM fun b =>
              discard (handleAlternative b (env.dbEnv.getBlockHash b))
            altChain.forM fun entry => eraseAlternative entry.1
            pure true

/-! ## Alternative blocks -/

/-- `main_chain_stop_offset`: the height of the alternative chain's first
block, or of the new block when the chain is empty; the main chain's blocks
below it are the ones the alternative chain builds on. -/
def mainChainStopOffset (altChain : AltChain) (height : Nat) : Nat :=
  match altChain with
  | front :: _ => front.2.height
  | [] => height

/-- The difficulty window of a block on top of `altChain` whose own height
is `height`: `get_next_difficulty_for_alternative_chain`.  A short
alternative chain is preceded by main-chain blocks from height one on; a
long one gives its last `DIFFICULTY_BLOCKS_COUNT` blocks alone.  The
source's sanity check on the window's length answers `0`. -/
def getNextDifficultyForAlternativeChain (altChain : AltChain) (height : Nat) :
    ChainM UInt64 := do
  if altChain.length < difficultyBlocksCount then
    let stop := mainChainStopOffset altChain height
    let count := min (difficultyBlocksCount - altChain.length) stop
    let (timestamps, difficulties) ← readWindow (max (stop - count) 1) stop
    if difficultyBlocksCount < altChain.length + timestamps.length then pure 0
    else
      pure
        (nextDifficulty
          (timestamps ++ altChain.map fun entry => entry.2.bl.timestamp)
          (difficulties ++ altChain.map fun entry =>
            entry.2.cumulativeDifficulty)
          difficultyTarget)
  else
    let last := altChain.drop (altChain.length - difficultyBlocksCount)
    pure (nextDifficulty (last.map fun entry => entry.2.bl.timestamp)
      (last.map fun entry => entry.2.cumulativeDifficulty) difficultyTarget)

/-- The walk of `handle_alternative_block` from `prevId` back through the
alternative blocks, at most `fuel` steps: the entries, next to the main
chain first.  The map's size suffices, as no block is its own ancestor. -/
def buildAltChain (alternativeChains : AList fun _ : Hash => BlockExtendedInfo)
    (prevId : Hash) :
    Nat → AltChain
  | 0 => []
  | fuel + 1 =>
      match alternativeChains.lookup prevId with
      | none => []
      | some bei =>
          buildAltChain alternativeChains bei.bl.prevId fuel ++ [(prevId, bei)]

/-- `complete_timestamps_vector(start_top_height, timestamps)`: up to
`BLOCKCHAIN_TIMESTAMP_CHECK_WINDOW` timestamps, taking the main chain's
from `start_top_height` down, the height where the walk stops not
included. -/
def completeTimestampsVector (startTopHeight : Nat) (timestamps : List UInt64) :
    ChainM (List UInt64) := do
  let chain ← get
  if blockchainTimestampCheckWindow ≤ timestamps.length then pure timestamps
  else if chain.db.height ≤ startTopHeight then pure timestamps
  else
    let need := blockchainTimestampCheckWindow - timestamps.length
    let stop := if need < startTopHeight then startTopHeight - need else 0
    let read ← liftDb
        ((List.range' (stop + 1) (startTopHeight - stop)).reverse.mapM
          getBlockTimestamp)
    pure (timestamps ++ read)

/-- The part of `handle_alternative_block` that joins the alternative chain
to the main chain and completes the timestamps for the median check. -/
def joinAltChain (b : Block) (altChain : AltChain) :
    ChainM (Option (List UInt64)) := do
  let timestamps := (altChain.map fun entry => entry.2.bl.timestamp).reverse
  match altChain with
  | front :: _ =>
      let chain ← get
      whenPasses none (pure (front.2.height < chain.db.height)) <|
      whenPasses none (liftDb (blockExists front.2.bl.prevId)) <| do
      let joint ← liftDb (getBlockHashFromHeight (front.2.height - 1))
      whenPasses none (pure (joint = front.2.bl.prevId)) <| do
      let parentHeight ← liftDb (BlockchainDb.getBlockHeight front.2.bl.prevId)
      some <$> completeTimestampsVector parentHeight timestamps
  | [] => do
      let parentHeight ← liftDb (BlockchainDb.getBlockHeight b.prevId)
      some <$> completeTimestampsVector parentHeight timestamps

/-- The height of a block on top of `altChain`, or, when that is empty, on
top of the main-chain block `prevId`. -/
def alternativeHeight (altChain : AltChain) (prevId : Hash) : ChainM Nat :=
  match altChain.getLast? with
  | some (_, prev) => pure (prev.height + 1)
  | none => (· + 1) <$> liftDb (BlockchainDb.getBlockHeight prevId)

/-- The cumulative difficulty of that block's parent. -/
def parentCumulativeDifficulty (altChain : AltChain) (prevId : Hash) :
    ChainM UInt64 :=
  match altChain.getLast? with
  | some (_, prev) => pure prev.cumulativeDifficulty
  | none => liftDb do
      let parentHeight ← BlockchainDb.getBlockHeight prevId
      getBlockCumulativeDifficulty parentHeight

/-- The checks of `handle_alternative_block` on a block whose parent is
known: the timestamp, the checkpoint, the proof of work for the
alternative chain's difficulty and the miner transaction.  `some` carries
the alternative chain below the block, the block's entry, whether its
height has a checkpoint, and the main chain's cumulative difficulty. -/
def checkAlternativeBlock (b : Block) (id : Hash) :
    ChainM (Option (AltChain × BlockExtendedInfo × Bool × UInt64)) := do
  let chain ← get
  let altChain :=
    buildAltChain chain.alternativeChains b.prevId
      chain.alternativeChains.entries.length
  match ← joinAltChain b altChain with
  | none => pure none
  | some timestamps =>
      whenPasses none (pure (median timestamps ≤ b.timestamp)) <| do
      let height ← alternativeHeight altChain b.prevId
      let checkpoint := checkBlock env.checkpoints height id
      whenPasses none (pure checkpoint.1) <| do
      let currentDiff ← getNextDifficultyForAlternativeChain altChain height
      whenPasses none (pure (currentDiff ≠ 0)) <|
      whenPasses none (pure (checkHash (env.getBlockLonghash b) currentDiff)) <|
      whenPasses none (pure (prevalidateMinerTransaction b height)) <| do
      let chain ← get
      let mainChainCumulativeDifficulty ←
        liftDb (getBlockCumulativeDifficulty (chain.db.height - 1))
      let parentDifficulty ← parentCumulativeDifficulty altChain b.prevId
      pure
        (some (altChain,
          ⟨b, height, parentDifficulty + currentDiff⟩, checkpoint.2,
            mainChainCumulativeDifficulty))

/-- `handle_alternative_block(b, id, bvc)`: a block whose parent is neither
on the main chain nor an alternative block is an orphan and ignored; a
checked one joins `m_alternative_chains` and, at a checkpoint or with more
cumulative difficulty than the main chain, the chain switches to its
alternative chain. -/
def handleAlternativeBlock : Nat → Block → Hash → ChainM Bool
  | 0, _, _ => pure false
  | fuel + 1, b, id => do
      resetDifficultyCache
      let chain ← get
      let blockHeight := getBlockHeight b
      whenPasses false (pure (blockHeight ≠ 0 &&
        isAlternativeBlockAllowed env.checkpoints chain.db.height
          blockHeight)) <| do
      let parentInMain ← liftDb (blockExists b.prevId)
      if b.prevId ∉ chain.alternativeChains ∧ !parentInMain then pure true
      else
        match ← checkAlternativeBlock env b id with
        | none => pure false
        | some (altChain, bei, isCheckpoint,
            mainChainCumulativeDifficulty) => do
            let chain ← get
            if id ∈ chain.alternativeChains then pure false
            else do
              modify fun chain =>
                { chain with
                  alternativeChains := chain.alternativeChains.insert id bei }
              let altChain := altChain ++ [(id, bei)]
              if isCheckpoint then
                switchToAlternativeBlockchain env
                  (handleAlternativeBlock fuel) altChain true
              else if mainChainCumulativeDifficulty <
                     bei.cumulativeDifficulty then
                switchToAlternativeBlockchain env
                  (handleAlternativeBlock fuel) altChain false
              else pure true

/-- `add_new_block(bl, bvc)`: a known block is refused; one on the tail goes
to the main chain, any other to the alternative chains. -/
def addNewBlock (fuel : Nat) (bl : Block) : ChainM Bool := do
  let id := env.dbEnv.getBlockHash bl
  let chain ← get
  let inMain ← liftDb (blockExists id)
  if inMain ∨ id ∈ chain.alternativeChains ∨
    id ∈ chain.invalidBlocks then pure false
  else do
    let tailId ← getTailId
    if bl.prevId ≠ tailId then handleAlternativeBlock env fuel bl id
    else handleBlockToMainChain env bl id

/-! ## The chain's calls -/

/-- A new chain: empty store, pool, caches and maps. -/
def Blockchain.empty : Blockchain :=
  ⟨BlockchainLmdb.empty, TxMemoryPool.empty, 0, [], [], ∅, ∅, []⟩

/-- The calls that move the chain: blocks offered to the main chain or the
alternative chains, pops, switches and rollbacks, the difficulty query of
the block template, transactions offered to the pool, and the preparation
of incoming blocks, of which the model keeps only the hashes it leaves in
`m_blocks_txs_check`. -/
inductive ChainCall
  | handleBlockToMainChain (bl : Block) (id : Hash)
  | addNewBlock (fuel : Nat) (bl : Block)
  | handleAlternativeBlock (fuel : Nat) (b : Block) (id : Hash)
  | popBlockFromBlockchain
  | switchToAlternativeBlockchain (fuel : Nat) (altChain : AltChain)
    (discardDisconnectedChain : Bool)
  | rollbackBlockchainSwitching (originalChain : List Block)
    (rollbackHeight : Nat)
  | getDifficultyForNextBlock
  | addTx (tx : Transaction) (keptByBlock relayed : Bool)
  | prepareHandleIncomingBlocks (blocksTxsCheck : List Hash)

/-- The state a call leaves, whether it returns or throws. -/
def ChainCall.run : ChainCall → Blockchain → Blockchain
  | .handleBlockToMainChain bl id, chain =>
      finalState (CryptonoteCore.handleBlockToMainChain env bl id chain)
  | .addNewBlock fuel bl,
      chain => finalState (CryptonoteCore.addNewBlock env fuel bl chain)
  | .handleAlternativeBlock fuel b id, chain =>
      finalState (CryptonoteCore.handleAlternativeBlock env fuel b id chain)
  | .popBlockFromBlockchain,
      chain => finalState (CryptonoteCore.popBlockFromBlockchain env chain)
  | .switchToAlternativeBlockchain fuel altChain
      discardDisconnectedChain, chain =>
      finalState (CryptonoteCore.switchToAlternativeBlockchain env
        (CryptonoteCore.handleAlternativeBlock env fuel) altChain
          discardDisconnectedChain chain)
  | .rollbackBlockchainSwitching originalChain rollbackHeight, chain =>
      finalState
        (CryptonoteCore.rollbackBlockchainSwitching env originalChain
          rollbackHeight chain)
  | .getDifficultyForNextBlock,
      chain => finalState (CryptonoteCore.getDifficultyForNextBlock chain)
  | .addTx tx keptByBlock relayed,
      chain => finalState (addTxToPool env tx keptByBlock relayed chain)
  | .prepareHandleIncomingBlocks blocksTxsCheck,
      chain => { chain with blocksTxsCheck }

/-- The states a new chain reaches through any sequence of calls, each with
the environment of its moment (the clock moves between calls). -/
inductive Reachable : Blockchain → Prop
  | empty : Reachable Blockchain.empty
  | call {chain : Blockchain} (env : ChainEnv) (call : ChainCall) :
      Reachable chain → Reachable (call.run env chain)

/-- The state a sequence of calls leaves, all in one environment. -/
def ChainCall.runAll (env : ChainEnv) (calls : List ChainCall)
    (chain : Blockchain) : Blockchain :=
  calls.foldl (fun chain call => call.run env chain) chain

theorem Reachable.runAll {chain : Blockchain} (env : ChainEnv) :
    ∀ calls, Reachable chain → Reachable (ChainCall.runAll env calls chain)
  | [], reachable => reachable
  | next :: calls,
      reachable => Reachable.runAll env calls (.call env next reachable)

/-! ## A run on fixed inputs -/

/-- Hashes that tell the objects of `sampleRun` apart: a miner transaction
and its block by the height of its `txin_gen`, every other transaction
alike. -/
def heightHashEnv : DbEnv :=
  { fixedHashEnv with
    getTransactionHash := fun tx =>
      match tx.vin with
      | [.txinGen gen] => fillKey (UInt8.ofNat gen.height)
      | _ => fillKey 200
    getBlockHash := fun blk =>
      match blk.minerTx.vin with
      | [.txinGen gen] => fillKey (UInt8.ofNat (100 + gen.height))
      | _ => fillKey 255 }

/-- An environment whose oracles accept: the hard fork, the inputs, the
fee and every output key pass, the clock stands at zero and every block's
long hash is zero, which meets any difficulty. -/
def acceptingEnv : ChainEnv :=
  ⟨heightHashEnv, ∅, [], fun _ _ => true, 0, fun _ => default, fun _ => true,
    fun _ _ => true, fun _ _ _ => true, fun _ => 0, fun _ => 0⟩

/-- A transaction spending the key image `fillKey 7` in a ring of eight. -/
def spendingTx : Transaction :=
  { (default : Transaction) with
    version := 2
    vin := [.txinToKey ⟨0, List.replicate 7 0, fillKey 7⟩] }

/-- The first block, which takes `spendingTx` from the pool, and the block
on top of it, whose miner takes 1000 of its reward. -/
def genesisBlock : Block :=
  { (default : Block) with
    minerTx :=
      { (default : Transaction) with vin := [.txinGen ⟨0⟩], unlockTime := 10 }
    txHashes := [fillKey 200] }

def secondBlock : Block :=
  { (default : Block) with
    prevId := fillKey 100
    minerTx :=
      { (default : Transaction) with
        vin := [.txinGen ⟨1⟩]
        unlockTime := 11
        vout := [⟨1000, .txoutToKey (fillKey 9)⟩] } }

/-- A new node takes `spendingTx` into its pool, then accepts the two
blocks. -/
def sampleRun : List ChainCall :=
  [.addTx spendingTx false false,
    .handleBlockToMainChain genesisBlock (fillKey 100),
    .handleBlockToMainChain secondBlock (fillKey 101)]

def sampleChain : Blockchain :=
  ChainCall.runAll acceptingEnv sampleRun Blockchain.empty

theorem sampleChain_reachable : Reachable sampleChain :=
  Reachable.runAll acceptingEnv sampleRun .empty

-- both blocks are stored, and the first spent the key image of `spendingTx`
example : sampleChain.db.height = 2 ∧ sampleChain.db.tables.spentKeys =
    {fillKey 7} := by
  decide +kernel

end CryptonoteCore
end Citicash
