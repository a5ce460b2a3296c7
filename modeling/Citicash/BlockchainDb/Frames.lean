import Citicash.BlockchainDb.BlockchainDb

/-!
# What each step of the store leaves alone

Each step of the store writes a few tables.  The invariants of the later
modules read two views of the state: the spent key images with the
transaction rows (`keyView`), and the `block_info` rows with the height
(`blockRows`).  Each step gets here the frame condition for the views it does
not write, on every run, successful or not: the output and alias steps leave
both, the key-image and transaction steps leave the block rows, and the
block-row steps leave the key view and the height.
-/

namespace Citicash
namespace BlockchainDb

open Cryptonote StateRun

variable {β : Type}

/-- The spent key images and the transaction rows. -/
def keyView (db : BlockchainLmdb) :
    Finset KeyImage × List (Nat × Transaction) :=
  (db.tables.spentKeys, db.tables.txs)

/-- The `block_info` rows and `m_height`. -/
def blockRows (db : BlockchainLmdb) : List (Nat × BlockInfo) × Nat :=
  (db.tables.blockInfo, db.height)

/-- Both views. -/
def keysAndRows (db : BlockchainLmdb) :
    (Finset KeyImage × List (Nat × Transaction)) ×
      (List (Nat × BlockInfo) × Nat) :=
  (keyView db, blockRows db)

/-- A table update that writes nothing the view reads; for the record updates
of the model the side condition holds by `rfl`. -/
theorem modifyTables_frames {view : BlockchainLmdb → β}
    {change : Tables → Tables}
    (same : ∀ db, view { db with tables := change db.tables } = view db) :
    Frames view (modifyTables change) :=
  Frames.modify same

/-- An update of the in-memory members that the view does not read. -/
theorem counters_frames {view : BlockchainLmdb → β}
    {change : BlockchainLmdb → BlockchainLmdb}
    (same : ∀ db, view (change db) = view db) :
    Frames view (modify change : DbM Unit) :=
  Frames.modify same

/-! ## Reads -/

theorem orDbError_inspects (result : Option α) :
    Inspects (orDbError result) := by
  cases result with
  | some value => exact Inspects.pure value
  | none => exact Inspects.throw _

theorem throwIf_inspects (cond : Prop) [Decidable cond] (e : DbException) :
    Inspects (throwIf cond e) :=
  Inspects.ite (Inspects.throw e) (Inspects.pure ())

theorem checkParent_inspects (db : BlockchainLmdb) (prevId : Hash) :
    Inspects (checkParent db prevId) := by
  unfold checkParent
  split
  · split
    · exact Inspects.throw _
    · exact throwIf_inspects _ _
  · exact Inspects.pure ()

theorem getTopBlock_inspects : Inspects getTopBlock := by
  refine Inspects.bind Inspects.get fun db => ?_
  split
  · exact Inspects.pure _
  · split
    · exact Inspects.pure _
    · exact Inspects.throw _

theorem getBlockInfo_inspects (height : Nat) :
    Inspects (getBlockInfo height) := by
  refine Inspects.bind Inspects.get fun db => ?_
  split
  · exact Inspects.pure _
  · exact Inspects.throw _

theorem getBlockTimestamp_inspects (height : Nat) :
    Inspects (getBlockTimestamp height) :=
  (getBlockInfo_inspects height).map

theorem getBlockCumulativeDifficulty_inspects (height : Nat) :
    Inspects (getBlockCumulativeDifficulty height) :=
  (getBlockInfo_inspects height).map

theorem getBlockAlreadyGeneratedCoins_inspects (height : Nat) :
    Inspects (getBlockAlreadyGeneratedCoins height) :=
  (getBlockInfo_inspects height).map

theorem getBlockHashFromHeight_inspects (height : Nat) :
    Inspects (getBlockHashFromHeight height) :=
  (getBlockInfo_inspects height).map

theorem getBlockSize_inspects (height : Nat) : Inspects (getBlockSize height) :=
  (getBlockInfo_inspects height).map

theorem topBlockHash_inspects : Inspects topBlockHash :=
  Inspects.bind Inspects.get fun _ =>
    Inspects.ite (getBlockHashFromHeight_inspects _) (Inspects.pure _)

theorem blockExists_inspects (blkHash : Hash) :
    Inspects (blockExists blkHash) :=
  Inspects.bind Inspects.get fun _ => Inspects.pure _

theorem txExists_inspects (txHash : Hash) : Inspects (txExists txHash) :=
  Inspects.bind Inspects.get fun _ => Inspects.pure _

theorem getBlockHeight_inspects (blkHash : Hash) :
    Inspects (getBlockHeight blkHash) := by
  refine Inspects.bind Inspects.get fun db => ?_
  split
  · exact Inspects.pure _
  · exact Inspects.throw _

theorem getTx_inspects (txHash : Hash) : Inspects (getTx txHash) := by
  refine Inspects.bind Inspects.get fun db => ?_
  split
  · split
    · exact Inspects.pure _
    · exact Inspects.throw _
  · exact Inspects.throw _

/-! ## Block rows: the key view and the height stay -/

theorem addBlockRows_frames (blk : Block) (blockSize : Nat)
    (cumulativeDifficulty coinsGenerated : UInt64) (blkHash : Hash) :
    Frames (fun db => (keyView db, db.height))
      (addBlockRows blk blockSize cumulativeDifficulty
        coinsGenerated blkHash) := by
  unfold addBlockRows
  refine Frames.bind (Frames.of_inspects Inspects.get) fun db => ?_
  refine Frames.bind (Frames.of_inspects (throwIf_inspects _ _)) fun _ => ?_
  refine Frames.bind (Frames.of_inspects (checkParent_inspects _ _)) fun _ => ?_
  refine Frames.bind (Frames.of_inspects (orDbError_inspects _)) fun _ => ?_
  refine Frames.bind (modifyTables_frames fun _ => rfl) fun _ => ?_
  refine Frames.bind (Frames.of_inspects (orDbError_inspects _)) fun _ => ?_
  exact modifyTables_frames fun _ => rfl

theorem removeBlock_frames :
    Frames (fun db => (keyView db, db.height)) removeBlock := by
  unfold removeBlock
  refine Frames.bind (Frames.of_inspects Inspects.get) fun db => ?_
  refine Frames.bind (Frames.of_inspects (throwIf_inspects _ _)) fun _ => ?_
  split
  · refine Frames.bind (Frames.of_inspects (throwIf_inspects _ _)) fun _ => ?_
    refine Frames.bind (modifyTables_frames fun _ => rfl) fun _ => ?_
    refine Frames.bind (Frames.of_inspects (throwIf_inspects _ _)) fun _ => ?_
    exact modifyTables_frames fun _ => rfl
  · exact Frames.throw _

/-! ## Outputs and aliases: both views stay -/

theorem addOutput_frames (txHash : Hash) (txOutput : TxOut) (localIndex : Nat)
    (unlockTime : UInt64) (commitment : Option Key) :
    Frames keysAndRows
      (addOutput txHash txOutput localIndex unlockTime commitment) := by
  unfold addOutput
  refine Frames.bind (Frames.of_inspects Inspects.get) fun db => ?_
  split
  · refine Frames.bind (Frames.of_inspects (throwIf_inspects _ _)) fun _ => ?_
    refine Frames.bind (Frames.of_inspects (orDbError_inspects _)) fun _ => ?_
    refine Frames.bind (modifyTables_frames fun _ => rfl) fun _ => ?_
    refine Frames.bind (Frames.of_inspects (orDbError_inspects _)) fun _ => ?_
    refine Frames.bind (modifyTables_frames fun _ => rfl) fun _ => ?_
    exact Frames.bind (counters_frames fun _ => rfl) fun _ => Frames.pure _
  · exact Frames.throw _

theorem addOutputs_frames (env : DbEnv) (tx : Transaction) (txHash : Hash)
    (minerTx : Bool) :
    Frames keysAndRows (addOutputs env tx txHash minerTx) := by
  unfold addOutputs
  refine Frames.mapM fun ⟨vout, i⟩ _ => ?_
  dsimp only
  split
  · exact addOutput_frames _ _ _ _ _
  · split
    · split
      · exact addOutput_frames _ _ _ _ _
      · exact Frames.throw _
    · exact addOutput_frames _ _ _ _ _

theorem addTxAmountOutputIndices_frames (txId : Nat)
    (amountOutputIndices : List Nat) :
    Frames keysAndRows (addTxAmountOutputIndices txId amountOutputIndices) := by
  unfold addTxAmountOutputIndices
  refine Frames.bind (Frames.of_inspects Inspects.get) fun _ => ?_
  exact Frames.bind (Frames.of_inspects (orDbError_inspects _)) fun _ =>
    modifyTables_frames fun _ => rfl

theorem removeOutput_frames (amount : UInt64) (outIndex : Nat) :
    Frames keysAndRows (removeOutput amount outIndex) := by
  unfold removeOutput
  refine Frames.bind (Frames.of_inspects Inspects.get) fun db => ?_
  split
  · refine Frames.bind (Frames.of_inspects (throwIf_inspects _ _)) fun _ => ?_
    refine Frames.bind (modifyTables_frames fun _ => rfl) fun _ => ?_
    exact counters_frames fun _ => rfl
  · exact Frames.throw _

theorem removeTxOutputs_frames (txId : Nat) (tx : Transaction) :
    Frames keysAndRows (removeTxOutputs txId tx) := by
  unfold removeTxOutputs
  refine Frames.bind (Frames.of_inspects Inspects.get) fun db => ?_
  split
  · refine Frames.bind (Frames.of_inspects (throwIf_inspects _ _)) fun _ => ?_
    refine Frames.bind (Frames.forIn fun i _ _ => ?_) fun _ => Frames.pure ()
    split
    · exact Frames.bind (removeOutput_frames _ _) fun _ => Frames.pure _
    · exact Frames.bind (Frames.throw _) fun _ => Frames.pure _
  · exact Frames.throw _

theorem addAlias_frames (nonces : AliasNonces) :
    Frames keysAndRows (addAlias nonces) := by
  unfold addAlias
  refine Frames.bind (Frames.of_inspects Inspects.get) fun db => ?_
  refine Frames.bind (Frames.of_inspects (throwIf_inspects _ _)) fun _ => ?_
  refine Frames.bind (modifyTables_frames fun _ => rfl) fun _ => ?_
  refine Frames.bind (Frames.of_inspects (throwIf_inspects _ _)) fun _ => ?_
  exact counters_frames fun _ => rfl

theorem removeAlias_frames (nonces : AliasNonces) :
    Frames keysAndRows (removeAlias nonces) := by
  unfold removeAlias
  refine Frames.bind (Frames.of_inspects Inspects.get) fun db => ?_
  refine Frames.bind (Frames.of_inspects (throwIf_inspects _ _)) fun _ => ?_
  refine Frames.bind (modifyTables_frames fun _ => rfl) fun _ => ?_
  refine Frames.bind (Frames.of_inspects (throwIf_inspects _ _)) fun _ => ?_
  exact counters_frames fun _ => rfl

/-! ## Key images and transactions: the block rows stay -/

theorem addSpentKey_frames (kImage : KeyImage) :
    Frames blockRows (addSpentKey kImage) := by
  unfold addSpentKey
  refine Frames.bind (Frames.of_inspects Inspects.get) fun _ => ?_
  exact Frames.bind (Frames.of_inspects (throwIf_inspects _ _)) fun _ =>
    modifyTables_frames fun _ => rfl

theorem removeSpentKey_frames (kImage : KeyImage) :
    Frames blockRows (removeSpentKey kImage) :=
  modifyTables_frames fun _ => rfl

theorem addInputs_frames :
    ∀ (vin : List TxinV) (minerTx : Bool),
      Frames blockRows (addInputs vin minerTx)
  | [], _ => Frames.pure _
  | .txinToKey _ :: rest, minerTx =>
      Frames.bind (addSpentKey_frames _) fun _ => addInputs_frames rest minerTx
  | .txinGen _ :: rest, _ => addInputs_frames rest true
  | .txinToScript _ :: _, _ => Frames.pure _
  | .txinToScripthash _ :: _, _ => Frames.pure _

theorem addTransactionData_frames (tx : Transaction) (txHash : Hash) :
    Frames blockRows (addTransactionData tx txHash) := by
  unfold addTransactionData
  refine Frames.bind (Frames.of_inspects Inspects.get) fun db => ?_
  refine Frames.bind (Frames.of_inspects (throwIf_inspects _ _)) fun _ => ?_
  refine Frames.bind (modifyTables_frames fun _ => rfl) fun _ => ?_
  refine Frames.bind (Frames.of_inspects (orDbError_inspects _)) fun _ => ?_
  refine Frames.bind (modifyTables_frames fun _ => rfl) fun _ => ?_
  refine Frames.bind
    (Frames.optionForM fun nonces _ => (addAlias_frames nonces).comp Prod.snd)
    fun _ => ?_
  exact Frames.bind (counters_frames fun _ => rfl) fun _ => Frames.pure _

variable (env : DbEnv)

theorem addTransaction_frames (tx : Transaction) (txHashPtr : Option Hash) :
    Frames blockRows (addTransaction env tx txHashPtr) := by
  unfold addTransaction
  refine Frames.bind (addInputs_frames _ _) fun outcome => ?_
  cases outcome with
  | unsupported => exact Frames.forM fun _ _ => removeSpentKey_frames _
  | supported minerTx =>
      refine Frames.bind (addTransactionData_frames _ _) fun _ => ?_
      refine Frames.bind
        ((addOutputs_frames env _ _ _).comp Prod.snd) fun _ => ?_
      exact (addTxAmountOutputIndices_frames _ _).comp Prod.snd

theorem addTransactions_frames (blk : Block) :
    ∀ txs : List (Transaction × Nat),
      Frames blockRows (addTransactions env blk txs)
  | [] => Frames.pure ()
  | (tx, i) :: rest => by
      unfold addTransactions
      split
      · exact Frames.bind (addTransaction_frames env _ _) fun _ =>
          addTransactions_frames blk rest
      · exact Frames.throw _

theorem removeTransactionData_frames (txHash : Hash) (tx : Transaction) :
    Frames blockRows (removeTransactionData env txHash tx) := by
  unfold removeTransactionData
  refine Frames.bind (Frames.of_inspects Inspects.get) fun db => ?_
  split
  · refine Frames.bind (Frames.of_inspects (throwIf_inspects _ _)) fun _ => ?_
    refine Frames.bind (modifyTables_frames fun _ => rfl) fun _ => ?_
    refine Frames.bind ((removeTxOutputs_frames _ _).comp Prod.snd) fun _ => ?_
    refine Frames.bind (modifyTables_frames fun _ => rfl) fun _ => ?_
    refine Frames.bind (Frames.optionForM fun nonces _ => ?_) fun _ => ?_
    · exact Frames.ite ((removeAlias_frames nonces).comp Prod.snd)
        (Frames.pure ())
    · exact Frames.bind (modifyTables_frames fun _ => rfl) fun _ =>
        counters_frames fun _ => rfl
  · exact Frames.throw _

theorem removeTransaction_frames (txHash : Hash) :
    Frames blockRows (removeTransaction env txHash) := by
  unfold removeTransaction
  exact Frames.bind (Frames.of_inspects (getTx_inspects txHash)) fun tx =>
    Frames.bind (Frames.forM fun _ _ => removeSpentKey_frames _) fun _ =>
      removeTransactionData_frames env txHash tx

end BlockchainDb
end Citicash
