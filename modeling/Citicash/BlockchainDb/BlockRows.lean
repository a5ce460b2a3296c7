import Citicash.BlockchainDb.Frames

/-!
# The block rows follow the height

`block_info` is written with `MDB_APPEND` under the height of the block it
describes, so its rows are keyed `0, 1, …, m_height - 1` in order
(`RowsDense`) and read like the list of the main chain's rows, genesis first
(`mainRows`).  A successful `add_block` appends the row of the new block and
raises the height, a successful `pop_block` drops the top row and lowers the
height, and a failed one leaves both: the abort gives the table back, and
nothing below the wrapper touches `m_height`.
-/

namespace Citicash
namespace BlockchainDb

open Cryptonote StateRun

/-- The `block_info` rows are keyed by the heights below `m_height`, in
order. -/
def RowsDense (db : BlockchainLmdb) : Prop :=
  db.tables.blockInfo.map Prod.fst = List.range db.height

/-- The main chain's `block_info` rows, genesis first. -/
def mainRows (db : BlockchainLmdb) : List BlockInfo :=
  db.tables.blockInfo.map Prod.snd

/-- The row `add_block` writes for a block at height `height`: no generated
coins for the genesis block. -/
def blockInfoRow (blk : Block) (height blockSize : Nat)
    (cumulativeDifficulty coinsGenerated : UInt64)
    (blkHash : Hash) : BlockInfo :=
  { biHeight := height
    biTimestamp := blk.timestamp
    biCoins := if height = 0 then 0 else coinsGenerated
    biSize := blockSize
    biDiff := cumulativeDifficulty
    biHash := blkHash }

theorem RowsDense.length_mainRows {db : BlockchainLmdb} (dense : RowsDense db) :
    (mainRows db).length = db.height := by
  have lengths := congrArg List.length dense
  simpa [mainRows] using lengths

theorem RowsDense.of_blockRows {db db' : BlockchainLmdb} (dense : RowsDense db)
    (same : blockRows db' = blockRows db) : RowsDense db' := by
  simp only [blockRows, Prod.mk.injEq] at same
  rw [RowsDense, same.1, same.2]
  exact dense

/-- On dense rows, `get_block_info(height)` returns the row at that position. -/
theorem getBlockInfo_of_dense {db : BlockchainLmdb}
    (dense : RowsDense db) {height : Nat} {info : BlockInfo}
    (row : (mainRows db)[height]? = some info) :
    getBlockInfo height db = .ok info db := by
  have found : AppendTable.get db.tables.blockInfo height = some info :=
    (AppendTable.get_of_keys_range dense height).trans row
  simp [getBlockInfo, found]

/-! ## Adding a block -/

theorem addBlockRows_blockInfo {blk : Block} {blockSize : Nat}
    {cumulativeDifficulty coinsGenerated : UInt64} {blkHash : Hash}
    {db db' : BlockchainLmdb} {u : Unit}
    (run : addBlockRows blk blockSize cumulativeDifficulty coinsGenerated
      blkHash db = .ok u db') :
    db'.tables.blockInfo = db.tables.blockInfo ++
        [(db.height, blockInfoRow blk db.height blockSize cumulativeDifficulty
          coinsGenerated blkHash)] ∧
      db'.height = db.height := by
  unfold addBlockRows at run
  rw [get_bind_apply] at run
  obtain ⟨_, _, freshRun, run⟩ := bind_eq_ok.mp run
  obtain rfl := (throwIf_inspects _ _).eq_of_ok freshRun
  obtain ⟨_, _, parentRun, run⟩ := bind_eq_ok.mp run
  obtain rfl := (checkParent_inspects _ _).eq_of_ok parentRun
  obtain ⟨blocks, _, blocksRun, run⟩ := bind_eq_ok.mp run
  obtain ⟨-, rfl⟩ := orDbError_eq_ok.mp blocksRun
  obtain ⟨_, _, putRun, run⟩ := bind_eq_ok.mp run
  cases putRun
  obtain ⟨infos, _, infosRun, run⟩ := bind_eq_ok.mp run
  obtain ⟨appended, rfl⟩ := orDbError_eq_ok.mp infosRun
  cases run
  exact ⟨AppendTable.append_eq_some appended, rfl⟩

variable (env : DbEnv)

theorem addBlockUnwrapped_frames_height (blk : Block) (blockSize : Nat)
    (cumulativeDifficulty coinsGenerated : UInt64) (txs : List Transaction) :
    Frames (·.height)
    (addBlockUnwrapped env blk blockSize cumulativeDifficulty
      coinsGenerated txs) := by
  unfold addBlockUnwrapped
  refine Frames.bind ((addBlockRows_frames _ _ _ _ _).comp Prod.snd) fun _ => ?_
  refine Frames.bind ((addTransaction_frames env _ _).comp Prod.snd) fun _ => ?_
  refine Frames.bind
    ((addTransactions_frames env _ _).comp Prod.snd) fun _ => ?_
  exact Frames.bind (Frames.of_inspects Inspects.get) fun _ => Frames.pure _

theorem addBlockUnwrapped_blockInfo {blk : Block} {blockSize : Nat}
    {cumulativeDifficulty coinsGenerated : UInt64} {txs : List Transaction}
    {db db' : BlockchainLmdb} {height : Nat}
    (run : addBlockUnwrapped env blk blockSize cumulativeDifficulty
      coinsGenerated txs db = .ok height db') :
    db'.tables.blockInfo = db.tables.blockInfo ++
      [(db.height, blockInfoRow blk db.height blockSize cumulativeDifficulty
        coinsGenerated (env.getBlockHash blk))] ∧
      db'.height = db.height := by
  unfold addBlockUnwrapped at run
  obtain ⟨_, rowsAdded, rowsRun, run⟩ := bind_eq_ok.mp run
  obtain ⟨_, minerAdded, minerRun, run⟩ := bind_eq_ok.mp run
  obtain ⟨_, txsAdded, txsRun, run⟩ := bind_eq_ok.mp run
  rw [get_bind_apply] at run
  cases run
  -- the transactions leave the rows `add_block` wrote
  have kept : blockRows db' = blockRows rowsAdded :=
    ((addTransactions_frames env blk _).preserves.eq txsRun).trans
      ((addTransaction_frames env _ _).preserves.eq minerRun)
  simp only [blockRows, Prod.mk.injEq] at kept
  rw [kept.1, kept.2]
  exact addBlockRows_blockInfo rowsRun

/-- A successful `add_block` appends the block's row under the old height
and raises the height by one. -/
theorem addBlock_blockInfo {blk : Block} {blockSize : Nat}
    {cumulativeDifficulty coinsGenerated : UInt64} {txs : List Transaction}
    {db db' : BlockchainLmdb} {newHeight : Nat}
    (run : addBlock env blk blockSize cumulativeDifficulty coinsGenerated txs
      db = .ok newHeight db') :
    db'.tables.blockInfo = db.tables.blockInfo ++
      [(db.height, blockInfoRow blk db.height blockSize cumulativeDifficulty
        coinsGenerated (env.getBlockHash blk))] ∧
      db'.height = db.height + 1 := by
  obtain ⟨_, stored, storeRun, run⟩ := bind_eq_ok.mp run
  rw [modifyGet_apply] at run
  cases run
  obtain ⟨rows, sameHeight⟩ :=
    addBlockUnwrapped_blockInfo env (inWriteTxn_eq_ok.mp storeRun)
  exact ⟨rows, by rw [← sameHeight]⟩

/-- An aborted write transaction whose body leaves the height leaves the
block rows. -/
theorem inWriteTxn_error_blockRows {step : DbM α}
    (keepsHeight : Frames (·.height) step) {db db' : BlockchainLmdb}
    {e : DbException} (run : inWriteTxn step db = .error e db') :
    blockRows db' = blockRows db := by
  unfold inWriteTxn at run
  split at run
  · cases run
  · rename_i failed
    cases run
    have sameHeight := keepsHeight.final db
    rw [failed] at sameHeight
    simp only [blockRows, Prod.mk.injEq, true_and]
    exact sameHeight

theorem addBlock_error_blockRows {blk : Block} {blockSize : Nat}
    {cumulativeDifficulty coinsGenerated : UInt64} {txs : List Transaction}
    {db db' : BlockchainLmdb} {e : DbException}
    (run : addBlock env blk blockSize cumulativeDifficulty coinsGenerated txs
      db = .error e db') :
    blockRows db' = blockRows db := by
  rcases bind_eq_error.mp run with aborted | ⟨_, _, _, counted⟩
  · exact inWriteTxn_error_blockRows
      (addBlockUnwrapped_frames_height env _ _ _ _ _) aborted
  · cases counted

/-! ## Popping a block -/

theorem removeBlock_blockInfo {db db' : BlockchainLmdb} {u : Unit}
    (run : removeBlock db = .ok u db') :
    0 < db.height ∧ db'.tables.blockInfo =
      AppendTable.delete db.tables.blockInfo (db.height - 1) ∧
        db'.height = db.height := by
  unfold removeBlock at run
  rw [get_bind_apply] at run
  obtain ⟨_, mid, nonEmptyRun, run⟩ := bind_eq_ok.mp run
  obtain ⟨nonEmpty, sameDb⟩ := throwIf_eq_ok.mp nonEmptyRun
  subst mid
  cases found : AppendTable.get db.tables.blockInfo (db.height - 1) with
  | none =>
      simp only [found] at run
      cases run
  | some info =>
      simp only [found] at run
      obtain ⟨_, mid, indexedRun, run⟩ := bind_eq_ok.mp run
      obtain ⟨-, sameDb⟩ := throwIf_eq_ok.mp indexedRun
      subst mid
      obtain ⟨_, _, unindexRun, run⟩ := bind_eq_ok.mp run
      cases unindexRun
      obtain ⟨_, mid, storedRun, run⟩ := bind_eq_ok.mp run
      obtain ⟨-, sameDb⟩ := throwIf_eq_ok.mp storedRun
      subst mid
      cases run
      exact ⟨Nat.pos_of_ne_zero nonEmpty, rfl, rfl⟩

/-- The transactions `pop_block` removes after the block's own rows. -/
theorem removeBlockTxs_frames (txHashes : List Hash) :
    Frames blockRows (txHashes.mapM fun txHash => do
      let tx ← getTx txHash
      removeTransaction env txHash
      pure tx) :=
  Frames.mapM fun txHash _ =>
    Frames.bind (Frames.of_inspects (getTx_inspects txHash)) fun _ =>
      Frames.bind (removeTransaction_frames env txHash) fun _ => Frames.pure _

theorem popBlockUnwrapped_frames_height :
    Frames (·.height) (popBlockUnwrapped env) := by
  unfold popBlockUnwrapped
  refine Frames.bind (Frames.of_inspects getTopBlock_inspects) fun blk => ?_
  refine Frames.bind (removeBlock_frames.comp Prod.snd) fun _ => ?_
  refine Frames.bind ((removeBlockTxs_frames env _).comp Prod.snd) fun _ => ?_
  exact Frames.bind ((removeTransaction_frames env _).comp Prod.snd)
    fun _ => Frames.pure _

/-- A successful `pop_block` deletes the top row and lowers the height by
one. -/
theorem popBlock_blockInfo {db db' : BlockchainLmdb}
    {popped : Block × List Transaction}
    (run : popBlock env db = .ok popped db') :
    0 < db.height ∧ db'.tables.blockInfo =
      AppendTable.delete db.tables.blockInfo (db.height - 1) ∧
        db'.height = db.height - 1 := by
  obtain ⟨_, stored, storeRun, run⟩ := bind_eq_ok.mp run
  obtain ⟨_, lowered, lowerRun, run⟩ := bind_eq_ok.mp run
  cases lowerRun
  cases run
  have unwrapped := inWriteTxn_eq_ok.mp storeRun
  unfold popBlockUnwrapped at unwrapped
  obtain ⟨blk, topped, topRun, unwrapped⟩ := bind_eq_ok.mp unwrapped
  have sameDb := getTopBlock_inspects.eq_of_ok topRun
  subst topped
  obtain ⟨_, removed, removeRun, unwrapped⟩ := bind_eq_ok.mp unwrapped
  obtain ⟨_, afterTxs, txsRun, unwrapped⟩ := bind_eq_ok.mp unwrapped
  obtain ⟨_, afterMiner, minerRun, unwrapped⟩ := bind_eq_ok.mp unwrapped
  cases unwrapped
  -- the transactions leave the rows `remove_block` left
  have kept : blockRows stored = blockRows removed :=
    ((removeTransaction_frames env _).preserves.eq minerRun).trans
      ((removeBlockTxs_frames env _).preserves.eq txsRun)
  simp only [blockRows, Prod.mk.injEq] at kept
  obtain ⟨nonEmpty, rows, sameHeight⟩ := removeBlock_blockInfo removeRun
  exact ⟨nonEmpty, kept.1.trans rows, by simp [kept.2, sameHeight]⟩

theorem popBlock_error_blockRows {db db' : BlockchainLmdb} {e : DbException}
    (run : popBlock env db = .error e db') : blockRows db' = blockRows db := by
  rcases bind_eq_error.mp run with aborted | ⟨_, _, _, rest⟩
  · exact inWriteTxn_error_blockRows
      (popBlockUnwrapped_frames_height env) aborted
  · rcases bind_eq_error.mp rest with lowered | ⟨_, _, _, returned⟩
    · cases lowered
    · cases returned

/-! ## Dense rows on every run -/

/-- A successful `add_block` appends its row to the main chain's rows. -/
theorem addBlock_mainRows {blk : Block} {blockSize : Nat}
    {cumulativeDifficulty coinsGenerated : UInt64} {txs : List Transaction}
    {db db' : BlockchainLmdb} {newHeight : Nat}
    (run : addBlock env blk blockSize cumulativeDifficulty coinsGenerated txs
      db = .ok newHeight db') :
    mainRows db' = mainRows db ++
      [blockInfoRow blk db.height blockSize cumulativeDifficulty coinsGenerated
        (env.getBlockHash blk)] := by
  rw [mainRows, (addBlock_blockInfo env run).1, List.map_append]
  rfl

theorem addBlock_rowsDense (blk : Block) (blockSize : Nat)
    (cumulativeDifficulty coinsGenerated : UInt64) (txs : List Transaction) :
    Maintains RowsDense
      (addBlock env blk blockSize cumulativeDifficulty coinsGenerated txs) := by
  intro db dense
  cases run : addBlock env blk blockSize cumulativeDifficulty
    coinsGenerated txs db with
  | ok newHeight db' =>
      obtain ⟨rows, raised⟩ := addBlock_blockInfo env run
      change db'.tables.blockInfo.map Prod.fst = List.range db'.height
      rw [rows, raised, List.map_append, dense, List.range_succ]
      rfl
  | error e db' => exact dense.of_blockRows (addBlock_error_blockRows env run)

/-- On dense rows, a successful `pop_block` drops the top row. -/
theorem popBlock_mainRows {db db' : BlockchainLmdb}
    {popped : Block × List Transaction} (dense : RowsDense db)
    (run : popBlock env db = .ok popped db') :
    RowsDense db' ∧ mainRows db' = (mainRows db).dropLast := by
  obtain ⟨nonEmpty, rows, lowered⟩ := popBlock_blockInfo env run
  obtain ⟨below, raised⟩ : ∃ below, db.height = below + 1 :=
    ⟨db.height - 1, by omega⟩
  rw [raised, Nat.add_sub_cancel] at rows lowered
  have dropped : db'.tables.blockInfo = db.tables.blockInfo.dropLast := by
    rw [rows]
    exact AppendTable.delete_of_keys_range (raised ▸ dense)
  constructor
  · change db'.tables.blockInfo.map Prod.fst = List.range db'.height
    rw [dropped, lowered, List.map_dropLast, dense, raised, List.range_succ,
      List.dropLast_concat]
  · rw [mainRows, mainRows, dropped, List.map_dropLast]

theorem popBlock_rowsDense : Maintains RowsDense (popBlock env) := by
  intro db dense
  cases run : popBlock env db with
  | ok popped db' => exact (popBlock_mainRows env dense run).1
  | error e db' => exact dense.of_blockRows (popBlock_error_blockRows env run)

end BlockchainDb
end Citicash
