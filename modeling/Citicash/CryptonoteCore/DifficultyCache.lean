import Citicash.CryptonoteCore.ChainInvariant
import Citicash.BlockchainDb.BlockRows

/-!
# The difficulty of the next block depends on its parent chain only

`get_difficulty_for_next_block` feeds `next_difficulty` the timestamps and
cumulative difficulties of the heights `max(1, H - DIFFICULTY_BLOCKS_COUNT)`
to `H - 1` of a chain of height `H`.  It reads them from the store, or, when
it last ran at height `H - 1`, takes its cached window, pushes the new top
block's and drops the oldest.  `requiredDifficulty` states the rule on the
blocks of a chain alone.  The cache agrees with it as long as every call
that changes the main chain below the cache's height empties the cache,
as `pop_block_from_blockchain`, `rollback_blockchain_switching`,
`switch_to_alternative_blockchain` and `handle_alternative_block` do, while
`add_block` only appends: `DifficultySound` holds in every state a new
chain reaches.

`get_next_difficulty_for_alternative_chain` computes the same rule for the
chain an alternative chain forms with the main chain's blocks below it,
stitching the window from the two parts.
-/

namespace Citicash
namespace CryptonoteCore

open Cryptonote StateRun BlockchainDb

/-! ## The rule on a chain's blocks -/

/-- The blocks the rule reads of a chain whose blocks have these timestamps
and cumulative difficulties, genesis first: the last
`DIFFICULTY_BLOCKS_COUNT`, never the genesis block. -/
def windowPoints (points : List (UInt64 × UInt64)) : List (UInt64 × UInt64) :=
  points.drop (max 1 (points.length - difficultyBlocksCount))

/-- The difficulty required of the next block on a chain whose blocks have
these timestamps and cumulative difficulties. -/
def requiredDifficulty (points : List (UInt64 × UInt64)) : UInt64 :=
  nextDifficulty (windowPoints points).unzip.1 (windowPoints points).unzip.2
    difficultyTarget

theorem keepLast_map {α : Type} (n : Nat) (f : α → UInt64) (l : List α) :
    keepLast n (l.map f) = (l.drop (l.length - n)).map f := by
  rw [keepLast, List.length_map, List.map_drop]

/-- Pushing a block's point onto the window of a non-empty chain and keeping
the last `DIFFICULTY_BLOCKS_COUNT` gives the window of the longer chain. -/
theorem keepLast_windowPoints {points : List (UInt64 × UInt64)}
    (nonempty : 0 < points.length) (point : UInt64 × UInt64)
    (f : UInt64 × UInt64 → UInt64) :
    keepLast difficultyBlocksCount ((windowPoints points).map f ++ [f point]) =
      (windowPoints (points ++ [point])).map f := by
  have cut : max 1 (points.length - difficultyBlocksCount) ≤
      points.length := by omega
  have pushed : windowPoints points ++ [point] =
      (points ++ [point]).drop
        (max 1 (points.length - difficultyBlocksCount)) :=
    (List.drop_append_of_le_length cut).symm
  have mapped : (windowPoints points).map f ++ [f point] =
      (windowPoints points ++ [point]).map f := by
    rw [List.map_append, List.map_singleton]
  rw [mapped, keepLast_map, pushed, List.drop_drop, windowPoints]
  congr 2
  simp only [List.length_drop, List.length_append, List.length_singleton,
    difficultyBlocksCount, difficultyWindow, difficultyCut]
  omega

/-- A chain made of the first `stop` blocks of another and a short
alternative chain on top: its window is the other chain's blocks from the
offset `get_next_difficulty_for_alternative_chain` starts at, then the
alternative blocks. -/
theorem windowPoints_take_append
    {main alt : List (UInt64 × UInt64)} {stop : Nat} (above : 1 ≤ stop)
    (below : stop ≤ main.length) (short : alt.length < difficultyBlocksCount) :
    windowPoints (main.take stop ++ alt) =
      (main.drop
        (max (stop - min (difficultyBlocksCount - alt.length) stop) 1)).take
          (stop - max
            (stop - min (difficultyBlocksCount - alt.length) stop) 1) ++
              alt := by
  have prefixLength : (main.take stop).length = stop :=
    List.length_take_of_le below
  have start : max 1 ((main.take stop ++ alt).length - difficultyBlocksCount) =
      max (stop - min (difficultyBlocksCount - alt.length) stop) 1 := by
    rw [List.length_append, prefixLength]
    omega
  rw [windowPoints, start,
    List.drop_append_of_le_length (by rw [prefixLength]; omega), List.drop_take]

/-- A long alternative chain fills the window alone. -/
theorem windowPoints_take_append_long
    {main alt : List (UInt64 × UInt64)} {stop : Nat} (above : 1 ≤ stop)
    (below : stop ≤ main.length) (long : difficultyBlocksCount ≤ alt.length) :
    windowPoints (main.take stop ++ alt) =
      alt.drop (alt.length - difficultyBlocksCount) := by
  have prefixLength : (main.take stop).length = stop :=
    List.length_take_of_le below
  have start : max 1 ((main.take stop ++ alt).length - difficultyBlocksCount) =
      stop + (alt.length - difficultyBlocksCount) := by
    rw [List.length_append, prefixLength]
    omega
  rw [windowPoints, start, List.drop_append, List.drop_of_length_le (by omega),
    List.nil_append, prefixLength, Nat.add_sub_cancel_left]

/-! ## The chain's blocks in the store -/

/-- What the rule reads of a `block_info` row. -/
def BlockInfo.point (info : BlockInfo) : UInt64 × UInt64 :=
  (info.biTimestamp, info.biDiff)

/-- The points of the main chain, genesis first. -/
def mainPoints (db : BlockchainLmdb) : List (UInt64 × UInt64) :=
  (mainRows db).map BlockInfo.point

/-- The points of an alternative chain: the timestamps of its blocks and
the cumulative difficulties `handle_alternative_block` gave them. -/
def altPoints (altChain : AltChain) : List (UInt64 × UInt64) :=
  altChain.map fun entry => (entry.2.bl.timestamp, entry.2.cumulativeDifficulty)

theorem RowsDense.length_mainPoints {db : BlockchainLmdb}
    (dense : RowsDense db) : (mainPoints db).length = db.height := by
  rw [mainPoints, List.length_map, dense.length_mainRows]

/-- On dense rows the store's reads of a height return its point. -/
theorem readPoint_of_dense {db : BlockchainLmdb}
    (dense : RowsDense db) {height : Nat} {point : UInt64 × UInt64}
    (found : (mainPoints db)[height]? = some point) :
    getBlockTimestamp height db = .ok point.1 db ∧
      getBlockCumulativeDifficulty height db = .ok point.2 db ∧
      readPoint height db = .ok point db := by
  rw [mainPoints, List.getElem?_map, Option.map_eq_some_iff] at found
  obtain ⟨info, row, rfl⟩ := found
  have infoRead := getBlockInfo_of_dense dense row
  have timestamp : getBlockTimestamp height db = .ok info.biTimestamp db := by
    rw [getBlockTimestamp, map_eq_ok]
    exact ⟨info, infoRead, rfl⟩
  have difficulty : getBlockCumulativeDifficulty height db =
      .ok info.biDiff db := by
    rw [getBlockCumulativeDifficulty, map_eq_ok]
    exact ⟨info, infoRead, rfl⟩
  refine ⟨timestamp, difficulty, ?_⟩
  rw [readPoint, bind_of_ok timestamp, bind_of_ok difficulty]
  rfl

/-- Reading the heights `[start, start + count)` of dense rows returns
their points. -/
theorem readPoints_of_dense {db : BlockchainLmdb} (dense : RowsDense db) :
    ∀ (count start : Nat), start + count ≤ db.height →
      (List.range' start count).mapM readPoint db =
        .ok (((mainPoints db).drop start).take count) db
  | 0, _, _ => rfl
  | count + 1, start, bound => by
      have inside : start < (mainPoints db).length := by
        rw [RowsDense.length_mainPoints dense]
        omega
      rw [List.range'_succ, List.mapM_cons, List.drop_eq_getElem_cons inside,
        List.take_succ_cons,
        bind_of_ok
        (readPoint_of_dense dense (List.getElem?_eq_getElem inside)).2.2,
        bind_of_ok (readPoints_of_dense dense count (start + 1) (by omega))]
      rfl

theorem readWindow_of_dense {chain : Blockchain}
    (dense : RowsDense chain.db) (start : Nat) {stop : Nat}
    (bound : stop ≤ chain.db.height) :
    readWindow start stop chain =
      .ok (((mainPoints chain.db).drop start).take
        (stop - start)).unzip chain := by
  by_cases ordered : start ≤ stop
  · rw [readWindow,
      bind_of_ok (liftDb_of_ok (readPoints_of_dense dense _ _ (by omega)))]
    rfl
  · -- an empty range reads nothing
    have empty : stop - start = 0 := by omega
    rw [readWindow, empty]
    rfl

/-! ## The cache -/

/-- The cache holds the window of the heights below its own height, which is
at most the chain's; height zero marks it empty. -/
def CacheValid (db : BlockchainLmdb) (cache : DifficultyCache) : Prop :=
  cache.1 = 0 ∨ cache.1 ≤ db.height ∧
    cache.2 = (windowPoints ((mainPoints db).take cache.1)).unzip

/-- Dense block rows and a valid cache. -/
def DifficultyView (db : BlockchainLmdb) (cache : DifficultyCache) : Prop :=
  RowsDense db ∧ CacheValid db cache

/-- The chain's block rows are dense, its difficulty cache is valid and its
pool holds only `txin_to_key` transactions. -/
def DifficultySound (chain : Blockchain) : Prop :=
  StoreView DifficultyView chain

/-- The cached window of the heights below `H - 1`, with the point of the
block at `H - 1` pushed on, is the window of the chain of height `H`. -/
theorem pushedWindow {points : List (UInt64 × UInt64)} {below : Nat}
    {point : UInt64 × UInt64} (filled : below ≠ 0)
    (next : points.length - below = 1) (top : points[below]? = some point)
    (f : UInt64 × UInt64 → UInt64) :
    keepLast difficultyBlocksCount
      ((windowPoints (points.take below)).map f ++ [f point]) =
        (windowPoints points).map f := by
  obtain ⟨inside, rfl⟩ := List.getElem?_eq_some_iff.mp top
  have prefixLength : 0 < (points.take below).length := by
    rw [List.length_take]
    omega
  rw [keepLast_windowPoints prefixLength, List.take_append_getElem inside,
    List.take_of_length_le (by omega)]

/-- On a sound chain `get_difficulty_for_next_block` returns the rule on
the main chain's blocks and leaves the window of the whole chain in the
cache, whichever way it takes. -/
theorem getDifficultyForNextBlock_of_sound {chain : Blockchain}
    (sound : DifficultySound chain) : getDifficultyForNextBlock chain =
      .ok (requiredDifficulty (mainPoints chain.db))
        { chain with
          timestamps := (windowPoints (mainPoints chain.db)).unzip.1
          difficulties := (windowPoints (mainPoints chain.db)).unzip.2
          timestampsAndDifficultiesHeight := chain.db.height } := by
  obtain ⟨⟨dense, cache⟩, -⟩ := sound
  have length := RowsDense.length_mainPoints dense
  unfold getDifficultyForNextBlock
  rw [get_bind_apply]
  split
  · -- the cache was filled one block below: it takes the new top block
    rename_i fresh
    obtain ⟨filled, next⟩ := fresh
    rcases cache with empty | ⟨-, window⟩
    · exact absurd empty filled
    obtain ⟨point, topPoint⟩ : ∃ point,
        (mainPoints chain.db)[chain.db.height - 1]? = some point :=
      ⟨_, List.getElem?_eq_getElem (by omega)⟩
    obtain ⟨timestampRead, difficultyRead, -⟩ :=
      readPoint_of_dense dense topPoint
    have cachedTop :
        (mainPoints chain.db)[chain.timestampsAndDifficultiesHeight]? =
          some point := by
      rwa [show chain.timestampsAndDifficultiesHeight =
        chain.db.height - 1 by omega]
    have timestamps := pushedWindow filled (length ▸ next) cachedTop Prod.fst
    have difficulties := pushedWindow filled (length ▸ next) cachedTop Prod.snd
    simp only [Blockchain.difficultyCache, Prod.ext_iff, List.unzip_fst,
      List.unzip_snd] at window
    rw [← window.1] at timestamps
    rw [← window.2] at difficulties
    simp only [bind_apply, liftDb_apply, timestampRead,
      difficultyRead, modify_apply, modifyGet_apply, requiredDifficulty,
      List.unzip_fst, List.unzip_snd, timestamps, difficulties]
  · -- the window is read again from the store
    have start :
        max (chain.db.height - min chain.db.height difficultyBlocksCount) 1 =
        max 1 ((mainPoints chain.db).length - difficultyBlocksCount) := by
      rw [length]
      omega
    have window : ((mainPoints chain.db).drop
        (max 1 ((mainPoints chain.db).length - difficultyBlocksCount))).take
          (chain.db.height -
            max 1 ((mainPoints chain.db).length - difficultyBlocksCount)) =
        windowPoints (mainPoints chain.db) :=
      List.take_of_length_le (by rw [List.length_drop, length])
    simp only [bind_apply, readWindow_of_dense dense _ le_rfl, start, window,
      List.unzip_eq_map, modifyGet_apply, requiredDifficulty]

/-- The cache's window stays the one of its height while the main chain
only grows on top of the blocks it covers. -/
theorem CacheValid.extend {db db' : BlockchainLmdb} {cache : DifficultyCache}
    (valid : CacheValid db cache) (dense : RowsDense db)
    (taller : db.height ≤ db'.height) (more : List (UInt64 × UInt64))
    (grown : mainPoints db' = mainPoints db ++ more) :
    CacheValid db' cache := by
  rcases valid with empty | ⟨below, window⟩
  · exact .inl empty
  have covered : cache.1 ≤ (mainPoints db).length := by
    rw [RowsDense.length_mainPoints dense]
    exact below
  refine .inr ⟨by omega, ?_⟩
  rw [window, grown, List.take_append_of_le_length covered]

/-- What the difficulty view sees of the store is its block rows. -/
theorem DifficultyView.of_blockRows {db db' : BlockchainLmdb}
    {cache : DifficultyCache} (view : DifficultyView db cache)
    (same : blockRows db' = blockRows db) :
    DifficultyView db' cache := by
  have dense' := view.1.of_blockRows same
  simp only [blockRows, Prod.mk.injEq] at same
  have points : mainPoints db' = mainPoints db ++ [] := by
    rw [List.append_nil, mainPoints, mainRows, same.1]
    rfl
  exact ⟨dense', view.2.extend view.1 same.2.ge [] points⟩

/-- `add_block` appends one row on top of the blocks the cache covers. -/
theorem addBlock_difficultyView (env : DbEnv) (blk : Block) (blockSize : Nat)
    (cumulativeDifficulty coinsGenerated : UInt64) (txs : List Transaction)
    (cache : DifficultyCache) :
    Maintains (fun db => DifficultyView db cache)
      (addBlock env blk blockSize cumulativeDifficulty coinsGenerated txs) := by
  intro db view
  cases run : addBlock env blk blockSize cumulativeDifficulty
    coinsGenerated txs db with
  | ok newHeight db' =>
      have grown : mainPoints db' = mainPoints db ++
          [BlockInfo.point (blockInfoRow blk db.height
          blockSize cumulativeDifficulty coinsGenerated
            (env.getBlockHash blk))] := by
        rw [mainPoints, mainPoints, addBlock_mainRows env run, List.map_append,
          List.map_singleton]
      have taller : db.height ≤ db'.height := by
        rw [(addBlock_blockInfo env run).2]
        omega
      exact ⟨(addBlock_rowsDense env blk blockSize cumulativeDifficulty
        coinsGenerated txs).of_ok view.1 run,
          view.2.extend view.1 taller _ grown⟩
  | error e db' => exact view.of_blockRows (addBlock_error_blockRows env run)

/-- `pop_block_from_blockchain` empties the cache before it pops, so the
popped block never stays in it. -/
theorem popBlockFromBlockchain_difficultySound (env : ChainEnv) :
    Maintains DifficultySound (popBlockFromBlockchain env) := by
  have popped : ∀ cache : DifficultyCache,
      Spec (fun db => RowsDense db ∧ cache.1 = 0) (popBlock env.dbEnv)
        (fun _ db => DifficultyView db cache)
          (fun db => DifficultyView db cache) :=
    fun _ => Spec.with_fact fun emptied =>
      (popBlock_rowsDense env.dbEnv).mono (fun _ dense => dense)
        (fun _ _ dense => ⟨dense, .inl emptied⟩)
          (fun _ dense => ⟨dense, .inl emptied⟩)
  have emptied : Spec DifficultySound
      (modify fun chain =>
        { chain with timestampsAndDifficultiesHeight := 0 } : ChainM PUnit)
      (fun _ => StoreView fun db cache => RowsDense db ∧ cache.1 = 0)
        DifficultySound :=
    Spec.modify fun _ sound => ⟨⟨sound.1.1, rfl⟩, sound.2⟩
  unfold popBlockFromBlockchain
  refine Spec.bind emptied fun _ => ?_
  refine Spec.bind (liftDb_storeView popped) fun popped => ?_
  obtain ⟨blk, poppedTxs⟩ := popped
  refine Maintains.bind (Maintains.forM fun tx _ => ?_) fun _ =>
    Maintains.pure _
  exact LeavesStore.ite (LeavesStore.pure _)
    (addTxToPool_leavesStore env tx true true).map
    DifficultyView

/-- `get_difficulty_for_next_block` leaves the window of the whole chain in
the cache. -/
theorem getDifficultyForNextBlock_difficultySound :
    Maintains DifficultySound getDifficultyForNextBlock := by
  intro chain sound
  rw [getDifficultyForNextBlock_of_sound sound]
  obtain ⟨⟨dense, -⟩, pool⟩ := sound
  have whole : (mainPoints chain.db).take chain.db.height =
      mainPoints chain.db :=
    List.take_of_length_le (RowsDense.length_mainPoints dense).le
  refine ⟨⟨dense, .inr ⟨le_rfl, ?_⟩⟩, pool⟩
  simp only [Blockchain.difficultyCache, whole]

/-- Every step that changes the chain keeps the difficulty cache sound. -/
theorem difficultySound_invariant : ChainInvariant DifficultySound where
  empty := ⟨⟨rfl, .inl rfl⟩, fun _ _ found => nomatch found⟩
  handleBlockToMainChain env bl id :=
    (handleBlockToMainChain_spec env bl id DifficultyView
      DifficultyView DifficultyView getDifficultyForNextBlock_difficultySound
        (fun _ _ view => view)
      fun chain blockSize cumulativeDifficulty coinsGenerated txs sound _ _ _ =>
        (addBlock_difficultyView env.dbEnv bl blockSize cumulativeDifficulty
          coinsGenerated txs chain.difficultyCache).mono
            (fun _ same => same ▸ sound.1) (fun _ _ view => view)
          fun _ view => view).mono (fun _ sound => sound)
      (fun added _ outcome => by
        cases added with
        | true => exact outcome.1 rfl
        | false => exact outcome.2 rfl)
      (fun _ sound => sound)
  popBlockFromBlockchain := popBlockFromBlockchain_difficultySound
  getDifficultyForNextBlock := getDifficultyForNextBlock_difficultySound
  addTxToPool env tx keptByBlock relayed :=
    addTxToPool_leavesStore env tx keptByBlock relayed _
  resetDifficultyCache _ sound := ⟨⟨sound.1.1, .inl rfl⟩, sound.2⟩
  blockMaps _ _ _ sound := sound
  blocksTxsCheck _ _ sound := sound

/-! ## Alternative chains -/

/-- `get_next_difficulty_for_alternative_chain` applies the rule to the
chain the alternative blocks form on the main chain's blocks below the
first of them (below the new block, when there is none). -/
theorem getNextDifficultyForAlternativeChain_of_dense {chain : Blockchain}
    (dense : RowsDense chain.db) (altChain : AltChain) (height : Nat)
    (above : 1 ≤ mainChainStopOffset altChain height)
    (below : mainChainStopOffset altChain height ≤ chain.db.height) :
    getNextDifficultyForAlternativeChain altChain height chain =
      .ok
        (requiredDifficulty
          ((mainPoints chain.db).take (mainChainStopOffset altChain height) ++
            altPoints altChain)) chain := by
  have length := RowsDense.length_mainPoints dense
  have altLength : (altPoints altChain).length = altChain.length :=
    List.length_map _
  unfold getNextDifficultyForAlternativeChain
  split
  · -- the main chain's blocks from the start offset, then the alternative ones
    rename_i short
    have window :=
      windowPoints_take_append above (length ▸ below) (altLength ▸ short)
    rw [altLength] at window
    simp only [bind_apply, readWindow_of_dense dense _ below, List.unzip_eq_map]
    set stop := mainChainStopOffset altChain height
    set start :=
      max (stop - min (difficultyBlocksCount - altChain.length) stop) 1
    have readLength :
        (((mainPoints chain.db).drop start).take (stop - start)).length =
          stop - start := by
      rw [List.length_take, List.length_drop, length]
      omega
    -- the source's sanity check on the window's length always passes
    have fits : ¬difficultyBlocksCount < altChain.length + (stop - start) := by
      omega
    rw [List.length_map, readLength, if_neg fits, pure_apply,
      requiredDifficulty, window]
    simp only [List.unzip_eq_map, List.map_append, altPoints, List.map_map,
      Function.comp_def]
  · -- the last `DIFFICULTY_BLOCKS_COUNT` alternative blocks alone
    rename_i long
    rw [← altLength, Nat.not_lt] at long
    have window := windowPoints_take_append_long above (length ▸ below) long
    rw [pure_apply, requiredDifficulty, window, altLength, altPoints,
      ← List.map_drop]
    simp only [List.unzip_eq_map, List.map_map, Function.comp_def]

/-! ## Every run -/

/-- On every chain a new chain reaches, the main chain's timestamps and
cumulative difficulties are what the store reads at each height;
`get_difficulty_for_next_block` returns the rule on them, whichever path
it takes, and leaves the window of the whole chain in the cache; and
`get_next_difficulty_for_alternative_chain` returns the rule on the
alternative blocks over the main chain's blocks below them. -/
theorem nextDifficulty_depends_on_parent_chain {chain : Blockchain}
    (reachable : Reachable chain) :
    (mainPoints chain.db).length = chain.db.height ∧
      (∀ height point, (mainPoints chain.db)[height]? = some point →
        getBlockTimestamp height chain.db = .ok point.1 chain.db ∧
          getBlockCumulativeDifficulty height chain.db = .ok point.2 chain.db) ∧
      getDifficultyForNextBlock chain =
        .ok (requiredDifficulty (mainPoints chain.db))
          { chain with
            timestamps := (windowPoints (mainPoints chain.db)).unzip.1
            difficulties := (windowPoints (mainPoints chain.db)).unzip.2
            timestampsAndDifficultiesHeight := chain.db.height } ∧
      ∀ (altChain : AltChain) (height : Nat),
        1 ≤ mainChainStopOffset altChain height →
        mainChainStopOffset altChain height ≤ chain.db.height →
        getNextDifficultyForAlternativeChain altChain height chain =
          .ok
            (requiredDifficulty
              ((mainPoints chain.db).take
                (mainChainStopOffset altChain height) ++ altPoints altChain))
                  chain := by
  have sound := difficultySound_invariant.reachable reachable
  have dense : RowsDense chain.db := sound.1.1
  refine ⟨RowsDense.length_mainPoints dense, ?_,
    getDifficultyForNextBlock_of_sound sound, ?_⟩
  · intro height point found
    obtain ⟨timestamp, difficulty, -⟩ := readPoint_of_dense dense found
    exact ⟨timestamp, difficulty⟩
  · intro altChain height above below
    exact getNextDifficultyForAlternativeChain_of_dense dense altChain
      height above below

/-- An alternative block at height 1, beside `secondBlock`. -/
def sampleAltChain : AltChain :=
  [(fillKey 150, ⟨{ secondBlock with timestamp := 5 }, 1, 2⟩)]

theorem nextDifficulty_on_sample_chain :
    sampleChain.db.height = 2 ∧
      ((mainPoints sampleChain.db).length = sampleChain.db.height ∧
        (∀ height point, (mainPoints sampleChain.db)[height]? = some point →
          getBlockTimestamp height sampleChain.db = .ok point.1 sampleChain.db ∧
            getBlockCumulativeDifficulty height sampleChain.db =
              .ok point.2 sampleChain.db) ∧
        getDifficultyForNextBlock sampleChain =
          .ok (requiredDifficulty (mainPoints sampleChain.db))
            { sampleChain with
              timestamps := (windowPoints (mainPoints sampleChain.db)).unzip.1
              difficulties := (windowPoints (mainPoints sampleChain.db)).unzip.2
              timestampsAndDifficultiesHeight := sampleChain.db.height } ∧
        ∀ (altChain : AltChain) (height : Nat),
          1 ≤ mainChainStopOffset altChain height →
          mainChainStopOffset altChain height ≤ sampleChain.db.height →
          getNextDifficultyForAlternativeChain altChain height sampleChain =
            .ok (requiredDifficulty ((mainPoints sampleChain.db).take
              (mainChainStopOffset altChain height) ++ altPoints altChain))
                sampleChain) ∧
      getNextDifficultyForAlternativeChain sampleAltChain 2 sampleChain =
        .ok
          (requiredDifficulty
            ((mainPoints sampleChain.db).take 1 ++ altPoints sampleAltChain))
          sampleChain := by
  have parent := nextDifficulty_depends_on_parent_chain sampleChain_reachable
  -- the alternative chain forks off above the genesis block, below the top
  have forks : mainChainStopOffset sampleAltChain 2 ≤
      sampleChain.db.height := by decide +kernel
  exact ⟨by decide +kernel, parent,
    parent.2.2.2 sampleAltChain 2 (by decide) forks⟩

end CryptonoteCore
end Citicash
