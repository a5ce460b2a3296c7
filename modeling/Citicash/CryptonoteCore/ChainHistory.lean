import Citicash.CryptonoteCore.DifficultyCache

/-!
# The short chain history

`Blockchain::get_short_chain_history` lists the ids a node sends with
`NOTIFY_REQUEST_CHAIN` so that its peer can find the last block they share:
the ids of the eleven most recent blocks, then of blocks further back with
gaps doubling from two, then the genesis block's.  Its loop keeps a counter
`i`, a multiplier and an offset back from the top; the `k`-th round reads the
block `historyOffset k` below the chain's height (`shortChainHistoryLoop_eq`),
so the heights it lists are those of a closed form
(`shortChainHistoryHeights_eq`): strictly decreasing from the top block to
the genesis block, at most `log₂ sz + 11` of them.  The loop never reaches
height zero, so its `genesis_included` stays `false` and the genesis block is
always appended after it.

On every chain the node reaches, the block rows are dense, so each read
succeeds and the call returns the main chain's ids at those heights
(`getShortChainHistory_on_every_run`).
-/

namespace Citicash
namespace CryptonoteCore

open Cryptonote StateRun BlockchainDb

/-! ## The loop -/

/-- The loop of `get_short_chain_history` over a chain of `sz` blocks, with the
source's `i`, `current_multiplier` and `current_back_offset`, the heights
whose ids were pushed so far and `genesis_included`; `fuel` bounds the
rounds.  The `uint64_t` multiplier cannot wrap: once it passes `sz` the
offset does too, and the loop ends. -/
def shortChainHistoryLoop (sz : Nat) :
    Nat → Nat → Nat → Nat → List Nat → Bool → List Nat × Bool
  | 0, _, _, _, ids, genesisIncluded => (ids, genesisIncluded)
  | fuel + 1, i, currentMultiplier, currentBackOffset, ids, genesisIncluded =>
    if currentBackOffset < sz then
      let ids := ids ++ [sz - currentBackOffset]
      let genesisIncluded := genesisIncluded || sz - currentBackOffset == 0
      if i < 10 then
        shortChainHistoryLoop sz fuel (i + 1) currentMultiplier
          (currentBackOffset + 1) ids
          genesisIncluded
      else
        shortChainHistoryLoop sz fuel (i + 1) (currentMultiplier * 2)
          (currentBackOffset + currentMultiplier * 2) ids genesisIncluded
    else (ids, genesisIncluded)

/-- The heights whose ids `get_short_chain_history` lists on a chain of
`sz > 0` blocks: the loop's, from `i = 0`, a multiplier of one and an offset
of one, then the genesis block unless the loop listed it.  The offset grows
every round, so `sz` rounds are enough. -/
def shortChainHistoryHeights (sz : Nat) : List Nat :=
  let (ids, genesisIncluded) := shortChainHistoryLoop sz sz 0 1 1 [] false
  if !genesisIncluded then ids ++ [0] else ids

/-- `Blockchain::get_short_chain_history` into an empty list: nothing on an
empty chain, otherwise `get_block_hash_from_height` of each height of
`shortChainHistoryHeights`.  The reads leave the store, and the loop's
arithmetic does not depend on them, so reading after the loop is reading in
it. -/
def getShortChainHistory : ChainM (List Hash) := do
  let chain ← get
  let sz := chain.db.height
  if sz = 0 then pure []
  else liftDb ((shortChainHistoryHeights sz).mapM getBlockHashFromHeight)

/-! ## The offsets in closed form -/

/-- How far below the chain's height the `k`-th round reads: the eleven most
recent blocks, then gaps doubling from two. -/
def historyOffset (k : Nat) : Nat := if k < 11 then k + 1 else 2 ^ (k - 9) + 9

/-- The multiplier in the `k`-th round: one, doubled from the tenth round on. -/
def historyMultiplier (k : Nat) : Nat := 2 ^ (k - 10)

theorem historyStep_of_lt {k : Nat} (early : k < 10) :
    historyOffset (k + 1) = historyOffset k + 1 ∧ historyMultiplier (k + 1) =
      historyMultiplier k := by
  refine ⟨?_, ?_⟩
  · simp only [historyOffset, if_pos (show k < 11 by omega),
      if_pos (show k + 1 < 11 by omega)]
  · rw [historyMultiplier, historyMultiplier, show k + 1 - 10 = k - 10 by omega]

theorem historyStep_of_le {k : Nat} (late : 10 ≤ k) :
    historyOffset (k + 1) = historyOffset k + historyMultiplier k * 2 ∧
      historyMultiplier (k + 1) = historyMultiplier k * 2 := by
  have doubled : 2 ^ (k + 1 - 10) = 2 ^ (k - 10) * 2 := by
    rw [show k + 1 - 10 = k - 10 + 1 by omega, Nat.pow_succ]
  refine ⟨?_, doubled⟩
  simp only [historyOffset, historyMultiplier,
    if_neg (show ¬ k + 1 < 11 by omega)]
  by_cases tenth : k = 10
  · subst tenth
    rfl
  · rw [if_neg (show ¬ k < 11 by omega), show k + 1 - 9 = k - 10 + 2 by omega,
      show k - 9 = k - 10 + 1 by omega, Nat.pow_succ, Nat.pow_succ]
    omega

theorem historyOffset_lt_succ (k : Nat) :
    historyOffset k < historyOffset (k + 1) := by
  by_cases early : k < 10
  · rw [(historyStep_of_lt early).1]
    omega
  · have positive : 0 < historyMultiplier k := Nat.two_pow_pos _
    rw [(historyStep_of_le (by omega)).1]
    omega

theorem historyOffset_strictMono : StrictMono historyOffset :=
  strictMono_nat_of_lt_succ historyOffset_lt_succ

theorem succ_le_historyOffset (k : Nat) : k + 1 ≤ historyOffset k := by
  induction k with
  | zero => rfl
  | succ k ih =>
      exact Nat.succ_le_of_lt (lt_of_le_of_lt ih (historyOffset_lt_succ k))

/-- From the round reading `historyOffset k`, the loop pushes the heights
`sz - historyOffset j` of the rounds `j` it has fuel for whose offset is
below `sz`: it stops at the first that is not, and the offsets only grow. -/
theorem shortChainHistoryLoop_eq (sz : Nat) : ∀ fuel k (ids : List Nat),
    shortChainHistoryLoop sz fuel k (historyMultiplier k)
    (historyOffset k) ids false =
      (ids ++ ((List.range' k fuel).filter (historyOffset · < sz)).map
        (sz - historyOffset ·), false) := by
  intro fuel
  induction fuel with
  | zero => intro k ids; simp [shortChainHistoryLoop]
  | succ fuel ih =>
    intro k ids
    rw [List.range'_succ, shortChainHistoryLoop]
    by_cases below : historyOffset k < sz
    · -- the round pushes `sz - historyOffset k`, which is not the genesis block
      have notGenesis : (false || sz - historyOffset k == 0) =
          false := by simp; omega
      rw [if_pos below,
        List.filter_cons_of_pos (by simpa using below), List.map_cons]
      dsimp only
      rw [notGenesis]
      split
      · rename_i early
        obtain ⟨offset, multiplier⟩ := @historyStep_of_lt k early
        rw [← offset, ← multiplier, ih]
        simp
      · rename_i late
        obtain ⟨offset, multiplier⟩ := @historyStep_of_le k (by omega)
        rw [← offset, ← multiplier, ih]
        simp
    · -- every later round reads further back
      rw [if_neg below, List.filter_cons_of_neg (by simpa using below),
        List.filter_eq_nil_iff.2]
      · simp
      · intro j inRange
        have later : k < j := by
          rw [List.mem_range'_1] at inRange
          omega
        have further := historyOffset_strictMono later
        simp only [decide_eq_true_eq]
        omega

/-- The heights of the history in closed form: the loop's, then the genesis
block. -/
theorem shortChainHistoryHeights_eq (sz : Nat) :
    shortChainHistoryHeights sz =
      ((List.range sz).filter (historyOffset · < sz)).map
        (sz - historyOffset ·) ++ [0] := by
  have start := shortChainHistoryLoop_eq sz sz 0 []
  rw [show historyMultiplier 0 = 1 from rfl, show historyOffset 0 =
    1 from rfl] at start
  rw [shortChainHistoryHeights, start, List.range_eq_range']
  rfl

/-! ## What the history lists -/

theorem historyOffset_lt_of_mem {sz j : Nat}
    (mem : j ∈ (List.range sz).filter (historyOffset · < sz)) :
    historyOffset j < sz := by
  simpa using (List.mem_filter.1 mem).2

/-- A round whose offset is below `sz` is one of the first `log₂ sz + 10`. -/
theorem lt_log_of_historyOffset_lt {sz j : Nat} (below : historyOffset j < sz) :
    j < Nat.log 2 sz + 10 := by
  by_cases early : j < 11
  · -- one of the eleven most recent blocks, on a chain of at least two
    have twoBlocks : 2 ≤ sz := by
      have := succ_le_historyOffset j
      omega
    have positive : 0 < Nat.log 2 sz := Nat.log_pos (by norm_num) twoBlocks
    omega
  · -- a doubled gap: `2 ^ (j - 9) < sz`
    have power : 2 ^ (j - 9) ≤ sz := by
      simp only [historyOffset, if_neg early] at below
      omega
    have logged := Nat.le_log_of_pow_le (by norm_num) power
    omega

/-- The history lists the top block first, the genesis block last, heights
strictly decreasing in between, and at most `log₂ sz + 11` of them. -/
theorem shortChainHistoryHeights_spec {sz : Nat} (positive : 0 < sz) :
    shortChainHistoryHeights sz =
        ((List.range sz).filter (historyOffset · < sz)).map
          (sz - historyOffset ·) ++ [0] ∧
      (shortChainHistoryHeights sz).head? = some (sz - 1) ∧
      (shortChainHistoryHeights sz).getLast? = some 0 ∧
      (shortChainHistoryHeights sz).Pairwise (· > ·) ∧
      (shortChainHistoryHeights sz).length ≤ Nat.log 2 sz + 11 := by
  set rounds := (List.range sz).filter (historyOffset · < sz) with roundsDef
  have closed := shortChainHistoryHeights_eq sz
  rw [← roundsDef] at closed
  refine ⟨closed, ?_, ?_, ?_, ?_⟩
  · -- the first round reads one below the top, unless the chain is the
    -- genesis block alone
    rw [closed]
    by_cases alone : sz = 1
    · have none : rounds = [] := by
        rw [roundsDef, alone]
        rfl
      rw [none, alone]
      rfl
    · have first :
        rounds = 0 ::
          ((List.range' 1 (sz - 1)).filter (historyOffset · < sz)) := by
        rw [roundsDef, List.range_eq_range', show sz = (sz - 1) + 1 by omega,
          List.range'_succ,
          List.filter_cons_of_pos (by simp [historyOffset]; omega),
            Nat.add_sub_cancel]
      rw [first]
      rfl
  · rw [closed, List.getLast?_append, List.getLast?_singleton]
    rfl
  · -- the offsets grow strictly, so the heights fall strictly, and all stay
    -- above zero
    rw [closed, List.pairwise_append]
    refine ⟨?_, List.pairwise_singleton _ _, ?_⟩
    · rw [List.pairwise_map]
      refine ((List.pairwise_lt_range).filter _).imp_of_mem fun {i j} memI
        memJ before => ?_
      have further := historyOffset_strictMono before
      have belowJ := historyOffset_lt_of_mem memJ
      omega
    · intro height mem genesis memGenesis
      rw [List.mem_singleton] at memGenesis
      obtain ⟨j, memJ, rfl⟩ := List.mem_map.1 mem
      have belowJ := historyOffset_lt_of_mem memJ
      omega
  · -- the rounds are distinct and each below `log₂ sz + 10`
    have bounded : rounds.toFinset ⊆ Finset.range (Nat.log 2 sz + 10) := by
      intro j mem
      rw [List.mem_toFinset] at mem
      exact Finset.mem_range.2
        (lt_log_of_historyOffset_lt (historyOffset_lt_of_mem mem))
    have counted : rounds.length ≤ Nat.log 2 sz + 10 := by
      rw [← List.toFinset_card_of_nodup (List.nodup_range.filter _),
        ← Finset.card_range (Nat.log 2 sz + 10)]
      exact Finset.card_le_card bounded
    rw [closed, List.length_append, List.length_map, List.length_singleton]
    omega

theorem shortChainHistoryHeights_spec_of_thirty_blocks :
    shortChainHistoryHeights 30 =
      [29, 28, 27, 26, 25, 24, 23, 22, 21, 20, 19, 17, 13, 5, 0] ∧
      0 < 30 ∧ shortChainHistoryHeights 30 =
        ((List.range 30).filter (historyOffset · < 30)).map
          (30 - historyOffset ·) ++ [0] ∧
      (shortChainHistoryHeights 30).head? = some (30 - 1) ∧
      (shortChainHistoryHeights 30).getLast? = some 0 ∧
      (shortChainHistoryHeights 30).Pairwise (· > ·) ∧
      (shortChainHistoryHeights 30).length ≤ Nat.log 2 30 + 11 :=
  ⟨by decide, by norm_num, shortChainHistoryHeights_spec (by norm_num)⟩

/-- The id of the main chain's block at a height, as its `block_info` row
has it. -/
def mainChainId (db : BlockchainLmdb) (height : Nat) : Hash :=
  ((mainRows db)[height]?.map BlockInfo.biHash).getD nullHash

theorem getBlockHashFromHeight_of_dense {db : BlockchainLmdb}
    (dense : RowsDense db) {height : Nat} (below : height < db.height) :
    getBlockHashFromHeight height db = .ok (mainChainId db height) db := by
  have inRows : height < (mainRows db).length := by
    rwa [RowsDense.length_mainRows dense]
  have row : (mainRows db)[height]? = some (mainRows db)[height] :=
    List.getElem?_eq_getElem inRows
  exact map_eq_ok.2
    ⟨_, getBlockInfo_of_dense dense row, by simp [mainChainId, row]⟩

theorem lt_of_mem_shortChainHistoryHeights {sz height : Nat} (positive : 0 < sz)
    (mem : height ∈ shortChainHistoryHeights sz) : height < sz := by
  rw [shortChainHistoryHeights_eq, List.mem_append, List.mem_singleton] at mem
  rcases mem with listed | genesis
  · obtain ⟨j, memJ, rfl⟩ := List.mem_map.1 listed
    have offsetPositive := succ_le_historyOffset j
    omega
  · omega

/-- On dense block rows, every read of the history succeeds: the call leaves
the chain and returns the main chain's ids at the heights of the history. -/
theorem getShortChainHistory_of_dense {chain : Blockchain}
    (dense : RowsDense chain.db) :
    getShortChainHistory chain =
      .ok (if chain.db.height = 0 then []
        else (shortChainHistoryHeights chain.db.height).map
               (mainChainId chain.db)) chain := by
  rw [getShortChainHistory, get_bind_apply]
  split
  · rfl
  · rename_i nonempty
    exact liftDb_of_ok (mapM_apply_of_forall _ fun height mem =>
      getBlockHashFromHeight_of_dense dense (lt_of_mem_shortChainHistoryHeights
        (Nat.pos_of_ne_zero nonempty) mem))

/-- On every chain the node reaches, `get_short_chain_history` never throws,
leaves the chain as it was, and lists the main chain's ids at the heights of
the history: the top block's first and the genesis block's last. -/
theorem getShortChainHistory_on_every_run {chain : Blockchain}
    (reachable : Reachable chain) :
    getShortChainHistory chain =
      .ok (if chain.db.height = 0 then []
        else (shortChainHistoryHeights chain.db.height).map
               (mainChainId chain.db)) chain :=
  getShortChainHistory_of_dense
    (difficultySound_invariant.reachable reachable).1.1

/-- On the sample chain of two blocks the history lists the second block's id
and then the genesis block's. -/
theorem getShortChainHistory_on_sample_chain :
    (sampleChain.db.height = 2 ∧
      (shortChainHistoryHeights 2).map (mainChainId sampleChain.db) =
        [fillKey 101, fillKey 100]) ∧
      getShortChainHistory sampleChain =
        .ok (if sampleChain.db.height = 0 then []
          else (shortChainHistoryHeights sampleChain.db.height).map
            (mainChainId sampleChain.db)) sampleChain :=
  ⟨by decide +kernel, getShortChainHistory_on_every_run sampleChain_reachable⟩

end CryptonoteCore
end Citicash
