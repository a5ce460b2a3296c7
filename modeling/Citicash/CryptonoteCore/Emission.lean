import Citicash.CryptonoteCore.ChainInvariant
import Citicash.BlockchainDb.BlockRows

/-!
# The coins generated along the main chain

Each `block_info` row stores `already_generated_coins`, the coins emitted up
to its block.  `add_block` stores zero for the genesis block; otherwise
`handle_block_to_main_chain` stores the previous row's value with the
reward `validate_miner_transaction` accepted added, capped at
`MONEY_SUPPLY` (`capAlreadyGeneratedCoins`).  The rows of every chain a new
chain reaches start at zero, never exceed `MONEY_SUPPLY` and never decrease
(`EmissionSound`), so neither `get_block_reward` nor the cap subtracts past
zero from `MONEY_SUPPLY`.

`validate_miner_transaction` compares `base_reward + fee` and
`money_in_use - fee` in 64-bit arithmetic.  While `fee + base_reward` stays
below `2^64` the checks mean `fee ≤ money_in_use ≤ base_reward + fee`, and
the stored reward is `money_in_use - fee`; a fee in the last
`base_reward - money_in_use` values below `2^64` passes both checks with the
reward wrapped to a value at most `base_reward`.
-/

namespace Citicash
namespace CryptonoteCore

open Cryptonote StateRun BlockchainDb

/-! ## The cap of `handle_block_to_main_chain` -/

/-- `already_generated_coins` after a block: the coins below it with the
reward added, or `MONEY_SUPPLY` once the sum would reach it. -/
def capAlreadyGeneratedCoins (generated reward : UInt64) : UInt64 :=
  if reward < moneySupply - generated then generated + reward else moneySupply

theorem moneySupply_toNat : moneySupply.toNat = 1000000000000000000 := rfl

section Cap

variable {generated : UInt64} (reward : UInt64)
    (below : generated ≤ moneySupply)
include below

theorem capAlreadyGeneratedCoins_toNat :
    (capAlreadyGeneratedCoins generated reward).toNat =
      min moneySupply.toNat (generated.toNat + reward.toNat) := by
  have room : (moneySupply - generated).toNat = moneySupply.toNat -
      generated.toNat :=
    UInt64.toNat_sub_of_le _ _ below
  rw [UInt64.le_iff_toNat_le] at below
  unfold capAlreadyGeneratedCoins
  split
  · -- the sum stays below `MONEY_SUPPLY`, so it does not wrap
    rename_i fits
    rw [UInt64.lt_iff_toNat_lt, room] at fits
    rw [UInt64.toNat_add, moneySupply_toNat] at *
    omega
  · rename_i full
    rw [UInt64.lt_iff_toNat_lt, room] at full
    omega

theorem capAlreadyGeneratedCoins_le :
    capAlreadyGeneratedCoins generated reward ≤ moneySupply := by
  rw [UInt64.le_iff_toNat_le, capAlreadyGeneratedCoins_toNat reward below]
  omega

theorem le_capAlreadyGeneratedCoins :
    generated ≤ capAlreadyGeneratedCoins generated reward := by
  have bound : generated.toNat ≤ moneySupply.toNat :=
    UInt64.le_iff_toNat_le.mp below
  rw [UInt64.le_iff_toNat_le, capAlreadyGeneratedCoins_toNat reward below]
  omega

end Cap

/-! ## `validate_miner_transaction` -/

variable (env : ChainEnv)

/-- What an accepted miner transaction means: the base reward for the
block's size and the coins at the last emission step, the outputs at most
that reward plus the fees and the fees at most the outputs, both in 64-bit
arithmetic, and the outputs less the fees as the reward. -/
theorem validateMinerTransaction_eq_some {b : Block}
    {cumulativeBlockSize fee calGeneratedCoins : UInt64}
    {chain chain' : Blockchain} {reward : UInt64}
    (run : validateMinerTransaction env b cumulativeBlockSize fee
      calGeneratedCoins chain = .ok (some reward) chain') :
    chain' = chain ∧ ∃ sizes baseReward,
      getLastNBlocksSizes cryptonoteRewardBlocksWindow chain = .ok sizes chain ∧
      getBlockReward env.earlyEmission (median (sizes.map UInt64.ofNat))
        cumulativeBlockSize calGeneratedCoins chain.db.height =
          some baseReward ∧
      ¬baseReward + fee < b.minerTx.getOutsMoneyAmount ∧
      ¬baseReward < b.minerTx.getOutsMoneyAmount - fee ∧
      reward = b.minerTx.getOutsMoneyAmount - fee := by
  have unchanged :=
    (validateMinerTransaction_inspects env b cumulativeBlockSize fee
      calGeneratedCoins).eq_of_ok run
  subst unchanged
  refine ⟨rfl, ?_⟩
  obtain ⟨sizes, mid, read, rest⟩ := bind_eq_ok.mp run
  have sameChain := (getLastNBlocksSizes_inspects _).eq_of_ok read
  subst mid
  rw [get_bind_apply] at rest
  refine ⟨sizes, ?_⟩
  -- the reward of `get_block_reward`, then the two comparisons
  cases rewarded :
    getBlockReward env.earlyEmission (median (sizes.map UInt64.ofNat))
      cumulativeBlockSize calGeneratedCoins chain'.db.height with
  | none =>
      simp only [rewarded] at rest
      cases rest
  | some baseReward =>
      simp only [rewarded] at rest
      refine ⟨baseReward, read, rfl, ?_⟩
      split at rest
      · cases rest
      · split at rest
        · cases rest
        · rename_i covered wrapped
          cases rest
          exact ⟨covered, wrapped, rfl⟩

/-- While `fee + base_reward` stays below `2^64`, the two comparisons of
`validate_miner_transaction` mean what they say on the integers, and the
reward is the outputs less the fees. -/
theorem minerReward_of_no_wrap {moneyInUse fee baseReward : UInt64}
    (covered : ¬baseReward + fee < moneyInUse)
    (bounded : ¬baseReward < moneyInUse - fee)
    (noWrap : fee.toNat + baseReward.toNat < 2 ^ 64) :
    fee.toNat ≤ moneyInUse.toNat ∧
      moneyInUse.toNat ≤ baseReward.toNat + fee.toNat ∧
      (moneyInUse - fee).toNat = moneyInUse.toNat - fee.toNat := by
  rw [UInt64.lt_iff_toNat_lt, UInt64.toNat_add] at covered
  rw [UInt64.lt_iff_toNat_lt, UInt64.toNat_sub] at bounded
  have sum : (baseReward.toNat + fee.toNat) % 2 ^ 64 =
      baseReward.toNat + fee.toNat :=
    Nat.mod_eq_of_lt (by omega)
  rw [sum] at covered
  -- a fee above the outputs would make the difference wrap above the base
  -- reward
  have feeBelow : fee.toNat ≤ moneyInUse.toNat := by
    by_contra above
    have wrapped : (2 ^ 64 - fee.toNat + moneyInUse.toNat) % 2 ^ 64 =
        2 ^ 64 - fee.toNat + moneyInUse.toNat := Nat.mod_eq_of_lt (by omega)
    rw [wrapped] at bounded
    omega
  exact ⟨feeBelow, by omega,
    UInt64.toNat_sub_of_le _ _ (UInt64.le_iff_toNat_le.mpr feeBelow)⟩

/-- `get_last_n_blocks_sizes` reads the store only. -/
theorem getLastNBlocksSizes_of_db {count : Nat} {a b : Blockchain}
    {sizes : List Nat} (same : a.db = b.db)
    (run : getLastNBlocksSizes count a = .ok sizes a) :
    getLastNBlocksSizes count b = .ok sizes b := by
  simp only [getLastNBlocksSizes, get_bind_apply] at run ⊢
  rw [liftDb_apply] at run
  apply liftDb_of_ok
  rw [← same]
  split at run
  next value db' read =>
    obtain ⟨rfl, stateEq⟩ := EStateM.Result.ok.inj run
    have sameDb : db' = a.db := congrArg Blockchain.db stateEq
    rw [read, sameDb]
  next => cases run

/-! ## The coins rows of the main chain -/

/-- `generatedCoinsBelow` read off the main chain's rows: the coins of the
block below `height`, zero below the genesis block. -/
def coinsBelow (rows : List BlockInfo) (height : Nat) : UInt64 :=
  if height ≠ 0 then (rows[height - 1]?.map BlockInfo.biCoins).getD 0 else 0

theorem generatedCoinsBelow_of_dense {chain : Blockchain}
    (dense : RowsDense chain.db) {height : Nat}
    (below : height ≤ chain.db.height) :
    generatedCoinsBelow height chain =
      .ok (coinsBelow (mainRows chain.db) height) chain := by
  by_cases genesis : height = 0
  · simp only [generatedCoinsBelow, coinsBelow, genesis]
    rfl
  · have inside : height - 1 < (mainRows chain.db).length := by
      rw [dense.length_mainRows]
      omega
    have row := List.getElem?_eq_getElem inside
    simp only [generatedCoinsBelow, coinsBelow, genesis, ne_eq,
      not_false_eq_true, if_true, row, Option.map_some, Option.getD_some]
    apply liftDb_of_ok
    rw [getBlockAlreadyGeneratedCoins, map_eq_ok]
    exact ⟨_, getBlockInfo_of_dense dense row, rfl⟩

/-- The coins of the top block are the coins below the chain's height. -/
theorem coinsBelow_length {rows : List BlockInfo} (nonempty : rows ≠ []) :
    coinsBelow rows rows.length = (rows.getLast nonempty).biCoins := by
  have positive : rows.length ≠ 0 := by simpa using nonempty
  simp only [coinsBelow, positive, ne_eq, not_false_eq_true, if_true,
    List.getLast_eq_getElem, List.getElem?_eq_getElem (Nat.sub_one_lt positive),
    Option.map_some, Option.getD_some]

/-- The coins rows of a main chain: the genesis row stores zero, no row
stores more than `MONEY_SUPPLY`, and they never decrease. -/
structure CoinsCapped (rows : List BlockInfo) : Prop where
  genesis : ∀ info ∈ rows.head?, info.biCoins = 0
  capped : ∀ info ∈ rows, info.biCoins ≤ moneySupply
  monotone : (rows.map BlockInfo.biCoins).Pairwise (· ≤ ·)

namespace CoinsCapped

variable {rows : List BlockInfo}

theorem nil : CoinsCapped [] :=
  ⟨fun _ absent => (nomatch absent), fun _ absent => (nomatch absent),
    List.Pairwise.nil⟩

theorem dropLast (capped : CoinsCapped rows) : CoinsCapped rows.dropLast where
  genesis info first := by
    cases rows with
    | nil => exact capped.genesis info first
    | cons head tail =>
        cases tail with
        | nil => exact nomatch first
        | cons next rest =>
            rw [List.dropLast_cons_cons, List.head?_cons] at first
            exact capped.genesis info (by rw [List.head?_cons]; exact first)
  capped info mem := capped.capped info (List.dropLast_subset rows mem)
  monotone := by
    rw [List.map_dropLast]
    exact capped.monotone.sublist (List.dropLast_sublist _)

theorem coinsBelow_le (capped : CoinsCapped rows) (height : Nat) :
    coinsBelow rows height ≤ moneySupply := by
  unfold coinsBelow
  split
  · cases found : rows[height - 1]? with
    | none => exact UInt64.zero_le
    | some info => exact capped.capped info (List.mem_of_getElem? found)
  · exact UInt64.zero_le

/-- Every row stores at most what the top row stores. -/
theorem le_top (capped : CoinsCapped rows) (nonempty : rows ≠ []) :
    ∀ info ∈ rows, info.biCoins ≤ (rows.getLast nonempty).biCoins := by
  intro info mem
  have split := List.dropLast_append_getLast nonempty
  rw [← split] at mem
  rcases List.mem_append.mp mem with below | top
  · have ordered := capped.monotone
    rw [← split, List.map_append, List.pairwise_append] at ordered
    exact ordered.2.2 _ (List.mem_map_of_mem below) _ (by simp)
  · rw [List.mem_singleton.mp top]
    exact UInt64.le_refl _

/-- A row pushed on top keeps the rows capped when it stores zero on an
empty chain and, on top of another row, at least its coins and at most
`MONEY_SUPPLY`. -/
theorem push (capped : CoinsCapped rows) (row : BlockInfo)
    (first : rows = [] → row.biCoins = 0)
    (above : ∀ top ∈ rows.getLast?, top.biCoins ≤ row.biCoins)
    (bounded : row.biCoins ≤ moneySupply) : CoinsCapped (rows ++ [row]) where
  genesis info found := by
    cases rows with
    | nil =>
        rw [List.nil_append, List.head?_cons, Option.mem_some_iff] at found
        rw [← found]
        exact first rfl
    | cons head tail =>
        rw [List.cons_append, List.head?_cons] at found
        exact capped.genesis info (by rw [List.head?_cons]; exact found)
  capped info mem := by
    rcases List.mem_append.mp mem with old | new
    · exact capped.capped info old
    · rw [List.mem_singleton.mp new]
      exact bounded
  monotone := by
    rw [List.map_append, List.pairwise_append]
    refine ⟨capped.monotone, List.pairwise_singleton _ _, ?_⟩
    intro coins mem rowCoins newMem
    obtain ⟨info, infoMem, rfl⟩ := List.mem_map.mp mem
    rw [List.map_singleton, List.mem_singleton] at newMem
    subst newMem
    have nonempty : rows ≠ [] := List.ne_nil_of_mem infoMem
    exact UInt64.le_trans (capped.le_top nonempty info infoMem)
      (above _ (List.getLast?_eq_some_getLast nonempty ▸ rfl))

end CoinsCapped

/-! ## The rows the store keeps -/

/-- Dense block rows whose coins are capped. -/
def EmissionRows (db : BlockchainLmdb) : Prop :=
  RowsDense db ∧ CoinsCapped (mainRows db)

/-- The chain's coins rows are capped and its pool holds only `txin_to_key`
transactions. -/
def EmissionSound (chain : Blockchain) : Prop :=
  StoreView (fun db _ => EmissionRows db) chain

theorem EmissionRows.of_blockRows {db db' : BlockchainLmdb}
    (rowsOk : EmissionRows db) (same : blockRows db' = blockRows db) :
    EmissionRows db' := by
  have dense' := rowsOk.1.of_blockRows same
  simp only [blockRows, Prod.mk.injEq] at same
  have rows : mainRows db' = mainRows db := by rw [mainRows, mainRows, same.1]
  exact ⟨dense', rows ▸ rowsOk.2⟩

/-- What `handle_block_to_main_chain` hands to `add_block`, read off dense
rows: the base reward of `get_block_reward` on the coins at the last
emission step, the two comparisons that accepted the miner transaction, and
the coins of the top block with its outputs less the fees added, capped. -/
theorem CoinsHandedOn.of_dense {bl : Block} {chain : Blockchain}
    {blockSize : Nat} {coinsGenerated : UInt64} (dense : RowsDense chain.db)
    (handed : CoinsHandedOn env bl chain blockSize coinsGenerated) :
    ∃ (cumulativeBlockSize fee baseReward : UInt64) (sizes : List Nat),
      blockSize = cumulativeBlockSize.toNat ∧
      getLastNBlocksSizes cryptonoteRewardBlocksWindow chain = .ok sizes chain ∧
      getBlockReward env.earlyEmission (median (sizes.map UInt64.ofNat))
        cumulativeBlockSize (coinsBelow (mainRows chain.db)
          (chain.db.height - chain.db.height % coinEmissionHeightInterval))
        chain.db.height = some baseReward ∧
      ¬baseReward + fee < bl.minerTx.getOutsMoneyAmount ∧
      ¬baseReward < bl.minerTx.getOutsMoneyAmount - fee ∧
      coinsGenerated = capAlreadyGeneratedCoins
        (coinsBelow (mainRows chain.db) chain.db.height)
    (bl.minerTx.getOutsMoneyAmount - fee) := by
  obtain ⟨cumulativeBlockSize, fee, calGeneratedCoins, reward,
    generated, sized, calRead, validRead, generatedRead, capped⟩ := handed
  -- both reads of the coins return rows of the main chain
  have calCoins : calGeneratedCoins = coinsBelow (mainRows chain.db)
      (chain.db.height - chain.db.height % coinEmissionHeightInterval) :=
    (EStateM.Result.ok.inj (calRead.symm.trans
      (generatedCoinsBelow_of_dense dense (Nat.sub_le _ _)))).1
  have topCoins : generated = coinsBelow (mainRows chain.db) chain.db.height :=
    (EStateM.Result.ok.inj (generatedRead.symm.trans
      (generatedCoinsBelow_of_dense dense le_rfl))).1
  obtain ⟨-, sizes, baseReward, read, rewarded, covered, bounded, rfl⟩ :=
    validateMinerTransaction_eq_some env validRead
  rw [calCoins] at rewarded
  rw [topCoins] at capped
  exact ⟨cumulativeBlockSize, fee, baseReward, sizes, sized, read, rewarded,
    covered, bounded, capped⟩

theorem blockInfoRow_biCoins (blk : Block) (height blockSize : Nat)
    (cumulativeDifficulty coinsGenerated : UInt64) (blkHash : Hash) :
    (blockInfoRow blk height blockSize cumulativeDifficulty coinsGenerated
      blkHash).biCoins = if height = 0 then 0 else coinsGenerated := rfl

/-- `add_block` of what `handle_block_to_main_chain` hands on keeps the
coins rows capped: zero on an empty chain, else the capped sum, between the
top row's coins and `MONEY_SUPPLY`. -/
theorem addBlock_emissionRows {bl : Block} {chain : Blockchain}
    (rowsOk : EmissionRows chain.db) {blockSize : Nat}
    {cumulativeDifficulty coinsGenerated : UInt64} {txs : List Transaction}
    (handed : CoinsHandedOn env bl chain blockSize coinsGenerated) :
    Spec (fun db => db = chain.db)
      (addBlock env.dbEnv bl blockSize cumulativeDifficulty coinsGenerated txs)
      (fun _ db => EmissionRows db) EmissionRows := by
  obtain ⟨dense, capped⟩ := rowsOk
  obtain ⟨-, fee, -, -, -, -, -, -, -, coins⟩ := handed.of_dense env dense
  have topBounded := capped.coinsBelow_le chain.db.height
  rintro db rfl
  cases run : addBlock env.dbEnv bl blockSize cumulativeDifficulty
    coinsGenerated txs chain.db with
  | ok newHeight db' =>
      refine ⟨(addBlock_rowsDense env.dbEnv bl blockSize
        cumulativeDifficulty coinsGenerated txs).of_ok dense run, ?_⟩
      rw [addBlock_mainRows env.dbEnv run]
      refine capped.push _ ?_ ?_ ?_
      · -- the genesis row
        intro empty
        have genesis : chain.db.height = 0 := by
          rw [← dense.length_mainRows, empty, List.length_nil]
        rw [blockInfoRow_biCoins, if_pos genesis]
      · -- on top of another row: at least its coins
        intro top found
        have nonempty : mainRows chain.db ≠ [] := by
          intro empty
          rw [empty] at found
          exact nomatch found
        have height : chain.db.height ≠ 0 := by
          rw [← dense.length_mainRows]
          simpa using nonempty
        have topRow : top = (mainRows chain.db).getLast nonempty := by
          rw [List.getLast?_eq_some_getLast nonempty,
            Option.mem_some_iff] at found
          exact found.symm
        have below : coinsBelow (mainRows chain.db) chain.db.height =
            top.biCoins := by
          rw [topRow, ← coinsBelow_length nonempty, dense.length_mainRows]
        rw [blockInfoRow_biCoins, if_neg height, coins, ← below]
        exact le_capAlreadyGeneratedCoins _ topBounded
      · rw [blockInfoRow_biCoins]
        split
        · exact UInt64.zero_le
        · rw [coins]
          exact capAlreadyGeneratedCoins_le _ topBounded
  | error e db' =>
      exact EmissionRows.of_blockRows ⟨dense, capped⟩
        (addBlock_error_blockRows env.dbEnv run)

theorem popBlock_emissionRows (env : DbEnv) :
    Maintains EmissionRows (popBlock env) := by
  intro db rowsOk
  cases run : popBlock env db with
  | ok popped db' =>
      obtain ⟨dense', rows⟩ := popBlock_mainRows env rowsOk.1 run
      exact ⟨dense', rows ▸ rowsOk.2.dropLast⟩
  | error e db' => exact rowsOk.of_blockRows (popBlock_error_blockRows env run)

theorem popBlockFromBlockchain_emissionSound :
    Maintains EmissionSound (popBlockFromBlockchain env) := by
  unfold popBlockFromBlockchain
  refine Maintains.bind (Maintains.modify fun _ sound => sound) fun _ => ?_
  refine Spec.bind (liftDb_storeView fun _ => popBlock_emissionRows env.dbEnv)
    fun popped => ?_
  obtain ⟨blk, poppedTxs⟩ := popped
  refine Maintains.bind (Maintains.forM fun tx _ => ?_) fun _ =>
    Maintains.pure _
  exact LeavesStore.ite (LeavesStore.pure _)
    (addTxToPool_leavesStore env tx true true).map
    (fun db _ => EmissionRows db)

/-- Every step that changes the chain keeps its coins rows capped. -/
theorem emissionSound_invariant : ChainInvariant EmissionSound where
  empty := ⟨⟨rfl, CoinsCapped.nil⟩, fun _ _ found => nomatch found⟩
  handleBlockToMainChain env bl id :=
    (handleBlockToMainChain_spec env bl id _ _ _
      (getDifficultyForNextBlock_blind EmissionRows) (fun _ _ rowsOk => rowsOk)
      fun _ _ _ _ _ sound _ _ handed => addBlock_emissionRows env
        sound.1 handed).mono
      (fun _ sound => sound)
      (fun added _ outcome => by
        cases added with
        | true => exact outcome.1 rfl
        | false => exact outcome.2 rfl)
      (fun _ sound => sound)
  popBlockFromBlockchain := popBlockFromBlockchain_emissionSound
  getDifficultyForNextBlock := getDifficultyForNextBlock_blind _
  addTxToPool env tx keptByBlock relayed :=
    addTxToPool_leavesStore env tx keptByBlock relayed _
  resetDifficultyCache _ sound := sound
  blockMaps _ _ _ sound := sound
  blocksTxsCheck _ _ sound := sound

/-! ## Every run -/

/-- On every chain a new chain reaches, the genesis row stores no coins, no
row stores more than `MONEY_SUPPLY`, the rows never decrease, and so the
coins `get_block_reward` and the cap subtract from `MONEY_SUPPLY` never
exceed it.  A block `handle_block_to_main_chain` accepts adds one row: the
base reward comes from `get_block_reward` on the coins at the last emission
step, the miner transaction passed the two 64-bit comparisons, and the row
stores the top row's coins with the outputs less the fees added, capped at
`MONEY_SUPPLY` (zero for the genesis block); while `fee + base_reward`
stays below `2^64` this means `fee ≤ money_in_use ≤ base_reward + fee` and
`min(MONEY_SUPPLY, coins + money_in_use - fee)` on the integers. -/
theorem alreadyGeneratedCoins_capped_on_every_run {chain : Blockchain}
    (reachable : Reachable chain) :
    (∀ info ∈ (mainRows chain.db).head?, info.biCoins = 0) ∧
      (∀ info ∈ mainRows chain.db, info.biCoins ≤ moneySupply) ∧
      ((mainRows chain.db).map BlockInfo.biCoins).Pairwise (· ≤ ·) ∧
      (∀ height, coinsBelow (mainRows chain.db) height ≤ moneySupply) ∧
      ∀ (env : ChainEnv) (bl : Block) (id : Hash) (chain' : Blockchain),
        handleBlockToMainChain env bl id chain = .ok true chain' →
        ∃ (row : BlockInfo) (sizes : List Nat)
    (cumulativeBlockSize fee baseReward : UInt64), mainRows chain'.db =
      mainRows chain.db ++ [row] ∧
        getLastNBlocksSizes cryptonoteRewardBlocksWindow chain =
          .ok sizes chain ∧
            getBlockReward env.earlyEmission (median (sizes.map UInt64.ofNat))
              cumulativeBlockSize (coinsBelow (mainRows chain.db)
              (chain.db.height - chain.db.height % coinEmissionHeightInterval))
            chain.db.height = some baseReward ∧
          ¬baseReward + fee < bl.minerTx.getOutsMoneyAmount ∧
          ¬baseReward < bl.minerTx.getOutsMoneyAmount - fee ∧
          row.biCoins = (if chain.db.height = 0 then 0 else
            capAlreadyGeneratedCoins
              (coinsBelow (mainRows chain.db) chain.db.height)
    (bl.minerTx.getOutsMoneyAmount - fee)) ∧
          (fee.toNat + baseReward.toNat < 2 ^ 64 →
            fee.toNat ≤ bl.minerTx.getOutsMoneyAmount.toNat ∧
            bl.minerTx.getOutsMoneyAmount.toNat ≤ baseReward.toNat + fee.toNat ∧
            (chain.db.height ≠ 0 → row.biCoins.toNat = min moneySupply.toNat
              ((coinsBelow (mainRows chain.db) chain.db.height).toNat +
                bl.minerTx.getOutsMoneyAmount.toNat - fee.toNat))) := by
  obtain ⟨⟨dense, capped⟩, pool⟩ := emissionSound_invariant.reachable reachable
  refine ⟨capped.genesis, capped.capped, capped.monotone,
    capped.coinsBelow_le, ?_⟩
  intro env bl id chain' run
  -- the block went to `add_block` from the store the call started with
  obtain ⟨current, blockSize, cumulativeDifficulty, coinsGenerated, txs,
    newHeight, sameDb, handed, adding⟩ :=
      handleBlockToMainChain_added env pool run
  obtain ⟨cumulativeBlockSize, fee, baseReward, sizes, -, read, rewarded,
    covered, bounded, coins⟩ := handed.of_dense env (sameDb ▸ dense)
  rw [sameDb] at rewarded coins
  refine ⟨_, sizes, cumulativeBlockSize, fee, baseReward,
    addBlock_mainRows env.dbEnv adding, getLastNBlocksSizes_of_db sameDb read,
      rewarded, covered, bounded,
    by rw [blockInfoRow_biCoins, coins], ?_⟩
  intro noWrap
  obtain ⟨feeBelow, outputsBelow, difference⟩ :=
    minerReward_of_no_wrap covered bounded noWrap
  refine ⟨feeBelow, outputsBelow, fun nonzero => ?_⟩
  rw [blockInfoRow_biCoins, if_neg nonzero, coins,
    capAlreadyGeneratedCoins_toNat _ (capped.coinsBelow_le _), difference]
  omega

/-- On the sample chain the genesis row stores no coins and the second
block's row the 1000 its miner took. -/
theorem alreadyGeneratedCoins_capped_on_sample_chain :
    (mainRows sampleChain.db).map BlockInfo.biCoins = [0, 1000] ∧
      (∀ info ∈ (mainRows sampleChain.db).head?, info.biCoins = 0) ∧
      (∀ info ∈ mainRows sampleChain.db, info.biCoins ≤ moneySupply) ∧
      ((mainRows sampleChain.db).map BlockInfo.biCoins).Pairwise (· ≤ ·) ∧
      (∀ height, coinsBelow (mainRows sampleChain.db) height ≤ moneySupply) ∧
      ∀ (env : ChainEnv) (bl : Block) (id : Hash) (chain' : Blockchain),
        handleBlockToMainChain env bl id sampleChain = .ok true chain' →
        ∃ (row : BlockInfo) (sizes : List Nat)
    (cumulativeBlockSize fee baseReward : UInt64), mainRows chain'.db =
      mainRows sampleChain.db ++ [row] ∧
        getLastNBlocksSizes cryptonoteRewardBlocksWindow sampleChain =
          .ok sizes sampleChain ∧
            getBlockReward env.earlyEmission (median (sizes.map UInt64.ofNat))
              cumulativeBlockSize (coinsBelow (mainRows sampleChain.db)
              (sampleChain.db.height -
                sampleChain.db.height % coinEmissionHeightInterval))
            sampleChain.db.height = some baseReward ∧
          ¬baseReward + fee < bl.minerTx.getOutsMoneyAmount ∧
          ¬baseReward < bl.minerTx.getOutsMoneyAmount - fee ∧
          row.biCoins = (if sampleChain.db.height = 0 then 0 else
            capAlreadyGeneratedCoins
              (coinsBelow (mainRows sampleChain.db) sampleChain.db.height)
    (bl.minerTx.getOutsMoneyAmount - fee)) ∧
          (fee.toNat + baseReward.toNat < 2 ^ 64 →
            fee.toNat ≤ bl.minerTx.getOutsMoneyAmount.toNat ∧
            bl.minerTx.getOutsMoneyAmount.toNat ≤ baseReward.toNat + fee.toNat ∧
            (sampleChain.db.height ≠ 0 →
              row.biCoins.toNat = min moneySupply.toNat
                ((coinsBelow (mainRows sampleChain.db)
                  sampleChain.db.height).toNat +
                    bl.minerTx.getOutsMoneyAmount.toNat - fee.toNat))) :=
  ⟨by decide +kernel, alreadyGeneratedCoins_capped_on_every_run
    sampleChain_reachable⟩

end CryptonoteCore
end Citicash
