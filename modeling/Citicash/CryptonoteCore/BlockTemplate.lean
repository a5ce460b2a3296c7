import Citicash.CryptonoteCore.TxPool
import Citicash.CryptonoteCore.Consensus

/-!
# Filling a block template from the pool

`tx_memory_pool::fill_block_template` walks the fee index of the pool in its
order and takes a transaction into the template when the block it would make
still earns a reward (`get_block_reward` on the grown size), the coinbase does
not fall below the threshold of the best one so far, the chain finds it ready
(`is_transaction_ready_to_go`, an oracle here, as are the chain's answers in
`TxPool`), and none of its key images is one the template already spends.
The hash goes into the template before `append_key_images`, whose failure is
ignored.

The order of `m_txs_by_fee_and_receive_time` is not modelled (`TxPool` keeps
only its ids); the fill is taken over any list of distinct ids of the index,
which covers that order.  On a pool whose index holds transactions of
`txin_to_key` inputs with distinct key images (`PoolIndexInvariant`, which
`add_tx`, `take_tx` and `remove_stuck_transactions` keep), the loop keeps a
`Represents` invariant between its state and the transactions chosen so far:
the template's hashes are theirs, their key images are pairwise disjoint,
`total_size` and `fee` are their sums in 64-bit arithmetic, and the final size
still earns a reward.
-/

namespace Citicash
namespace CryptonoteCore

open Cryptonote

/-! ## The model -/

/-- `CRYPTONOTE_COINBASE_BLOB_RESERVED_SIZE`. -/
def cryptonoteCoinbaseBlobReservedSize : UInt64 := 600

/-- A number converted to a `float`: rounded to 24 significant bits, to
nearest with ties to even. -/
def roundToFloat (amount : Nat) : Nat :=
  let dropped := Nat.log2 amount + 1 - 24
  let kept := amount / 2 ^ dropped
  let rest := amount % 2 ^ dropped
  let half := 2 ^ dropped / 2
  let kept :=
    if half < rest ∨ (rest = half ∧ 0 < dropped ∧ kept % 2 = 1)
      then kept + 1 else kept
  kept * 2 ^ dropped

/-- `template_accept_threshold(amount)`: `amount * ACCEPT_THRESHOLD` with the
`float` `1.0f`, that is the amount rounded to a `float` and truncated back.
(A round up to `2^64` overflows the conversion back; the model wraps.) -/
def templateAcceptThreshold (amount : UInt64) : UInt64 :=
  (roundToFloat amount.toNat).toUInt64

/-- `have_key_images(k_images, tx)` over the inputs: some `txin_to_key` before
the first input of another kind spends a key image of the set. -/
def haveKeyImages (kImages : Finset KeyImage) : List TxinV → Bool
  | [] => false
  | .txinToKey input :: rest =>
      if input.kImage ∈ kImages then true else haveKeyImages kImages rest
  | _ :: _ => false

/-- `append_key_images(k_images, tx)` over the inputs: the key images go into
the set in order; `false` at an input of another kind or a key image already
there, with the ones inserted before it kept. -/
def appendKeyImages : List TxinV → Finset KeyImage → Bool × Finset KeyImage
  | [], kImages => (true, kImages)
  | .txinToKey input :: rest, kImages =>
      if input.kImage ∈ kImages then (false, kImages)
      else appendKeyImages rest (insert input.kImage kImages)
  | _ :: _, kImages => (false, kImages)

/-- The variables of the loop of `fill_block_template`: `bl.tx_hashes`,
`total_size`, `fee`, `best_coinbase` and `k_images`. -/
structure FillState where
  txHashes : List Hash
  totalSize : UInt64
  fee : UInt64
  bestCoinbase : UInt64
  kImages : Finset KeyImage

/-! ## Key images of the chosen transactions -/

/-- Over `txin_to_key` inputs, `have_key_images` answering `false` means that
none of their key images is in the set. -/
theorem not_mem_of_haveKeyImages_eq_false {kImages : Finset KeyImage}
    {vin : List TxinV} (toKey : vin.all TxinV.isToKey = true)
    (unseen : haveKeyImages kImages vin = false) :
    ∀ k ∈ vin.filterMap TxinV.keyImage?, k ∉ kImages := by
  induction vin with
  | nil => simp
  | cons input rest ih =>
    cases input with
    | txinToKey input =>
      simp only [List.all_cons, Bool.and_eq_true] at toKey
      simp only [haveKeyImages] at unseen
      split at unseen
      · cases unseen
      · rename_i fresh
        intro k member
        simp only [List.filterMap_cons, TxinV.keyImage?,
          List.mem_cons] at member
        rcases member with rfl | later
        · exact fresh
        · exact ih toKey.2 unseen k later
    | txinGen _ | txinToScript _ | txinToScripthash _ =>
        simp [TxinV.isToKey] at toKey

/-- Over `txin_to_key` inputs with distinct key images, none of them in the
set, `append_key_images` succeeds and adds them all. -/
theorem appendKeyImages_eq {vin : List TxinV}
    (toKey : vin.all TxinV.isToKey = true)
    (distinct : (vin.filterMap TxinV.keyImage?).Nodup)
    {kImages : Finset KeyImage}
    (fresh : ∀ k ∈ vin.filterMap TxinV.keyImage?, k ∉ kImages) :
    appendKeyImages vin kImages =
      (true, kImages ∪ (vin.filterMap TxinV.keyImage?).toFinset) := by
  induction vin generalizing kImages with
  | nil => simp [appendKeyImages]
  | cons input rest ih =>
    cases input with
    | txinToKey input =>
      simp only [List.all_cons, Bool.and_eq_true] at toKey
      simp only [List.filterMap_cons, TxinV.keyImage?,
        List.nodup_cons] at distinct
      have here : input.kImage ∉ kImages := fresh _ (by simp [TxinV.keyImage?])
      -- the rest goes into the set with this key image added
      have restFresh : ∀ k ∈ rest.filterMap TxinV.keyImage?,
          k ∉ insert input.kImage kImages := by
        intro k member inserted
        rcases Finset.mem_insert.1 inserted with rfl | earlier
        · exact distinct.1 member
        · exact fresh k (by simp [TxinV.keyImage?, member]) earlier
      rw [appendKeyImages, if_neg here, ih toKey.2 distinct.2 restFresh]
      congr 1
      ext k
      simp only [Finset.mem_union, Finset.mem_insert, List.mem_toFinset,
        List.filterMap_cons, TxinV.keyImage?, List.mem_cons]
      tauto
    | txinGen _ | txinToScript _ | txinToScripthash _ =>
        simp [TxinV.isToKey] at toKey

/-! ## The pool's index -/

/-- Every id of the fee index names a pool transaction whose inputs are all
`txin_to_key`, with distinct key images. -/
def PoolIndexInvariant (pool : TxMemoryPool) : Prop :=
  ∀ id ∈ pool.txsByFeeAndReceiveTime, ∃ details ∈ pool.transactions.lookup id,
    details.tx.checkInputsTypesSupported = true ∧ details.tx.keyImages.Nodup

instance : DecidablePred PoolIndexInvariant := fun pool =>
  inferInstanceAs (Decidable (∀ id ∈ pool.txsByFeeAndReceiveTime,
    ∃ details ∈ pool.transactions.lookup id,
      details.tx.checkInputsTypesSupported = true ∧ details.tx.keyImages.Nodup))

section Fill

variable (earlyEmission : Nat → UInt64) (readyToGo : TxDetails → Bool)
    (pool : TxMemoryPool)
  (medianSize alreadyGeneratedCoins : UInt64) (height : Nat)

/-- One round of the loop of `fill_block_template`, at the fee index's entry
`id`.  (The source dereferences `m_transactions.find(id)` unchecked; an id of
the index that is no pool transaction is skipped here.) -/
def fillBlockTemplateStep (state : FillState) (id : Hash) : FillState :=
  match pool.transactions.lookup id with
  | none => state
  | some details =>
    match getBlockReward earlyEmission medianSize
        (state.totalSize + details.blobSize.toUInt64 +
          cryptonoteCoinbaseBlobReservedSize)
        alreadyGeneratedCoins height with
    | none => state
    | some blockReward =>
      let coinbase := blockReward + state.fee + details.fee
      if coinbase < templateAcceptThreshold state.bestCoinbase then state
      else if !readyToGo details then state
      else if haveKeyImages state.kImages details.tx.vin then state
      else
        { txHashes := state.txHashes ++ [id]
          totalSize := state.totalSize + details.blobSize.toUInt64
          fee := state.fee + details.fee
          bestCoinbase := coinbase
          kImages := (appendKeyImages details.tx.vin state.kImages).2 }

/-- The loop's variables are what the pool transactions `chosen` so far make
of a template that started with the hashes `start`: their hashes follow, each
was ready to go, their key images are the set's and pairwise disjoint, the
size and the fee are their sums, and the size so far earns a reward. -/
structure FillState.Represents (state : FillState) (start : List Hash)
    (chosen : List (Hash × TxDetails)) : Prop where
  txHashes : state.txHashes = start ++ chosen.map Prod.fst
  pooled : ∀ entry ∈ chosen, pool.transactions.lookup entry.1 = some entry.2
  ready : ∀ entry ∈ chosen, readyToGo entry.2 = true
  kImages : ∀ k, k ∈ state.kImages ↔ ∃ entry ∈ chosen, k ∈ entry.2.tx.keyImages
  disjoint : chosen.Pairwise fun a b => a.2.tx.keyImages.Disjoint
    b.2.tx.keyImages
  totalSize :
    state.totalSize = (chosen.map fun entry => entry.2.blobSize.toUInt64).sum
  fee : state.fee = (chosen.map fun entry => entry.2.fee).sum
  rewarded : (getBlockReward earlyEmission medianSize
    (state.totalSize + cryptonoteCoinbaseBlobReservedSize)
      alreadyGeneratedCoins height).isSome

/-- A transaction the round takes keeps the invariant with it chosen. -/
theorem FillState.Represents.take {state : FillState} {start : List Hash}
    {chosen : List (Hash × TxDetails)}
    (represents : state.Represents earlyEmission readyToGo pool medianSize
      alreadyGeneratedCoins height start chosen)
    {id : Hash} {details : TxDetails}
    (found : pool.transactions.lookup id = some details)
    (ready : readyToGo details = true)
    (toKey : details.tx.checkInputsTypesSupported = true)
    (distinct : details.tx.keyImages.Nodup) {blockReward : UInt64}
    (rewarded :
      getBlockReward earlyEmission medianSize
        (state.totalSize + details.blobSize.toUInt64 +
          cryptonoteCoinbaseBlobReservedSize) alreadyGeneratedCoins height =
            some blockReward)
    (unseen : haveKeyImages state.kImages details.tx.vin = false)
    (coinbase : UInt64) :
    FillState.Represents earlyEmission readyToGo pool medianSize
      alreadyGeneratedCoins height
      { txHashes := state.txHashes ++ [id]
        totalSize := state.totalSize + details.blobSize.toUInt64
        fee := state.fee + details.fee
        bestCoinbase := coinbase
        kImages := (appendKeyImages details.tx.vin state.kImages).2 }
      start (chosen ++ [(id, details)]) := by
  have fresh := not_mem_of_haveKeyImages_eq_false toKey unseen
  have appended := appendKeyImages_eq toKey distinct fresh
  refine ⟨?_, ?_, ?_, fun k => ?_, ?_, ?_, ?_, ?_⟩
  · rw [represents.txHashes, List.map_append, List.append_assoc]
    rfl
  · intro entry member
    rcases List.mem_append.1 member with earlier | here
    · exact represents.pooled entry earlier
    · rw [List.mem_singleton.1 here]
      exact found
  · intro entry member
    rcases List.mem_append.1 member with earlier | here
    · exact represents.ready entry earlier
    · rw [List.mem_singleton.1 here]
      exact ready
  · -- the set gains exactly the new transaction's key images
    rw [appended, Finset.mem_union, represents.kImages, List.mem_toFinset]
    simp only [List.mem_append, List.mem_singleton, Transaction.keyImages]
    constructor
    · rintro (⟨entry, member, mem⟩ | mem)
      · exact ⟨entry, .inl member, mem⟩
      · exact ⟨(id, details), .inr rfl, mem⟩
    · rintro ⟨entry, member | rfl, mem⟩
      · exact .inl ⟨entry, member, mem⟩
      · exact .inr mem
  · refine List.pairwise_append.2
      ⟨represents.disjoint, List.pairwise_singleton _ _, ?_⟩
    -- an earlier transaction's key images are in the set, the new ones are not
    intro a earlier b here k inA inB
    rw [List.mem_singleton.1 here] at inB
    exact fresh k inB ((represents.kImages k).2 ⟨a, earlier, inA⟩)
  · rw [represents.totalSize, List.map_append, List.sum_append,
      List.map_singleton, List.sum_singleton]
  · rw [represents.fee, List.map_append, List.sum_append, List.map_singleton,
      List.sum_singleton]
  · simp only [rewarded, Option.isSome_some]

/-- One round keeps the invariant, with the transaction at `id` chosen or
not. -/
theorem FillState.Represents.step (invariant : PoolIndexInvariant pool)
    {state : FillState} {start : List Hash} {chosen : List (Hash × TxDetails)}
    (represents : state.Represents earlyEmission readyToGo pool medianSize
      alreadyGeneratedCoins height start chosen)
    {id : Hash} (indexed : id ∈ pool.txsByFeeAndReceiveTime) :
    ∃ added : List (Hash × TxDetails), (added.map Prod.fst).Sublist [id] ∧
      (fillBlockTemplateStep earlyEmission readyToGo pool medianSize
        alreadyGeneratedCoins height state id).Represents earlyEmission
          readyToGo pool medianSize alreadyGeneratedCoins height start
            (chosen ++ added) := by
  obtain ⟨details, found, toKey, distinct⟩ := invariant id indexed
  have unchanged : ∃ added : List (Hash × TxDetails),
      (added.map Prod.fst).Sublist [id] ∧
      state.Represents earlyEmission readyToGo pool medianSize
        alreadyGeneratedCoins height start
        (chosen ++ added) :=
          ⟨[], List.nil_sublist _, by rw [List.append_nil]; exact represents⟩
  unfold fillBlockTemplateStep
  rw [Option.mem_def.1 found]
  dsimp only
  split
  · exact unchanged
  · rename_i blockReward rewarded
    -- the three reasons to skip leave the state as it was
    split
    · exact unchanged
    split
    · exact unchanged
    split
    · exact unchanged
    rename_i ready unseen
    exact ⟨[(id, details)], List.Sublist.refl _,
      represents.take earlyEmission readyToGo pool medianSize
      alreadyGeneratedCoins height (Option.mem_def.1 found)
        (by simpa using ready) toKey distinct
      rewarded (Bool.eq_false_iff.2 unseen) _⟩

/-- The rounds over ids of the index keep the invariant; the transactions they
choose come from the ids, in their order. -/
theorem FillState.Represents.foldl (invariant : PoolIndexInvariant pool)
    {ids : List Hash} (indexed : ∀ id ∈ ids, id ∈ pool.txsByFeeAndReceiveTime)
    {state : FillState} {start : List Hash} {chosen : List (Hash × TxDetails)}
    (represents : state.Represents earlyEmission readyToGo pool medianSize
      alreadyGeneratedCoins height start chosen) :
    ∃ added : List (Hash × TxDetails), (added.map Prod.fst).Sublist ids ∧
      (ids.foldl (fillBlockTemplateStep earlyEmission readyToGo pool medianSize
        alreadyGeneratedCoins height) state).Represents earlyEmission
          readyToGo pool medianSize alreadyGeneratedCoins height start
            (chosen ++ added) := by
  induction ids generalizing state chosen with
  | nil => exact ⟨[],
      List.Sublist.slnil, by rw [List.append_nil]; exact represents⟩
  | cons id rest ih =>
    obtain ⟨added, fromId, stepped⟩ :=
      represents.step earlyEmission readyToGo pool medianSize
      alreadyGeneratedCoins height invariant (indexed id List.mem_cons_self)
    obtain ⟨later, fromRest, run⟩ :=
      ih (fun other member =>
        indexed other (List.mem_cons_of_mem _ member)) stepped
    refine ⟨added ++ later, ?_, by rw [← List.append_assoc]; exact run⟩
    rw [List.map_append, ← List.singleton_append]
    exact fromId.append fromRest

end Fill

/-! ## The template -/

section Template

variable (earlyEmission : Nat → UInt64) (readyToGo : TxDetails → Bool)
    (pool : TxMemoryPool)
  (medianSize alreadyGeneratedCoins : UInt64) (height : Nat)

end Template

end CryptonoteCore
end Citicash
