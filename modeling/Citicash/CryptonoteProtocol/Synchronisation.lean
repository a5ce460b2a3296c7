import Citicash.CryptonoteProtocol.Handler
import Mathlib.Algebra.BigOperators.Group.List.Basic
import Mathlib.Algebra.GroupWithZero.Nat

/-!
# What a connection hands to the core

Over every sequence of responses handled on one connection, from a context
with nothing requested: at every point, each block id has been handed to
`handle_incoming_block` at most as often as `request_missing_objects` asked
for it (`run_answers_follow_requests`).  A block is handed only when the
response that carries it answers exactly the ids awaited, each once
(`checkBlocks_passed`).

The invariant carried along a run (`RequestsCover`) counts: the blocks
handed so far and the ids still awaited are covered by the requests made.
-/

namespace Citicash
namespace CryptonoteProtocol

open Cryptonote

variable (format : BlockFormat) (id : Hash)

/-- How many times an action requests `id`. -/
def Action.requests : Action → Nat
  | .requestGetObjects blocks => blocks.count id
  | _ => 0

/-- How many times an action hands a block with id `id` to the core. -/
def Action.hands : Action → Nat
  | .handleIncomingBlock blob => if format.blockId blob = some id then 1 else 0
  | _ => 0

/-- The requests for `id` among the actions. -/
def requestCount (actions : List Action) : Nat :=
  (actions.map (Action.requests id)).sum

/-- The blocks with id `id` handed among the actions. -/
def handedCount (actions : List Action) : Nat :=
  (actions.map (Action.hands format id)).sum

/-- One when `id` is awaited on the connection. -/
def awaited (context : ConnectionContext) : Nat :=
  if id ∈ context.requestedObjects then 1 else 0

/-- How many of the entries hold a block with id `id`. -/
def blockCount (blocks : List BlockCompleteEntry) : Nat :=
  (blocks.map fun entry => format.blockId entry.block).count (some id)

@[simp] theorem requestCount_nil : requestCount id [] = 0 := rfl

@[simp] theorem handedCount_nil : handedCount format id [] = 0 := rfl

@[simp] theorem requestCount_append (first second : List Action) :
    requestCount id (first ++ second) = requestCount id first +
      requestCount id second := by
  simp only [requestCount, List.map_append, List.sum_append]

@[simp] theorem handedCount_append (first second : List Action) :
    handedCount format id (first ++ second) =
      handedCount format id first + handedCount format id second := by
  simp only [handedCount, List.map_append, List.sum_append]

@[simp] theorem requestCount_cons (action : Action) (rest : List Action) :
    requestCount id (action :: rest) = action.requests id +
      requestCount id rest := by
  simp only [requestCount, List.map_cons, List.sum_cons]

@[simp] theorem handedCount_cons (action : Action) (rest : List Action) :
    handedCount format id (action :: rest) = action.hands format id +
      handedCount format id rest := by
  simp only [handedCount, List.map_cons, List.sum_cons]

theorem handedCount_take_le (actions : List Action) (n : Nat) :
    handedCount format id (actions.take n) ≤ handedCount format id actions := by
  have split :=
    List.sum_take_add_sum_drop (actions.map (Action.hands format id)) n
  rw [← List.map_take] at split
  unfold handedCount
  omega

/-- Actions that hand no block. -/
def HandsNone (actions : List Action) : Prop :=
  ∀ id, handedCount format id actions = 0

variable {format} in
theorem HandsNone.take {actions : List Action}
    (none : HandsNone format actions) (n : Nat) :
    HandsNone format (actions.take n) := by
  intro id
  have bound := handedCount_take_le format id actions n
  rw [none id] at bound
  omega

/-! ## `request_missing_objects` -/

section Requests

variable (haveBlock : Hash → Bool) (countLimit : Nat) (checkHavingBlocks : Bool)
  (context : ConnectionContext)

theorem requestMissingObjects_handsNone :
    HandsNone format
      (requestMissingObjects haveBlock countLimit checkHavingBlocks
        context).2 := by
  intro id
  unfold requestMissingObjects
  split
  · rfl
  · split
    · rfl
    · split <;> rfl

/-- What `request_missing_objects` leaves awaited was awaited before or is
requested now. -/
theorem requestMissingObjects_awaited :
    awaited id
      (requestMissingObjects haveBlock countLimit checkHavingBlocks context).1 ≤
      awaited id context +
        requestCount id
          (requestMissingObjects haveBlock countLimit checkHavingBlocks
            context).2 := by
  unfold requestMissingObjects
  split
  · -- the ids taken from the needed list are requested and awaited
    simp only [awaited, requestCount_cons, requestCount_nil, Action.requests,
      Finset.mem_union, List.mem_toFinset]
    split
    · rename_i member
      rcases member with before | taken
      · simp [before]
      · have counted := List.count_pos_iff.mpr taken
        split <;> omega
    · omega
  · split
    · simp [awaited, requestCount]
    · split
      · simp [awaited, requestCount]
      · simp [awaited, requestCount]

end Requests

/-! ## `handle_response_chain_entry` -/

section ChainEntry

variable (core : CoreAnswers) (arg : ResponseChainEntry)
    (context : ConnectionContext)

theorem handleResponseChainEntry_handsNone :
    HandsNone format (handleResponseChainEntry core arg context).2 := by
  intro id
  unfold handleResponseChainEntry
  split
  · rfl
  · split
    · rfl
    · dsimp only
      rw [handedCount_append, requestMissingObjects_handsNone]
      split <;> rfl

theorem handleResponseChainEntry_awaited :
    awaited id (handleResponseChainEntry core arg context).1 ≤
      awaited id context +
        requestCount id (handleResponseChainEntry core arg context).2 := by
  unfold handleResponseChainEntry
  split
  · simp
  · split
    · simp
    · dsimp only
      rw [requestCount_append]
      -- the queued ids do not change what is awaited before the request
      have step :=
        requestMissingObjects_awaited id core.haveBlock core.blockSyncSize false
        { context with
          remoteBlockchainHeight := arg.totalHeight
          lastResponseHeight :=
            arg.startHeight + UInt64.ofNat arg.blockIds.length - 1
          neededObjects :=
            context.neededObjects ++ arg.blockIds.filter fun id =>
              !core.haveBlock id }
      simp only [awaited] at step ⊢
      omega

end ChainEntry

/-! ## `handle_response_get_objects` -/

section GetObjects

variable (core : CoreAnswers)

/-- When the first loop passes, every entry held a distinct awaited block,
each answering its request: an id is in the response at most once, only
when it was awaited, and then no longer awaited. -/
theorem checkBlocks_passed :
    ∀ (blocks : List BlockCompleteEntry) (count : Nat)
    (requested left : Finset Hash),
      checkBlocks format core blocks count requested = .passed left →
        blockCount format id blocks + (if id ∈ left then 1 else 0) ≤
          if id ∈ requested then 1 else 0 := by
  intro blocks
  induction blocks with
  | nil =>
      intro count requested left passed
      cases passed
      simp [blockCount]
  | cons entry rest ih =>
      intro count requested left passed
      unfold checkBlocks at passed
      split at passed
      · cases passed
      · split at passed
        · cases passed
        · rename_i b parsed
          split at passed
          · cases passed
          · split at passed
            · cases passed
            · split at passed
              · cases passed
              · rename_i _ asked _
                have below := ih _ _ _ passed
                have held : format.blockId entry.block =
                    some (format.getBlockHash b) := by
                  rw [BlockFormat.blockId, parsed, Option.map_some]
                simp only [blockCount, List.map_cons, held] at below ⊢
                by_cases same : format.getBlockHash b = id
                · -- the entry answers `id`, which the rest cannot answer again
                  subst same
                  simp only [List.count_cons_self, Finset.mem_erase, ne_eq,
                    not_true_eq_false, false_and, if_false] at below ⊢
                  rw [if_pos (not_not.mp asked)]
                  omega
                · have other :
                    (some (format.getBlockHash b) == some id) = false := by
                    simp [same]
                  rw [List.count_cons, other, if_neg (by simp)]
                  simp only [Finset.mem_erase, ne_eq, Ne.symm same,
                    not_false_eq_true, true_and] at below
                  exact below

/-- The first loop leaves awaited only what was awaited. -/
theorem checkBlocks_subset :
    ∀ (blocks : List BlockCompleteEntry) (count : Nat)
    (requested : Finset Hash),
      (∀ left, checkBlocks format core blocks count requested = .passed left →
        left ⊆ requested) ∧
      (∀ left, checkBlocks format core blocks count requested = .dropped left →
        left ⊆ requested) ∧
      (∀ left, checkBlocks format core blocks count requested = .stopped left →
        left ⊆ requested) := by
  intro blocks
  induction blocks with
  | nil =>
      intro count requested
      refine ⟨?_, ?_, ?_⟩ <;> intro left ended <;> cases ended
      exact Finset.Subset.refl _
  | cons entry rest ih =>
      intro count requested
      -- every ending either keeps the set as it is or comes from the rest on a
      -- smaller set
      have erased : ∀ h, requested.erase h ⊆ requested :=
        fun h => Finset.erase_subset h requested
      unfold checkBlocks
      split
      · refine ⟨?_, ?_, ?_⟩ <;> intro left ended <;> cases ended
        exact Finset.Subset.refl _
      · split
        · refine ⟨?_, ?_, ?_⟩ <;> intro left ended <;> cases ended
          exact Finset.Subset.refl _
        · split
          · refine ⟨?_, ?_, ?_⟩ <;> intro left ended <;> cases ended
          · split
            · refine ⟨?_, ?_, ?_⟩ <;> intro left ended <;> cases ended
              exact Finset.Subset.refl _
            · split
              · refine ⟨?_, ?_, ?_⟩ <;> intro left ended <;> cases ended
                exact Finset.Subset.refl _
              · obtain ⟨passed, dropped, stopped⟩ :=
                  ih (count + 1) (requested.erase _)
                exact ⟨fun left ended => (passed left ended).trans (erased _),
                  fun left ended => (dropped left ended).trans (erased _),
                  fun left ended => (stopped left ended).trans (erased _)⟩

theorem handleTxs_handsNone (txs : List Bytes) :
    HandsNone format (handleTxs core txs).1 := by
  intro id
  induction txs with
  | nil => rfl
  | cons tx rest ih =>
      unfold handleTxs
      split
      · rfl
      · simp only [handedCount_cons, Action.hands, ih, Nat.add_zero]

/-- The second loop hands each entry's block at most once. -/
theorem handleBlocks_handed (blocks : List BlockCompleteEntry) :
    handedCount format id (handleBlocks core blocks).1 ≤
      blockCount format id blocks := by
  induction blocks with
  | nil => exact Nat.zero_le _
  | cons entry rest ih =>
      have held : blockCount format id (entry :: rest) =
          (if format.blockId entry.block = some id then 1 else 0) +
            blockCount format id rest := by
        simp only [blockCount, List.map_cons, List.count_cons, beq_iff_eq]
        split <;> omega
      unfold handleBlocks
      split
      · exact Nat.zero_le _
      · split
        · rename_i actions stopped
          have none := handleTxs_handsNone format core entry.txs id
          rw [stopped] at none
          rw [none]
          exact Nat.zero_le _
        · rename_i actions passedTxs
          have none := handleTxs_handsNone format core entry.txs id
          rw [passedTxs] at none
          split
          · simp only [handedCount_append, handedCount_cons,
              Action.hands, none, held]
            omega
          · simp only [handedCount_append, handedCount_cons, handedCount_nil,
              Action.hands, none, held]
            omega

/-- Once every requested block came, the blocks handed are those of the
response and what is awaited afterwards is requested at the end. -/
theorem handleRequestedBlocks_covers (blocks : List BlockCompleteEntry)
    (context : ConnectionContext)
    (nothingAwaited : context.requestedObjects = ∅) {bound : Nat}
    (inResponse : blockCount format id blocks ≤ bound) :
    (∀ n, handedCount format id
      ((handleRequestedBlocks core blocks context).2.take n) ≤ bound +
        requestCount id
          ((handleRequestedBlocks core blocks context).2.take n)) ∧
      handedCount format id (handleRequestedBlocks core blocks context).2 +
          awaited id (handleRequestedBlocks core blocks context).1 ≤
        bound + requestCount id
          (handleRequestedBlocks core blocks context).2 := by
  have handed : handedCount format id
      (if core.testDropDownload then handleBlocks core blocks
         else ([], true)).1 ≤ bound := by
    split
    · exact (handleBlocks_handed format id core blocks).trans inResponse
    · exact Nat.zero_le _
  have none :=
    requestMissingObjects_handsNone format core.haveBlockAfter
      core.blockSyncSize true context
  have next :=
    requestMissingObjects_awaited id core.haveBlockAfter
      core.blockSyncSize true context
  simp only [awaited, nothingAwaited, Finset.notMem_empty, if_false,
    Nat.zero_add] at next
  unfold handleRequestedBlocks
  generalize
    (if core.testDropDownload then handleBlocks core blocks else ([], true)) =
      handled at handed
  obtain ⟨actions, completed⟩ := handled
  dsimp only at handed ⊢
  cases completed
  · -- a transaction or a block failed, or the node stops: nothing more is
    -- requested
    rw [if_pos (show (!false) = true from rfl)]
    refine ⟨fun n => (handedCount_take_le format id _ n).trans
      (handed.trans (Nat.le_add_right _ _)), ?_⟩
    simp only [awaited, nothingAwaited, Finset.notMem_empty,
      if_false, Nat.add_zero]
    exact handed.trans (Nat.le_add_right _ _)
  · rw [if_neg (show ¬((!true) = true) by decide)]
    refine ⟨fun n => ?_, ?_⟩
    · rw [List.take_append, handedCount_append,
        requestCount_append, none.take _ id]
      have firstPart := handedCount_take_le format id actions n
      omega
    · rw [handedCount_append, requestCount_append, none id]
      simp only [awaited] at next ⊢
      omega

theorem handleResponseGetObjects_covers (arg : ResponseGetObjects)
    (context : ConnectionContext) :
    (∀ n, handedCount format id
      ((handleResponseGetObjects format core arg context).2.take n) ≤
        awaited id context +
          requestCount id
            ((handleResponseGetObjects format core arg context).2.take n)) ∧
      handedCount format id
        (handleResponseGetObjects format core arg context).2 +
          awaited id (handleResponseGetObjects format core arg context).1 ≤
        awaited id context +
          requestCount id
            (handleResponseGetObjects format core arg context).2 := by
  -- an ending that hands nothing and awaits only what was awaited
  have quiet : ∀ (result : ConnectionContext × List Action),
      HandsNone format result.2 →
      result.1.requestedObjects ⊆ context.requestedObjects →
      (∀ n, handedCount format id (result.2.take n) ≤
          awaited id context + requestCount id (result.2.take n)) ∧
        handedCount format id result.2 + awaited id result.1 ≤
          awaited id context + requestCount id result.2 := by
    intro result none kept
    refine ⟨fun n => by rw [none.take n id]; exact Nat.zero_le _, ?_⟩
    rw [none id]
    simp only [awaited, Nat.zero_add]
    split
    · rename_i member
      rw [if_pos (kept member)]
      omega
    · omega
  have subsets :=
    checkBlocks_subset format core arg.blocks 0 context.requestedObjects
  unfold handleResponseGetObjects
  by_cases lower : arg.currentBlockchainHeight < context.lastResponseHeight
  · rw [if_pos lower]
    exact quiet _ (fun _ => rfl) (Finset.Subset.refl _)
  rw [if_neg lower]
  dsimp only
  cases checked :
    checkBlocks format core arg.blocks 0 context.requestedObjects with
  | stopped left => exact quiet _ (fun _ => rfl) (subsets.2.2 left checked)
  | dropped left => exact quiet _ (fun _ => rfl) (subsets.2.1 left checked)
  | idle => exact quiet _ (fun _ => rfl) (Finset.empty_subset _)
  | passed left =>
      have answered :=
        checkBlocks_passed format id core arg.blocks 0 _ left checked
      dsimp only
      by_cases unanswered : left ≠ ∅
      · rw [if_pos unanswered]
        exact quiet _ (fun _ => rfl) (subsets.1 left checked)
      rw [if_neg unanswered]
      rw [not_not] at unanswered
      subst unanswered
      -- the response held the awaited blocks, each once
      have inResponse : blockCount format id arg.blocks ≤
          awaited id context := by
        simpa only [awaited, Finset.notMem_empty, if_false,
          Nat.add_zero] using answered
      exact handleRequestedBlocks_covers format id core
        arg.blocks _ rfl inResponse

end GetObjects

/-! ## Whole runs -/

/-- The blocks handed and the ids awaited are covered by the requests made. -/
def RequestsCover (context : ConnectionContext)
    (actions : List Action) : Prop :=
  ∀ id, handedCount format id actions + awaited id context ≤
    requestCount id actions

/-- At every point of the actions, each id was handed at most as often as it
was requested before. -/
def AnswersFollowRequests (actions : List Action) : Prop :=
  ∀ n id, handedCount format id (actions.take n) ≤
    requestCount id (actions.take n)

theorem handleMessage_covers (core : CoreAnswers) (message : Message)
    (context : ConnectionContext) :
    (∀ n, handedCount format id
      ((handleMessage format core message context).2.take n) ≤
        awaited id context +
          requestCount id
            ((handleMessage format core message context).2.take n)) ∧
      handedCount format id (handleMessage format core message context).2 +
          awaited id (handleMessage format core message context).1 ≤
        awaited id context +
          requestCount id (handleMessage format core message context).2 := by
  cases message with
  | responseChainEntry arg =>
      have none := handleResponseChainEntry_handsNone format core arg context
      refine ⟨fun n => by
        rw [handleMessage, none.take n id]; exact Nat.zero_le _, ?_⟩
      rw [handleMessage, none id, Nat.zero_add]
      exact handleResponseChainEntry_awaited id core arg context
  | responseGetObjects arg =>
      exact handleResponseGetObjects_covers format id core arg context

/-- One message keeps the cover, and every point of the longer list of
actions still follows the requests. -/
theorem RequestsCover.handleMessage {context : ConnectionContext}
    {before : List Action} (cover : RequestsCover format context before)
    (follow : AnswersFollowRequests format before)
    (core : CoreAnswers) (message : Message) :
    RequestsCover format (handleMessage format core message context).1
        (before ++ (handleMessage format core message context).2) ∧
      AnswersFollowRequests format
        (before ++ (handleMessage format core message context).2) := by
  refine ⟨fun id => ?_, fun n id => ?_⟩
  · have step := (handleMessage_covers format id core message context).2
    have earlier := cover id
    rw [handedCount_append, requestCount_append]
    omega
  · have steps :=
      (handleMessage_covers format id core message context).1
        (n - before.length)
    rw [List.take_append, handedCount_append, requestCount_append]
    by_cases within : n ≤ before.length
    · -- a point inside the earlier actions
      have none : n - before.length = 0 := by omega
      rw [none, List.take_zero, handedCount_nil, requestCount_nil]
      exact follow n id
    · -- a point inside this message's actions: all earlier actions are taken
      rw [List.take_of_length_le (by omega)]
      have earlier := cover id
      omega

theorem run_requestsCover :
    ∀ (messages : List (CoreAnswers × Message)) (context : ConnectionContext)
    (before : List Action),
      RequestsCover format context before →
        AnswersFollowRequests format before →
        RequestsCover format (run format messages context).1
          (before ++ (run format messages context).2) ∧
          AnswersFollowRequests format
            (before ++ (run format messages context).2) := by
  intro messages
  induction messages with
  | nil =>
      intro context before cover follow
      simp only [run, List.append_nil]
      exact ⟨cover, follow⟩
  | cons step rest ih =>
      intro context before cover follow
      obtain ⟨core, message⟩ := step
      obtain ⟨cover', follow'⟩ := cover.handleMessage format follow core message
      have later := ih _ _ cover' follow'
      simp only [run]
      rw [← List.append_assoc]
      exact later

/-- From a connection that awaits nothing, every block the handlers hand to
`handle_incoming_block` answers a request of its own: at every point of the
run, each id has been handed at most as often as it was requested. -/
theorem run_answers_follow_requests (messages : List (CoreAnswers × Message))
    (context : ConnectionContext) (fresh : context.requestedObjects = ∅) :
    AnswersFollowRequests format (run format messages context).2 := by
  have start : RequestsCover format context [] := by
    intro id
    simp [awaited, fresh]
  have follow : AnswersFollowRequests format [] := by
    intro n id
    simp
  exact (run_requestsCover format messages context [] start follow).2

/-- A peer ahead by one block: the genesis id is known, and blob `[1]` holds
the block it offers, of id `⟨Vector.replicate 32 1⟩`. -/
def oneBlockFormat : BlockFormat :=
  ⟨fun blob => if blob = [1] then some default else none,
    fun _ => ⟨Vector.replicate 32 1⟩⟩

def oneBlockCore : CoreAnswers :=
  ⟨fun id => id == nullHash, fun _ => true, fun _ => false, fun _ => .accepted,
    10, false, true⟩

/-- The chain entry from the genesis block to the new one, then the objects
response carrying the new block. -/
def oneBlockMessages : List (CoreAnswers × Message) :=
  [(oneBlockCore,
    .responseChainEntry ⟨0, 2, [nullHash, ⟨Vector.replicate 32 1⟩]⟩),
      (oneBlockCore, .responseGetObjects ⟨[⟨[1], []⟩], 2⟩)]

/-- On a new connection the chain entry makes the handler request the new
block, the response hands it to the core, and the connection is then
synchronized. -/
theorem run_answers_follow_requests_on_one_block :
    (⟨.synchronizing, [], ∅, 0, 0⟩ : ConnectionContext).requestedObjects = ∅ ∧
      (run oneBlockFormat oneBlockMessages ⟨.synchronizing, [], ∅, 0, 0⟩).2 =
        [.requestGetObjects [⟨Vector.replicate 32 1⟩], .handleIncomingBlock [1],
          .synchronized] ∧
      AnswersFollowRequests oneBlockFormat
        (run oneBlockFormat oneBlockMessages ⟨.synchronizing, [], ∅, 0, 0⟩).2 :=
  ⟨rfl, by decide +kernel, run_answers_follow_requests _ _ _ rfl⟩

end CryptonoteProtocol
end Citicash
