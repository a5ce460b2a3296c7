import Citicash.Basic.TxExtra

/-!
# Block synchronisation on one connection

`t_cryptonote_protocol_handler` of `cryptonote_protocol_handler.inl`: the
members of `cryptonote_connection_context` that a download from one peer
reads and writes, and the three members that drive them.
`handle_response_chain_entry` takes the peer's list of block ids,
`handle_response_get_objects` takes the blocks the peer sent, and
`request_missing_objects` decides what the node asks for next.

What the handlers ask of the core while one message is handled
(`have_block`, the block parser, the verdicts of `handle_incoming_tx` and
`handle_incoming_block`, `m_stopping`) is passed in with the message as
`CoreAnswers`.  Other connections add blocks between two messages, so these
answers are arbitrary and may change from one message to the next.  What a
handler does outside the context (dropping the connection, posting a request,
handing a block or a transaction to the core) is returned as a list of
`Action`s in the order it happens.  `m_p2p->drop_connection` only marks the
connection: the handler goes on after it, and so does the model.
-/

namespace Citicash
namespace CryptonoteProtocol

open Cryptonote

/-- `cryptonote_connection_context::state`. -/
inductive ConnectionState
  | beforHandshake
  | synchronizing
  | idle
  | normal
  deriving DecidableEq, Repr

/-- The members of `cryptonote_connection_context` the handlers use. -/
structure ConnectionContext where
  state : ConnectionState
  neededObjects : List Hash
  requestedObjects : Finset Hash
  remoteBlockchainHeight : UInt64
  lastResponseHeight : UInt64

/-- `block_complete_entry`. -/
structure BlockCompleteEntry where
  block : Bytes
  txs : List Bytes
  deriving DecidableEq, Repr

/-- `NOTIFY_RESPONSE_CHAIN_ENTRY::request`. -/
structure ResponseChainEntry where
  startHeight : UInt64
  totalHeight : UInt64
  blockIds : List Hash
  deriving DecidableEq, Repr

/-- `NOTIFY_RESPONSE_GET_OBJECTS::request`; its `txs` and `missed_ids` only
count towards the size that is logged. -/
structure ResponseGetObjects where
  blocks : List BlockCompleteEntry
  currentBlockchainHeight : UInt64
  deriving DecidableEq, Repr

/-- The two responses a download is driven by. -/
inductive Message
  | responseChainEntry (arg : ResponseChainEntry)
  | responseGetObjects (arg : ResponseGetObjects)

/-- The flags of `block_verification_context` that `handle_incoming_block`
sets. -/
inductive BlockVerdict
  | accepted
  | verificationFailed
  | markedAsOrphaned
  deriving DecidableEq, Repr

/-- The pure functions the handlers read blocks with. -/
structure BlockFormat where
  parseAndValidateBlockFromBlob : Bytes → Option Block
  getBlockHash : Block → Hash

/-- The id of the block a blob holds, when it parses. -/
def BlockFormat.blockId (format : BlockFormat) (blob : Bytes) : Option Hash :=
  (format.parseAndValidateBlockFromBlob blob).map format.getBlockHash

/-- What the core answers while one message is handled. `haveBlock` is
`have_block` before the blocks of a response are handled, `haveBlockAfter`
after them. -/
structure CoreAnswers where
  haveBlock : Hash → Bool
  haveBlockAfter : Hash → Bool
  txVerificationFailed : Bytes → Bool
  blockVerdict : Bytes → BlockVerdict
  /-- `get_block_sync_size()`, the `count_limit` of a request. -/
  blockSyncSize : Nat
  /-- `m_stopping`. -/
  stopping : Bool
  /-- `get_test_drop_download() && get_test_drop_download_height()`. -/
  testDropDownload : Bool

/-- What a handler does beyond the context. -/
inductive Action
  | dropConnection
  | addIpFail
  /-- `NOTIFY_REQUEST_GET_OBJECTS` with these block ids. -/
  | requestGetObjects (blocks : List Hash)
  /-- `NOTIFY_REQUEST_CHAIN`. -/
  | requestChain
  | handleIncomingTx (blob : Bytes)
  | handleIncomingBlock (blob : Bytes)
  /-- `on_connection_synchronized`. -/
  | synchronized
  deriving DecidableEq, Repr

/-! ## `request_missing_objects` -/

/-- The loop of `request_missing_objects` over `m_needed_objects`, with the
count of ids requested so far: while fewer than `countLimit` are requested,
each id leaves the list and is requested unless `skip` says the core has it.
Returns the ids requested and what is left of the list. -/
def takeNeededObjects (skip : Hash → Bool) (countLimit : Nat) :
    List Hash → Nat → List Hash × List Hash
  | [], _ => ([], [])
  | id :: rest, count =>
      if count < countLimit then
        if skip id then takeNeededObjects skip countLimit rest count
        else ((takeNeededObjects skip countLimit rest (count + 1)).1.cons id,
          (takeNeededObjects skip countLimit rest (count + 1)).2)
      else ([], id :: rest)

/-- `request_missing_objects(context, check_having_blocks)`: the needed ids
first, else a chain request while the peer is higher, else, when the
`CHECK_AND_ASSERT` on the heights and the two containers passes, the
connection is synchronized. -/
def requestMissingObjects (haveBlock : Hash → Bool) (countLimit : Nat)
    (checkHavingBlocks : Bool) (context : ConnectionContext) :
    ConnectionContext × List Action :=
  if context.neededObjects ≠ [] then
    let taken :=
      takeNeededObjects (fun id => checkHavingBlocks && haveBlock id) countLimit
      context.neededObjects 0
    ({ context with
        neededObjects := taken.2
        requestedObjects := context.requestedObjects ∪ taken.1.toFinset },
      [.requestGetObjects taken.1])
  else if context.lastResponseHeight < context.remoteBlockchainHeight - 1 then
    (context, [.requestChain])
  else if context.lastResponseHeight = context.remoteBlockchainHeight - 1 ∧
      context.requestedObjects = ∅ then
    ({ context with state := .normal }, [.synchronized])
  else (context, [])

/-! ## `handle_response_chain_entry` -/

/-- `handle_response_chain_entry`: an empty list or one that starts at an
unknown block drops the connection; otherwise the heights are taken from the
message, the connection is dropped when they are inconsistent, and the
unknown ids are queued and requested all the same. -/
def handleResponseChainEntry (core : CoreAnswers) (arg : ResponseChainEntry)
    (context : ConnectionContext) : ConnectionContext × List Action :=
  match arg.blockIds with
  | [] => (context, [.dropConnection, .addIpFail])
  | first :: _ =>
      if !core.haveBlock first then (context, [.dropConnection, .addIpFail])
      else
        let lastResponseHeight :=
          arg.startHeight + UInt64.ofNat arg.blockIds.length - 1
        let inconsistent : List Action :=
          if arg.totalHeight < lastResponseHeight then [.dropConnection] else []
        let context := { context with
          remoteBlockchainHeight := arg.totalHeight
          lastResponseHeight
          neededObjects :=
            context.neededObjects ++ arg.blockIds.filter fun id =>
              !core.haveBlock id }
        let requested :=
          requestMissingObjects core.haveBlock core.blockSyncSize false context
        (requested.1, inconsistent ++ requested.2)

/-! ## `handle_response_get_objects` -/

/-- How the first loop of `handle_response_get_objects` ends. -/
inductive CheckOutcome
  /-- Every block passed; the requests left unanswered. -/
  | passed (requested : Finset Hash)
  /-- The connection is dropped; the requests left unanswered so far. -/
  | dropped (requested : Finset Hash)
  /-- The second block is known: the connection goes idle. -/
  | idle
  /-- `m_stopping`. -/
  | stopped (requested : Finset Hash)

/-- The first loop of `handle_response_get_objects`, with the number of blocks
seen before: each block must parse, be requested and list as many
transactions as the entry carries, and then answers its request. -/
def checkBlocks (format : BlockFormat) (core : CoreAnswers) :
    List BlockCompleteEntry → Nat → Finset Hash → CheckOutcome
  | [], _, requested => .passed requested
  | entry :: rest, count, requested =>
      if core.stopping then .stopped requested
      else
        match format.parseAndValidateBlockFromBlob entry.block with
        | none => .dropped requested
        | some b =>
            if count + 1 = 2 ∧ core.haveBlock (format.getBlockHash b) then .idle
            else if format.getBlockHash b ∉ requested then .dropped requested
            else if b.txHashes.length ≠ entry.txs.length then .dropped requested
            else checkBlocks format core rest (count + 1)
                   (requested.erase (format.getBlockHash b))

/-- The transactions of one entry, each to `handle_incoming_tx`; a failed one
drops the connection and ends the handler (`false`). -/
def handleTxs (core : CoreAnswers) : List Bytes → List Action × Bool
  | [] => ([], true)
  | tx :: rest =>
      if core.txVerificationFailed tx
        then ([.handleIncomingTx tx, .dropConnection], false)
      else ((handleTxs core rest).1.cons (.handleIncomingTx tx),
        (handleTxs core rest).2)

/-- The second loop of `handle_response_get_objects`: each entry's
transactions, then its block to `handle_incoming_block`; a block that fails
or is orphaned drops the connection and ends the handler (`false`), as does
`m_stopping`, without a drop. -/
def handleBlocks (core : CoreAnswers) :
    List BlockCompleteEntry → List Action × Bool
  | [] => ([], true)
  | entry :: rest =>
      if core.stopping then ([], false)
      else
        match handleTxs core entry.txs with
        | (actions, false) => (actions, false)
        | (actions, true) =>
            match core.blockVerdict entry.block with
            | .accepted =>
                (actions ++ (handleBlocks core rest).1.cons
                    (.handleIncomingBlock entry.block),
                  (handleBlocks core rest).2)
            | _ =>
                (actions ++
                  [.handleIncomingBlock entry.block, .dropConnection,
                    .addIpFail], false)

/-- The end of `handle_response_get_objects` once every requested block
came: the blocks go to the core, then the next request. -/
def handleRequestedBlocks (core : CoreAnswers)
    (blocks : List BlockCompleteEntry) (context : ConnectionContext) :
    ConnectionContext × List Action :=
  let handled :=
    if core.testDropDownload then handleBlocks core blocks else ([], true)
  if !handled.2 then (context, handled.1)
  else
    let requestedNext :=
      requestMissingObjects core.haveBlockAfter core.blockSyncSize true context
    (requestedNext.1, handled.1 ++ requestedNext.2)

/-- `handle_response_get_objects`. -/
def handleResponseGetObjects (format : BlockFormat) (core : CoreAnswers)
    (arg : ResponseGetObjects) (context : ConnectionContext) :
    ConnectionContext × List Action :=
  if arg.currentBlockchainHeight < context.lastResponseHeight
    then (context, [.dropConnection])
  else
    let context :=
      { context with remoteBlockchainHeight := arg.currentBlockchainHeight }
    match checkBlocks format core arg.blocks 0 context.requestedObjects with
    | .stopped requested => ({ context with requestedObjects := requested }, [])
    | .dropped requested =>
        ({ context with requestedObjects := requested }, [.dropConnection])
    | .idle =>
        ({ context with
           state := .idle, neededObjects := [], requestedObjects := ∅ }, [])
    | .passed requested =>
        -- not every requested block came
        if requested ≠ ∅
          then ({ context with requestedObjects := requested },
            [.dropConnection])
        else handleRequestedBlocks core arg.blocks
               { context with requestedObjects := requested }

/-- The handler a message goes to. -/
def handleMessage (format : BlockFormat) (core : CoreAnswers) :
    Message → ConnectionContext → ConnectionContext × List Action
  | .responseChainEntry arg,
      context => handleResponseChainEntry core arg context
  | .responseGetObjects arg,
      context => handleResponseGetObjects format core arg context

/-- Messages handled one after another on one connection, each with the
core's answers at its time: the last context and every action, in order. -/
def run (format : BlockFormat) :
    List (CoreAnswers × Message) → ConnectionContext →
      ConnectionContext × List Action
  | [], context => (context, [])
  | (core, message) :: rest, context =>
      ((run format rest (handleMessage format core message context).1).1,
        (handleMessage format core message context).2 ++
          (run format rest (handleMessage format core message context).1).2)

/-! ## An inconsistent chain entry -/

/-- A chain entry that starts at a known block and lists an unknown one, but
whose last height `start_height + |m_block_ids| - 1` is above `total_height`:
the connection is dropped, and the unknown block is requested on it all the
same. -/
theorem handleResponseChainEntry_requests_after_drop :
    let known : Hash := default
    let unknown : Hash := ⟨Vector.replicate 32 1⟩
    let core : CoreAnswers :=
      ⟨(· == known), (· == known), fun _ => false, fun _ => .accepted,
      10, false, true⟩
    let arg : ResponseChainEntry := ⟨10, 5, [known, unknown]⟩
    arg.totalHeight < arg.startHeight + UInt64.ofNat arg.blockIds.length - 1 ∧
      (handleResponseChainEntry core arg ⟨.synchronizing, [], ∅, 0, 0⟩).2 =
        [.dropConnection, .requestGetObjects [unknown]] := by
  decide

end CryptonoteProtocol
end Citicash
