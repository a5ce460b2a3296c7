import Citicash.Lib.StateRun
import Citicash.BlockchainDb.Lmdb

/-!
# The hard-fork state

`HardFork` keeps the forks it was configured with (`heights`, each a version,
the height it may start at, a vote threshold and a time), the effective
votes of the last `window_size` blocks (`versions`), their count per version
(`last_versions`) and the index of the fork in force (`current_fork_index`).
`add` accepts a block of the version in force whose vote is at least that
version, records the version in force in the store's `hf_versions` table at
the block's height, pushes its vote on the window and moves to the highest
fork whose votes reach their threshold.  `reorganize_from_block_height`
rebuilds the window from the stored blocks below a height and re-adds the
blocks above it; `init` restores the state from the stored blocks and
versions through `rescan_from_block_height`.

The store is reduced to what `HardFork` reads and writes: the blocks,
genesis first, and `hf_versions`.  Reads of a missing block or version throw
as the LMDB store does, leaving `HardFork` in the state it had reached.
-/

namespace Citicash
namespace CryptonoteCore

open Cryptonote StateRun BlockchainDb

/-- `HardFork::Params`. -/
structure ForkParams where
  version : UInt8
  threshold : UInt8
  height : Nat
  time : Int
  deriving DecidableEq, Repr, Inhabited

/-- What `HardFork` uses of `BlockchainDB`: the blocks, genesis first, and the
`hf_versions` table, keyed by height. -/
structure HardForkDb where
  blocks : List Block
  hfVersions : Nat → Option UInt8

namespace HardForkDb

def height (db : HardForkDb) : Nat := db.blocks.length

/-- `set_hard_fork_version(height, version)`: an append, or an overwrite of
the row at `height`. -/
def setHardForkVersion (db : HardForkDb) (height : Nat)
    (version : UInt8) : HardForkDb :=
  { db with hfVersions := Function.update db.hfVersions height (some version) }

@[simp] theorem setHardForkVersion_blocks (db : HardForkDb) (height : Nat)
    (version : UInt8) :
    (db.setHardForkVersion height version).blocks = db.blocks := rfl

@[simp] theorem setHardForkVersion_height (db : HardForkDb) (height : Nat)
    (version : UInt8) :
    (db.setHardForkVersion height version).height = db.height := rfl

@[simp] theorem setHardForkVersion_hfVersions_self (db : HardForkDb)
    (height : Nat) (version : UInt8) :
    (db.setHardForkVersion height version).hfVersions height = some version :=
  Function.update_self _ _ _

/-- Writing the version a row already holds changes nothing. -/
theorem setHardForkVersion_of_eq {db : HardForkDb} {height : Nat}
    {version : UInt8} (recorded : db.hfVersions height = some version) :
    db.setHardForkVersion height version = db := by
  unfold setHardForkVersion
  rw [← recorded, Function.update_eq_self]

end HardForkDb

/-- `HardFork`; `forked_time` and `update_time` only feed `get_state`. -/
@[ext] structure HardFork where
  windowSize : UInt64
  originalVersion : UInt8
  defaultThresholdPercent : UInt8
  heights : List ForkParams
  versions : List UInt8
  lastVersions : UInt8 → UInt32
  currentForkIndex : Nat

/-- The hard-fork object and the store it reads. -/
structure HardForkState where
  hf : HardFork
  db : HardForkDb

abbrev HardForkM := EStateM DbException HardForkState

/-! ## Configuration -/

/-- The constructor: a positive window and a threshold of at most 100. -/
def HardFork.new (originalVersion : UInt8) (windowSize : UInt64)
    (defaultThresholdPercent : UInt8) :
    Option HardFork :=
  if windowSize = 0 then none
  else if 100 < defaultThresholdPercent then none
  else some
    { windowSize := windowSize, originalVersion := originalVersion,
      defaultThresholdPercent := defaultThresholdPercent, heights :=
        [], versions := [],
      lastVersions := fun _ => 0, currentForkIndex := 0 }

/-- `add_fork(version, height, threshold, time)`: forks come in increasing
version, height and time, with a non-zero version and a threshold of at most
100. -/
def HardFork.addFork (hf : HardFork) (version : UInt8) (height : Nat)
    (threshold : UInt8) (time : Int) : Option HardFork :=
  if version = 0 then none
  else
    let outOfOrder : Bool := match hf.heights.getLast? with
      | some last => version ≤ last.version ∨ height ≤ last.height ∨
                       time ≤ last.time
      | none => false
    if outOfOrder then none
    else if 100 < threshold then none
    else some
           { hf with
             heights := hf.heights ++ [⟨version, threshold, height, time⟩] }

/-- A constructed object has a positive window and no votes yet. -/
theorem HardFork.new_eq_some {originalVersion : UInt8} {windowSize : UInt64}
    {defaultThresholdPercent : UInt8} {hf : HardFork}
    (built : HardFork.new originalVersion windowSize
      defaultThresholdPercent = some hf) :
    windowSize ≠ 0 ∧ hf.windowSize = windowSize ∧ hf.originalVersion =
      originalVersion ∧
      hf.heights = [] ∧ hf.versions = [] ∧ hf.currentForkIndex = 0 := by
  unfold HardFork.new at built
  split at built
  · cases built
  · rename_i positive
    split at built
    · cases built
    · cases built
      exact ⟨positive, rfl, rfl, rfl, rfl, rfl⟩

/-- `add_fork` appends a fork above the last one and changes nothing else. -/
theorem HardFork.addFork_eq_some {hf hf' : HardFork}
    {version : UInt8} {height : Nat} {threshold : UInt8} {time : Int}
    (added : hf.addFork version height threshold time = some hf') :
    hf' =
      { hf with
        heights := hf.heights ++ [⟨version, threshold, height, time⟩] } ∧
      ∀ last ∈ hf.heights.getLast?, last.version < version ∧
        last.height < height ∧ last.time < time := by
  unfold HardFork.addFork at added
  split at added
  · cases added
  · cases lastFork : hf.heights.getLast? with
    | none =>
        simp only [lastFork, Bool.false_eq_true, if_false] at added
        split at added
        · cases added
        · cases added
          exact ⟨rfl, fun last found => nomatch found⟩
    | some lastOne =>
        simp only [lastFork] at added
        split at added
        · cases added
        · rename_i inOrder
          split at added
          · cases added
          · cases added
            refine ⟨rfl, fun last found => ?_⟩
            cases found
            simpa only [decide_eq_true_eq, not_or, not_le,
              UInt8.not_le] using inOrder

/-! ## Votes and checks -/

/-- `get_block_vote`: a minor version of zero votes for version 1. -/
def getBlockVote (b : Block) : UInt8 :=
  if b.minorVersion = 0 then 1 else b.minorVersion

/-- `get_block_version`. -/
def getBlockVersion (b : Block) : UInt8 := b.majorVersion

/-- `heights[current_fork_index]`. -/
def HardFork.currentFork (hf : HardFork) : ForkParams :=
  hf.heights.getD hf.currentForkIndex default

/-- `get_effective_version`: a vote above the last fork counts for it. -/
def HardFork.getEffectiveVersion (hf : HardFork)
    (votingVersion : UInt8) : UInt8 :=
  match hf.heights.getLast? with
  | some last => if last.version < votingVersion then last.version
                   else votingVersion
  | none => votingVersion

/-- `do_check`. -/
def HardFork.doCheck (hf : HardFork)
    (blockVersion votingVersion : UInt8) : Bool :=
  blockVersion == hf.currentFork.version &&
    hf.currentFork.version ≤ votingVersion

/-- The loop of `get_voted_fork_index` over the indices above the fork in
force, highest first, accumulating the votes for each fork and those above
it. -/
def HardFork.votedForkIndexFrom (hf : HardFork) (height : Nat) :
    List Nat → UInt32 → Nat
  | [], _ => hf.currentForkIndex
  | n :: rest, accumulatedVotes =>
      let fork := hf.heights.getD n default
      let accumulatedVotes := accumulatedVotes + hf.lastVersions fork.version
      let threshold : UInt32 :=
        ((hf.windowSize * fork.threshold.toUInt64 + 99) / 100).toUInt32
      if fork.height ≤ height ∧ threshold ≤ accumulatedVotes then n
      else hf.votedForkIndexFrom height rest accumulatedVotes

/-- `get_voted_fork_index(height)`. -/
def HardFork.getVotedForkIndex (hf : HardFork) (height : Nat) : Nat :=
  hf.votedForkIndexFrom height
    (List.range' (hf.currentForkIndex + 1)
      (hf.heights.length - 1 - hf.currentForkIndex)).reverse 0

/-- `uint8_t voted = get_voted_fork_index(height); if (voted >
current_fork_index) current_fork_index = voted;` -/
def HardFork.applyVotes (hf : HardFork) (height : Nat) : HardFork :=
  let voted := hf.getVotedForkIndex height % 256
  if hf.currentForkIndex < voted
    then { hf with currentForkIndex := voted } else hf

/-- `versions.clear()` and `last_versions[n] = 0` for every `n`. -/
def HardFork.clearVotes (hf : HardFork) : HardFork :=
  { hf with versions := [], lastVersions := fun _ => 0 }

/-- `last_versions[v]++; versions.push_back(v);` -/
def HardFork.pushVote (hf : HardFork) (v : UInt8) : HardFork :=
  { hf with
    versions := hf.versions ++ [v]
    lastVersions := Function.update hf.lastVersions v (hf.lastVersions v + 1) }

/-- The loop `while (versions.size() >= window_size)` of `add`, dropping the
oldest vote and its count. -/
def trimVotes (windowSize : UInt64) : List UInt8 → (UInt8 → UInt32) →
    List UInt8 × (UInt8 → UInt32)
  | [], lastVersions => ([], lastVersions)
  | old :: rest, lastVersions =>
      if windowSize.toNat ≤ (old :: rest).length then
        trimVotes windowSize rest
          (Function.update lastVersions old (lastVersions old - 1))
      else (old :: rest, lastVersions)

def HardFork.trimWindow (hf : HardFork) : HardFork :=
  let trimmed := trimVotes hf.windowSize hf.versions hf.lastVersions
  { hf with versions := trimmed.1, lastVersions := trimmed.2 }

/-- The loop of `reorganize_from_block_height` that steps the fork index
down past the forks above the version recorded at the height. -/
def lowerForkIndex (heights : List ForkParams)
    (startVersion : UInt8) : Nat → Nat
  | 0 => 0
  | n + 1 =>
      if startVersion < (heights.getD (n + 1) default).version then
        lowerForkIndex heights startVersion n
      else n + 1

/-- The loop of `rescan_from_block_height` that finds the fork of the version
recorded at the top block, stopping at the last fork. -/
def scanForkIndex (lastVersion : UInt8) : List ForkParams → Nat
  | [] => 0
  | [_] => 0
  | fork :: rest =>
      if fork.version = lastVersion then 0
        else scanForkIndex lastVersion rest + 1

/-! ## Reads of the store -/

def modifyHardFork (f : HardFork → HardFork) : HardForkM Unit :=
  modify fun s => { s with hf := f s.hf }

/-- `db.get_block_from_height(height)`. -/
def getBlockFromHeight (height : Nat) : HardForkM Block := do
  let s ← get
  match s.db.blocks[height]? with
  | some b => pure b
  | none => throw .blockDne

/-- `db.get_hard_fork_version(height)`. -/
def getHardForkVersion (height : Nat) : HardForkM UInt8 := do
  let s ← get
  match s.db.hfVersions height with
  | some version => pure version
  | none => throw .dbError

/-! ## The operations -/

/-- `add(block_version, voting_version, height)`. -/
def add (blockVersion votingVersion : UInt8) (height : Nat) :
    HardForkM Bool := do
  let s ← get
  if !s.hf.doCheck blockVersion votingVersion then pure false
  else
    modify fun s =>
      { s with db := s.db.setHardForkVersion height s.hf.currentFork.version }
    modifyHardFork fun hf =>
      (hf.trimWindow.pushVote (hf.getEffectiveVersion votingVersion)).applyVotes
      (height + 1)
    pure true

/-- `add(block, height)`. -/
def HardFork.addBlock (b : Block) (height : Nat) : HardForkM Bool :=
  add (getBlockVersion b) (getBlockVote b) height

/-- What `BlockchainDB::add_block` does with `HardFork`: the block is
stored, then handed to `add` at the height it was stored at. -/
def storeBlock (b : Block) : HardForkM Bool := do
  let s ← get
  modify fun s => { s with db := { s.db with blocks := s.db.blocks ++ [b] } }
  HardFork.addBlock b s.db.height

/-- The votes of the stored blocks at `heights`, pushed in order. -/
def pushStoredVotes (heights : List Nat) : HardForkM Unit :=
  heights.forM fun h => do
    let b ← getBlockFromHeight h
    modifyHardFork fun hf =>
      hf.pushVote (hf.getEffectiveVersion (getBlockVote b))

/-- `reorganize_from_block_height(height)`. -/
def reorganizeFromBlockHeight (height : Nat) : HardForkM Bool := do
  let s ← get
  if s.db.height ≤ height then pure false
  else
    modifyHardFork HardFork.clearVotes
    let rescanHeight :=
      if s.hf.windowSize.toNat - 1 ≤ height
        then height - (s.hf.windowSize.toNat - 1) else 0
    let startVersion ←
      (if height = 0 then pure s.hf.originalVersion
         else getHardForkVersion height : HardForkM UInt8)
    modifyHardFork fun hf =>
      { hf with
        currentForkIndex :=
          lowerForkIndex hf.heights startVersion hf.currentForkIndex }
    pushStoredVotes (List.range' rescanHeight (height + 1 - rescanHeight))
    modifyHardFork fun hf => hf.applyVotes (height + 1)
    let bcHeight := (← get).db.height
    (List.range' (height + 1) (bcHeight - (height + 1))).forM fun h => do
      let b ← getBlockFromHeight h
      discard (HardFork.addBlock b h)
    pure true

/-- `reorganize_from_chain_height(height)`. -/
def reorganizeFromChainHeight (height : Nat) : HardForkM Bool :=
  if height = 0 then pure false else reorganizeFromBlockHeight (height - 1)

/-- `rescan_from_block_height(height)`. -/
def rescanFromBlockHeight (height : Nat) : HardForkM Bool := do
  let s ← get
  if s.db.height ≤ height then pure false
  else
    modifyHardFork HardFork.clearVotes
    pushStoredVotes (List.range' height (s.db.height - height))
    let lastVersion ← getHardForkVersion (s.db.height - 1)
    modifyHardFork fun hf =>
      { hf with currentForkIndex := scanForkIndex lastVersion hf.heights }
    modifyHardFork fun hf => hf.applyVotes s.db.height
    pure true

/-- `rescan_from_chain_height(height)`. -/
def rescanFromChainHeight (height : Nat) : HardForkM Bool :=
  if height = 0 then pure false else rescanFromBlockHeight (height - 1)

theorem rescanFromChainHeight_of_ne {height : Nat} (above : height ≠ 0) :
    rescanFromChainHeight height = rescanFromBlockHeight
      (height - 1) := if_neg above

/-- `init()`: a placeholder fork for the original version when none was
added, then the state restored from the store, or rebuilt from the genesis
block when the store has no hard-fork versions. -/
def init : HardForkM Unit := do
  modifyHardFork fun hf =>
    if hf.heights = []
      then { hf with heights := [⟨hf.originalVersion, 0, 0, 0⟩] } else hf
  modifyHardFork fun hf => { hf.clearVotes with currentForkIndex := 0 }
  let s ← get
  let height :=
    if s.hf.windowSize.toNat < s.db.height
      then s.db.height - (s.hf.windowSize.toNat - 1) else 1
  let populate ← tryCatch (do let _ ← getHardForkVersion 0; pure false)
      fun _ => pure true
  if populate then
    discard (reorganizeFromChainHeight 1)
    modify fun s =>
      { s with db := s.db.setHardForkVersion 0 s.hf.originalVersion }
  else
    discard (rescanFromChainHeight height)

/-- `get_current_version()`. -/
def HardFork.getCurrentVersion (hf : HardFork) : UInt8 := hf.currentFork.version

/-- `get(height)`: the version in force at the store's height, the recorded
version below it, and 255 (after a failed assertion) above it. -/
def getVersion (height : Nat) : HardForkM UInt8 := do
  let s ← get
  if s.db.height < height then pure 255
  else if height = s.db.height then pure s.hf.getCurrentVersion
  else getHardForkVersion height

/-! ## Runs of the operations

One equation per operation, for the runs on a store that has the blocks and
versions they read; callers use these and never unfold the operations.
-/

@[simp] theorem modifyHardFork_apply (f : HardFork → HardFork)
    (s : HardForkState) :
    modifyHardFork f s = .ok () { s with hf := f s.hf } := rfl

section Updates

variable (hf : HardFork)

@[simp] theorem pushVote_versions (v : UInt8) :
    (hf.pushVote v).versions = hf.versions ++ [v] := rfl
@[simp] theorem pushVote_originalVersion (v : UInt8) :
    (hf.pushVote v).originalVersion = hf.originalVersion := rfl
@[simp] theorem pushVote_defaultThresholdPercent (v : UInt8) :
    (hf.pushVote v).defaultThresholdPercent = hf.defaultThresholdPercent := rfl
@[simp] theorem pushVote_heights (v : UInt8) :
    (hf.pushVote v).heights = hf.heights := rfl
@[simp] theorem pushVote_windowSize (v : UInt8) :
    (hf.pushVote v).windowSize = hf.windowSize := rfl
@[simp] theorem pushVote_currentForkIndex (v : UInt8) :
    (hf.pushVote v).currentForkIndex = hf.currentForkIndex := rfl

@[simp] theorem clearVotes_versions : hf.clearVotes.versions = [] := rfl
@[simp] theorem clearVotes_lastVersions :
    hf.clearVotes.lastVersions = fun _ => 0 := rfl
@[simp] theorem clearVotes_heights : hf.clearVotes.heights = hf.heights := rfl
@[simp] theorem clearVotes_windowSize :
    hf.clearVotes.windowSize = hf.windowSize := rfl
@[simp] theorem clearVotes_currentForkIndex :
    hf.clearVotes.currentForkIndex = hf.currentForkIndex := rfl
@[simp] theorem clearVotes_originalVersion :
    hf.clearVotes.originalVersion = hf.originalVersion := rfl
@[simp] theorem clearVotes_defaultThresholdPercent :
    hf.clearVotes.defaultThresholdPercent = hf.defaultThresholdPercent := rfl

@[simp] theorem trimWindow_heights : hf.trimWindow.heights = hf.heights := rfl
@[simp] theorem trimWindow_windowSize :
    hf.trimWindow.windowSize = hf.windowSize := rfl
@[simp] theorem trimWindow_currentForkIndex :
    hf.trimWindow.currentForkIndex = hf.currentForkIndex := rfl
@[simp] theorem trimWindow_originalVersion :
    hf.trimWindow.originalVersion = hf.originalVersion := rfl
@[simp] theorem trimWindow_defaultThresholdPercent :
    hf.trimWindow.defaultThresholdPercent = hf.defaultThresholdPercent := rfl

theorem applyVotes_eq (height : Nat) :
    hf.applyVotes height =
      { hf with
        currentForkIndex :=
          max hf.currentForkIndex (hf.getVotedForkIndex height % 256) } := by
  unfold HardFork.applyVotes
  dsimp only
  split
  · rename_i raised
    rw [Nat.max_eq_right raised.le]
  · rename_i kept
    rw [Nat.max_eq_left (Nat.le_of_not_lt kept)]

@[simp] theorem applyVotes_versions (height : Nat) :
    (hf.applyVotes height).versions = hf.versions := by
  rw [applyVotes_eq]
@[simp] theorem applyVotes_lastVersions (height : Nat) :
    (hf.applyVotes height).lastVersions = hf.lastVersions := by
  rw [applyVotes_eq]
@[simp] theorem applyVotes_heights (height : Nat) :
    (hf.applyVotes height).heights = hf.heights := by
  rw [applyVotes_eq]
@[simp] theorem applyVotes_windowSize (height : Nat) :
    (hf.applyVotes height).windowSize = hf.windowSize := by
  rw [applyVotes_eq]
@[simp] theorem applyVotes_originalVersion (height : Nat) :
    (hf.applyVotes height).originalVersion = hf.originalVersion := by
  rw [applyVotes_eq]
@[simp] theorem applyVotes_defaultThresholdPercent (height : Nat) :
    (hf.applyVotes height).defaultThresholdPercent =
      hf.defaultThresholdPercent := by
  rw [applyVotes_eq]

end Updates

/-- The vote `reorganize_from_block_height` and `rescan_from_block_height`
count for the stored block at `height`. -/
def HardFork.storedVote (hf : HardFork) (db : HardForkDb)
    (height : Nat) : UInt8 :=
  hf.getEffectiveVersion (getBlockVote (db.blocks.getD height default))

/-- Votes pushed one after another. -/
def HardFork.pushVotes (hf : HardFork) (votes : List UInt8) : HardFork :=
  votes.foldl HardFork.pushVote hf

section PushVotes

theorem HardFork.pushVotes_cons (hf : HardFork) (v : UInt8)
    (votes : List UInt8) :
    hf.pushVotes (v :: votes) = (hf.pushVote v).pushVotes votes := rfl

-- every field but the window and its counters is the one before the votes
@[simp] theorem HardFork.pushVotes_versions (votes : List UInt8) :
    ∀ hf : HardFork, (hf.pushVotes votes).versions = hf.versions ++ votes := by
  induction votes with
  | nil => intro hf; exact (List.append_nil _).symm
  | cons v rest ih =>
      intro hf
      rw [HardFork.pushVotes_cons, ih, pushVote_versions, List.append_assoc,
        List.singleton_append]

@[simp] theorem HardFork.pushVotes_heights (votes : List UInt8) :
    ∀ hf : HardFork, (hf.pushVotes votes).heights = hf.heights := by
  induction votes with
  | nil => intro hf; rfl
  | cons v rest ih =>
      intro hf; rw [HardFork.pushVotes_cons, ih, pushVote_heights]

@[simp] theorem HardFork.pushVotes_windowSize (votes : List UInt8) :
    ∀ hf : HardFork, (hf.pushVotes votes).windowSize = hf.windowSize := by
  induction votes with
  | nil => intro hf; rfl
  | cons v rest ih =>
      intro hf; rw [HardFork.pushVotes_cons, ih, pushVote_windowSize]

@[simp] theorem HardFork.pushVotes_originalVersion (votes : List UInt8) :
    ∀ hf : HardFork, (hf.pushVotes votes).originalVersion =
      hf.originalVersion := by
  induction votes with
  | nil => intro hf; rfl
  | cons v rest ih =>
      intro hf; rw [HardFork.pushVotes_cons, ih, pushVote_originalVersion]

@[simp] theorem HardFork.pushVotes_defaultThresholdPercent
    (votes : List UInt8) :
    ∀ hf : HardFork, (hf.pushVotes votes).defaultThresholdPercent =
      hf.defaultThresholdPercent := by
  induction votes with
  | nil => intro hf; rfl
  | cons v rest ih =>
      intro hf;
        rw [HardFork.pushVotes_cons, ih, pushVote_defaultThresholdPercent]

@[simp] theorem HardFork.pushVotes_currentForkIndex (votes : List UInt8) :
    ∀ hf : HardFork, (hf.pushVotes votes).currentForkIndex =
      hf.currentForkIndex := by
  induction votes with
  | nil => intro hf; rfl
  | cons v rest ih =>
      intro hf; rw [HardFork.pushVotes_cons, ih, pushVote_currentForkIndex]

end PushVotes

theorem getBlockFromHeight_of_lt {s : HardForkState} {height : Nat}
    (stored : height < s.db.height) :
    getBlockFromHeight height s = .ok (s.db.blocks.getD height default) s := by
  have found : s.db.blocks[height]? =
      some (s.db.blocks.getD height default) := by
    rw [List.getD_eq_getElem?_getD, List.getElem?_eq_getElem stored,
      Option.getD_some]
  simp only [getBlockFromHeight, get_bind_apply, found]
  rfl

theorem getHardForkVersion_of_some {db : HardForkDb} {height : Nat}
    {version : UInt8} (found : db.hfVersions height = some version)
    (hf : HardFork) :
    getHardForkVersion height ⟨hf, db⟩ = .ok version ⟨hf, db⟩ := by
  simp only [getHardForkVersion, get_bind_apply, found]
  rfl

theorem getHardForkVersion_of_none {db : HardForkDb} {height : Nat}
    (missing : db.hfVersions height = none) (hf : HardFork) :
    getHardForkVersion height ⟨hf, db⟩ = .error .dbError ⟨hf, db⟩ := by
  simp only [getHardForkVersion, get_bind_apply, missing]
  rfl

theorem getVersion_of_lt {s : HardForkState} {height : Nat} {version : UInt8}
    (below : height < s.db.height)
    (found : s.db.hfVersions height = some version) :
    getVersion height s = .ok version s := by
  rw [getVersion, get_bind_apply, if_neg (Nat.not_lt_of_gt below),
    if_neg (Nat.ne_of_lt below)]
  exact getHardForkVersion_of_some found _

theorem getVersion_top {s : HardForkState} {height : Nat}
    (top : s.db.height = height) :
    getVersion height s = .ok s.hf.getCurrentVersion s := by
  subst top
  rw [getVersion, get_bind_apply, if_neg (Nat.lt_irrefl _), if_pos rfl]
  rfl

theorem getVersion_of_gt {s : HardForkState} {height : Nat}
    (above : s.db.height < height) :
    getVersion height s = .ok 255 s := by
  rw [getVersion, get_bind_apply, if_pos above]
  rfl

theorem pushStoredVotes_run {heights : List Nat} {db : HardForkDb}
    (stored : ∀ h ∈ heights, h < db.height) (hf : HardFork) :
    pushStoredVotes heights ⟨hf, db⟩ =
      .ok () ⟨hf.pushVotes (heights.map (hf.storedVote db)), db⟩ := by
  induction heights generalizing hf with
  | nil => rfl
  | cons h rest ih =>
      have first :=
        getBlockFromHeight_of_lt (s := ⟨hf, db⟩)
          (stored h (List.mem_cons_self ..))
      unfold pushStoredVotes
      rw [forM_cons_apply, bind_apply, bind_of_ok first]
      simp only [modifyHardFork_apply]
      exact ih (fun h' mem => stored h' (List.mem_cons_of_mem _ mem)) _

/-- What `add` does: a block that passes `do_check` records the version in
force at its height and votes; any other leaves everything as it was. -/
def addStep (blockVersion votingVersion : UInt8) (height : Nat)
    (s : HardForkState) :
    Bool × HardForkState :=
  if s.hf.doCheck blockVersion votingVersion then
    let voted :=
      s.hf.trimWindow.pushVote (s.hf.getEffectiveVersion votingVersion)
    (true, ⟨voted.applyVotes (height + 1),
      s.db.setHardForkVersion height s.hf.currentFork.version⟩)
  else (false, s)

theorem add_apply (blockVersion votingVersion : UInt8) (height : Nat)
    (s : HardForkState) :
    add blockVersion votingVersion height s =
      .ok (addStep blockVersion votingVersion height s).1
        (addStep blockVersion votingVersion height s).2 := by
  rw [add, addStep, get_bind_apply]
  by_cases passes : s.hf.doCheck blockVersion votingVersion = true
  · rw [if_neg (by simp [passes]), if_pos passes]
    rfl
  · rw [if_pos (by simp [passes]), if_neg passes]
    rfl

-- what `add` answers, and what it makes of the object and of the store
theorem addStep_fst (blockVersion votingVersion : UInt8) (height : Nat)
    (s : HardForkState) :
    (addStep blockVersion votingVersion height s).1 = s.hf.doCheck blockVersion
      votingVersion := by
  unfold addStep
  split
  · rename_i passes
    exact passes.symm
  · rename_i refused
    exact (Bool.eq_false_iff.mpr refused).symm

theorem addStep_hf (blockVersion votingVersion : UInt8) (height : Nat)
    (s : HardForkState) :
    (addStep blockVersion votingVersion height s).2.hf =
      if s.hf.doCheck blockVersion votingVersion then
        (s.hf.trimWindow.pushVote
          (s.hf.getEffectiveVersion votingVersion)).applyVotes (height + 1)
      else s.hf := by
  unfold addStep
  split <;> rfl

theorem addStep_db (blockVersion votingVersion : UInt8) (height : Nat)
    (s : HardForkState) :
    (addStep blockVersion votingVersion height s).2.db =
      if s.hf.doCheck blockVersion votingVersion then
        s.db.setHardForkVersion height s.hf.currentFork.version
      else s.db := by
  unfold addStep
  split <;> rfl

theorem addStep_of_passes {blockVersion votingVersion : UInt8} {height : Nat}
    {s : HardForkState}
    (passes : s.hf.doCheck blockVersion votingVersion = true) :
    addStep blockVersion votingVersion height s =
      (true,
        ⟨(s.hf.trimWindow.pushVote
          (s.hf.getEffectiveVersion votingVersion)).applyVotes (height + 1),
            s.db.setHardForkVersion height s.hf.currentFork.version⟩) := by
  unfold addStep
  rw [if_pos passes]

@[simp] theorem addStep_blocks
    (blockVersion votingVersion : UInt8) (height : Nat)
    (s : HardForkState) :
    (addStep blockVersion votingVersion height s).2.db.blocks =
      s.db.blocks := by
  unfold addStep
  split <;> rfl

/-- The blocks above the height `reorganize_from_block_height` rebuilds at,
handed to `add` again. -/
def readdBlocks (heights : List Nat) (s : HardForkState) : HardForkState :=
  heights.foldl
    (fun s h =>
      (addStep (getBlockVersion (s.db.blocks.getD h default))
        (getBlockVote (s.db.blocks.getD h default)) h s).2) s

theorem readdBlocks_cons (h : Nat) (rest : List Nat) (s : HardForkState) :
    readdBlocks (h :: rest) s =
      readdBlocks rest (addStep (getBlockVersion (s.db.blocks.getD h default))
        (getBlockVote (s.db.blocks.getD h default)) h s).2 := rfl

theorem readdBlocks_run {heights : List Nat} {db : HardForkDb}
    (stored : ∀ h ∈ heights, h < db.height) (hf : HardFork) :
    (heights.forM fun h => do
      let b ← getBlockFromHeight h
      discard (HardFork.addBlock b h) : HardForkM Unit) ⟨hf, db⟩ =
        .ok () (readdBlocks heights ⟨hf, db⟩) := by
  induction heights generalizing hf db with
  | nil => rfl
  | cons h rest ih =>
      have first :=
        getBlockFromHeight_of_lt (s := ⟨hf, db⟩)
          (stored h (List.mem_cons_self ..))
      -- the block read is handed to `add`, which never throws
      have step : (do
          let b ← getBlockFromHeight h
          discard (HardFork.addBlock b h) : HardForkM Unit) ⟨hf, db⟩ =
          .ok () (addStep (getBlockVersion (db.blocks.getD h default))
            (getBlockVote (db.blocks.getD h default)) h ⟨hf, db⟩).2 := by
        rw [bind_of_ok first]
        exact discard_of_ok (add_apply _ _ _ _)
      rw [forM_cons_apply, bind_of_ok step]
      have stillStored : ∀ h' ∈ rest,
          h' < (addStep (getBlockVersion (db.blocks.getD h default))
          (getBlockVote (db.blocks.getD h default)) h
            ⟨hf, db⟩).2.db.height := by
        intro h' mem
        simp only [HardForkDb.height, addStep_blocks]
        exact stored h' (List.mem_cons_of_mem _ mem)
      exact ih stillStored _

/-- The height `reorganize_from_block_height(height)` counts votes from:
the last `window_size` blocks up to `height`. -/
def rescanHeightBelow (windowSize : UInt64) (height : Nat) : Nat :=
  if windowSize.toNat - 1 ≤ height then height - (windowSize.toNat - 1) else 0

/-- The state `reorganize_from_block_height(height)` rebuilds before it
re-adds the blocks above `height`: the fork index stepped down to the
version recorded at `height`, the votes of the window up to `height`, and
the forks they vote in. -/
def HardFork.rebuiltAt (hf : HardFork) (db : HardForkDb) (height : Nat)
    (startVersion : UInt8) :
    HardFork :=
  let lowered :=
    { hf.clearVotes with
      currentForkIndex :=
        lowerForkIndex hf.heights startVersion hf.currentForkIndex }
  let rescanHeight := rescanHeightBelow hf.windowSize height
  (lowered.pushVotes ((List.range' rescanHeight (height + 1 - rescanHeight)).map
    (lowered.storedVote db))).applyVotes (height + 1)

/-- The version `reorganize_from_block_height(height)` steps the fork index
down to: the original version at the genesis block, the recorded one above. -/
def startVersionAt (hf : HardFork) (db : HardForkDb)
    (height : Nat) : Option UInt8 :=
  if height = 0 then some hf.originalVersion else db.hfVersions height

theorem reorganizeFromBlockHeight_of_le {s : HardForkState} {height : Nat}
    (above : s.db.height ≤ height) :
    reorganizeFromBlockHeight height s = .ok false s := by
  rw [reorganizeFromBlockHeight, get_bind_apply, if_pos above]
  rfl

theorem reorganizeFromBlockHeight_run {s : HardForkState} {height : Nat}
    {startVersion : UInt8} (below : height < s.db.height)
    (start : startVersionAt s.hf s.db height = some startVersion) :
    reorganizeFromBlockHeight height s =
      .ok true
        (readdBlocks (List.range' (height + 1) (s.db.height - (height + 1)))
          ⟨s.hf.rebuiltAt s.db height startVersion, s.db⟩) := by
  have started :
      (if height = 0 then pure s.hf.originalVersion
         else getHardForkVersion height :
      HardForkM UInt8) { s with hf := s.hf.clearVotes } =
      .ok startVersion { s with hf := s.hf.clearVotes } := by
    unfold startVersionAt at start
    split
    · rename_i genesis
      rw [if_pos genesis, Option.some.injEq] at start
      rw [start]
      rfl
    · rename_i above
      rw [if_neg above] at start
      exact getHardForkVersion_of_some start _
  have stored : ∀ h ∈ List.range' (rescanHeightBelow s.hf.windowSize height)
      (height + 1 - rescanHeightBelow s.hf.windowSize height),
        h < s.db.height := by
    intro h mem
    rw [List.mem_range'_1] at mem
    unfold rescanHeightBelow at mem
    split at mem <;> omega
  have readded : ∀ h ∈ List.range' (height + 1) (s.db.height - (height + 1)),
      h < s.db.height := by
    intro h mem
    rw [List.mem_range'_1] at mem
    omega
  rw [reorganizeFromBlockHeight, get_bind_apply,
    if_neg (Nat.not_le_of_lt below), bind_apply, modifyHardFork_apply]
  dsimp only
  rw [bind_of_ok started, bind_apply, modifyHardFork_apply]
  dsimp only
  unfold rescanHeightBelow at stored
  rw [bind_of_ok (pushStoredVotes_run stored _), bind_apply,
    modifyHardFork_apply]
  dsimp only
  rw [get_bind_apply, bind_of_ok (readdBlocks_run readded _)]
  rfl

theorem reorganizeFromBlockHeight_of_missing {s : HardForkState} {height : Nat}
    (below : height < s.db.height)
    (missing : startVersionAt s.hf s.db height = none) :
    reorganizeFromBlockHeight height s =
      .error .dbError { s with hf := s.hf.clearVotes } := by
  unfold startVersionAt at missing
  have above : height ≠ 0 := by
    intro genesis
    rw [if_pos genesis] at missing
    cases missing
  rw [if_neg above] at missing
  rw [reorganizeFromBlockHeight, get_bind_apply,
    if_neg (Nat.not_le_of_lt below), bind_apply, modifyHardFork_apply]
  dsimp only
  rw [if_neg above, bind_apply,
    getHardForkVersion_of_none missing _]

/-- The state `rescan_from_block_height(height)` restores: the votes of the
blocks from `height` up, the fork of the version recorded at the top block,
and the forks the votes carry it to. -/
def HardFork.rescannedFrom (hf : HardFork) (db : HardForkDb) (height : Nat)
    (lastVersion : UInt8) :
    HardFork :=
  let counted :=
    hf.clearVotes.pushVotes ((List.range' height (db.height - height)).map
    (hf.clearVotes.storedVote db))
  { counted with
    currentForkIndex :=
      scanForkIndex lastVersion counted.heights }.applyVotes db.height

theorem rescanFromBlockHeight_of_le {s : HardForkState} {height : Nat}
    (above : s.db.height ≤ height) :
    rescanFromBlockHeight height s = .ok false s := by
  rw [rescanFromBlockHeight, get_bind_apply, if_pos above]
  rfl

theorem rescanFromBlockHeight_votes {s : HardForkState} {height : Nat}
    (below : height < s.db.height) :
    (do
      modifyHardFork HardFork.clearVotes
      pushStoredVotes (List.range' height (s.db.height - height)) :
        HardForkM Unit) s =
      .ok ()
        { s with
          hf := s.hf.clearVotes.pushVotes
            ((List.range' height (s.db.height - height)).map
              (s.hf.clearVotes.storedVote s.db)) } := by
  have stored : ∀ h ∈ List.range' height (s.db.height - height),
      h < s.db.height := by
    intro h mem
    rw [List.mem_range'_1] at mem
    omega
  rw [bind_apply, modifyHardFork_apply]
  exact pushStoredVotes_run stored _

theorem rescanFromBlockHeight_run {s : HardForkState} {height : Nat}
    {lastVersion : UInt8} (below : height < s.db.height)
    (top : s.db.hfVersions (s.db.height - 1) = some lastVersion) :
    rescanFromBlockHeight height s =
      .ok true ⟨s.hf.rescannedFrom s.db height lastVersion, s.db⟩ := by
  rw [rescanFromBlockHeight, get_bind_apply,
    if_neg (Nat.not_le_of_lt below), ← bind_assoc,
    bind_of_ok (rescanFromBlockHeight_votes below),
    bind_of_ok (getHardForkVersion_of_some top _)]
  rfl

theorem rescanFromBlockHeight_of_missing {s : HardForkState} {height : Nat}
    (below : height < s.db.height)
    (missing : s.db.hfVersions (s.db.height - 1) = none) :
    rescanFromBlockHeight height s =
      .error .dbError ⟨s.hf.clearVotes.pushVotes
        ((List.range' height (s.db.height - height)).map
          (s.hf.clearVotes.storedVote s.db)), s.db⟩ := by
  rw [rescanFromBlockHeight, get_bind_apply,
    if_neg (Nat.not_le_of_lt below), ← bind_assoc,
    bind_of_ok (rescanFromBlockHeight_votes below), bind_apply,
    getHardForkVersion_of_none missing _]

/-- What `init` makes of the object before it reads the store: the
placeholder fork when none was added, an empty window and the first fork
in force. -/
def HardFork.reset (hf : HardFork) : HardFork :=
  let placed :=
    if hf.heights = []
      then { hf with heights := [⟨hf.originalVersion, 0, 0, 0⟩] } else hf
  { placed.clearVotes with currentForkIndex := 0 }

@[simp] theorem HardFork.reset_windowSize (hf : HardFork) :
    hf.reset.windowSize = hf.windowSize := by
  unfold HardFork.reset
  split <;> rfl

theorem HardFork.reset_heights (hf : HardFork) :
    hf.reset.heights = if hf.heights =
      [] then [⟨hf.originalVersion, 0, 0, 0⟩] else hf.heights := by
  unfold HardFork.reset
  split <;> rfl

@[simp] theorem HardFork.reset_versions (hf : HardFork) :
    hf.reset.versions = [] := by
  unfold HardFork.reset
  split <;> rfl

@[simp] theorem HardFork.reset_currentForkIndex (hf : HardFork) :
    hf.reset.currentForkIndex = 0 := by
  unfold HardFork.reset
  split <;> rfl

@[simp] theorem HardFork.reset_lastVersions (hf : HardFork) :
    hf.reset.lastVersions = fun _ => 0 := by
  unfold HardFork.reset
  split <;> rfl

@[simp] theorem HardFork.reset_defaultThresholdPercent (hf : HardFork) :
    hf.reset.defaultThresholdPercent = hf.defaultThresholdPercent := by
  unfold HardFork.reset
  split <;> rfl

theorem HardFork.reset_heights_ne_nil (hf : HardFork) :
    hf.reset.heights ≠ [] := by
  rw [HardFork.reset_heights]
  split
  · exact List.cons_ne_nil _ _
  · assumption

@[simp] theorem HardFork.reset_originalVersion (hf : HardFork) :
    hf.reset.originalVersion = hf.originalVersion := by
  unfold HardFork.reset
  split <;> rfl

/-- The chain height `init` rescans from: the last `window_size` blocks. -/
def initRescanHeight (windowSize : UInt64) (height : Nat) : Nat :=
  if windowSize.toNat < height then height - (windowSize.toNat - 1) else 1

theorem initRescanHeight_ne_zero (windowSize : UInt64) (height : Nat) :
    initRescanHeight windowSize height ≠ 0 := by
  unfold initRescanHeight
  split <;> omega

/-- `init` rebuilds from the genesis block when the store has no version at
height 0, and rescans the last window otherwise. -/
theorem init_apply (s : HardForkState) :
    init s =
      (if s.db.hfVersions 0 = none then
        (do
          discard (reorganizeFromBlockHeight 0)
          modify fun s =>
            { s with db := s.db.setHardForkVersion 0 s.hf.originalVersion } :
          HardForkM Unit)
      else discard
             (rescanFromBlockHeight
               (initRescanHeight s.hf.reset.windowSize s.db.height - 1)))
        ⟨s.hf.reset, s.db⟩ := by
  rw [init, bind_apply, modifyHardFork_apply]
  dsimp only
  rw [bind_apply, modifyHardFork_apply]
  dsimp only
  rw [get_bind_apply, bind_apply, tryCatch_apply, bind_apply]
  cases stored : s.db.hfVersions 0 with
  | none =>
      -- the missing version is caught: the store is populated from the genesis
      -- block
      rw [getHardForkVersion_of_none stored]
      rfl
  | some version =>
      rw [getHardForkVersion_of_some stored, rescanFromChainHeight_of_ne]
      · rfl
      · exact initRescanHeight_ne_zero _ _

/-! ## The calls of the blockchain -/

/-- How the object the blockchain uses comes to be: the constructor, then
`add_fork` for each fork of the network. -/
inductive HardForkConfigured : HardFork → Prop
  | new {originalVersion : UInt8} {windowSize : UInt64}
    {defaultThresholdPercent : UInt8}
      {hf : HardFork} :
      HardFork.new originalVersion windowSize defaultThresholdPercent =
        some hf → HardForkConfigured hf
  | addFork {hf hf' : HardFork} {version : UInt8} {height : Nat}
    {threshold : UInt8} {time : Int} :
      HardForkConfigured hf →
        hf.addFork version height threshold time = some hf' →
        HardForkConfigured hf'

/-- `hard_forks`: the forks of the main network. -/
def hardForks : List ForkParams :=
  [⟨1, 0, 1, 1482806500⟩, ⟨2, 0, 49100, 1534766400⟩, ⟨3, 0, 234739, 1546266600⟩,
    ⟨4, 0, 280000, 1548248400⟩]

/-- `testnet_hard_forks`. -/
def testnetHardForks : List ForkParams := [⟨1, 0, 1, 1482806500⟩]

/-- The object `Blockchain::init` builds: `new HardFork(*db, 1)` with the
default window of 10080 blocks and threshold of 80%, then `add_fork` for each
fork of the network, whose refusal it ignores. -/
def blockchainHardFork (testnet : Bool) : Option HardFork :=
  (HardFork.new 1 10080 80).map fun hf =>
    (if testnet then testnetHardForks else hardForks).foldl
      (fun hf fork =>
        (hf.addFork fork.version fork.height fork.threshold fork.time).getD hf)
      hf

theorem configured_foldl_addFork (forks : List ForkParams) :
    ∀ {hf : HardFork}, HardForkConfigured hf → HardForkConfigured (forks.foldl
      (fun hf fork =>
        (hf.addFork fork.version fork.height fork.threshold fork.time).getD hf)
          hf) := by
  induction forks with
  | nil => exact fun configured => configured
  | cons fork rest ih =>
      intro hf configured
      apply ih
      dsimp only
      -- a refused fork leaves the object as it was
      cases added :
        hf.addFork fork.version fork.height fork.threshold fork.time with
      | none => exact configured
      | some hf' => exact .addFork configured added

theorem blockchainHardFork_configured {testnet : Bool} {hf : HardFork}
    (built : blockchainHardFork testnet = some hf) : HardForkConfigured hf := by
  unfold blockchainHardFork at built
  cases constructed : HardFork.new 1 10080 80 with
  | none =>
      rw [constructed] at built
      cases built
  | some base =>
      rw [constructed, Option.map_some, Option.some.injEq] at built
      rw [← built]
      exact configured_foldl_addFork _ (.new constructed)

/-- The calls the blockchain makes once the object is configured: `init`,
`add` of a block, the two reorganisations, and any change of the store
between them (blocks stored or popped, versions written). -/
inductive HardForkCall
  | init
  | add (blockVersion votingVersion : UInt8) (height : Nat)
  | reorganizeFromBlockHeight (height : Nat)
  | reorganizeFromChainHeight (height : Nat)
  | storeChanged (db : HardForkDb)

/-- The state a call leaves, whether it returned or threw. -/
def HardForkCall.run : HardForkCall → HardForkState → HardForkState
  | .init, s => finalState (CryptonoteCore.init s)
  | .add blockVersion votingVersion height, s =>
      finalState (CryptonoteCore.add blockVersion votingVersion height s)
  | .reorganizeFromBlockHeight height,
      s => finalState (CryptonoteCore.reorganizeFromBlockHeight height s)
  | .reorganizeFromChainHeight height,
      s => finalState (CryptonoteCore.reorganizeFromChainHeight height s)
  | .storeChanged db, s => { s with db := db }

/-- The states of a configured object: `init` on any store, then any calls. -/
inductive HardForkReachable : HardForkState → Prop
  | init {hf : HardFork} {db : HardForkDb} :
      HardForkConfigured hf →
        HardForkReachable (finalState (CryptonoteCore.init ⟨hf, db⟩))
  | call {s : HardForkState} (c : HardForkCall) :
    HardForkReachable s → HardForkReachable (c.run s)

end CryptonoteCore
end Citicash
