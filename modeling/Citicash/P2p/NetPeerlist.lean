import Mathlib
import Citicash.Lib.MultiIndex

/-!
# The peer list

`peerlist_manager` of `p2p/net_peerlist.h` keeps two lists of peers: the white
list of peers the node has talked to and the gray list of addresses it has
heard of.  Each is a `peers_indexed` container, unique by address and ordered
by `last_seen` (`Citicash.MultiIndex`).  `append_with_peer_white` moves an
address to the white list and out of the gray one, `append_with_peer_gray`
refuses an address the white list holds, and `merge_peerlist` puts a remote
node's list, its times shifted by `fix_time_delta`, into the gray list.

Over every run of these calls from a new manager the two lists never share an
address, each stays within its limit and every address in them is one
`is_ip_allowed` lets in (`PeerlistReachable.invariant`).

`get_peerlist_head` hands out the most recently seen white entries, skipping
those never seen; its loop tests `cnt++ > depth` after pushing an entry, so it
hands out `depth + 2` of them where there are that many
(`getPeerlistHead_eq`).
-/

namespace Citicash
namespace Nodetool

/-! ## Entries -/

/-- `net_address`: an IPv4 address, its first byte in the low byte, and a
port. -/
structure NetAddress where
  ip : UInt32
  port : UInt32
  deriving DecidableEq, Repr

/-- `peerid_type`. -/
abbrev PeeridType := UInt64

/-- `peerlist_entry`. -/
structure PeerlistEntry where
  adr : NetAddress
  id : PeeridType
  lastSeen : Int64
  deriving DecidableEq, Repr

/-- The key of the `by_time` index: `last_seen`, compared as `int64_t`. -/
def PeerlistEntry.byTime (e : PeerlistEntry) : Int := e.lastSeen.toInt

/-- `peers_indexed`: unique by address (`by_addr`), ordered by `last_seen`
(`by_time`). -/
abbrev PeersIndexed := MultiIndex PeerlistEntry.adr PeerlistEntry.byTime

/-- `P2P_LOCAL_WHITE_PEERLIST_LIMIT` and `P2P_LOCAL_GRAY_PEERLIST_LIMIT` of
`cryptonote_config.h`. -/
def p2pLocalWhitePeerlistLimit : Nat := 1000
def p2pLocalGrayPeerlistLimit : Nat := 5000

/-! ## Addresses a peer list takes -/

/-- `epee::net_utils::is_ip_local`: `10.0.0.0/8`, `192.168.0.0/16` and
`172.16.0.0/12`. -/
def isIpLocal (ip : UInt32) : Bool :=
  if ip ||| 0xffffff00 = 0xffffff0a then true
  else if ip ||| 0xffff0000 = 0xffffa8c0 then true
  else if ip ||| 0xffffff00 = 0xffffffac then
    let secondNum := (ip >>> 8) &&& 0xff
    if secondNum ≥ 16 ∧ secondNum ≤ 31 then true else false
  else false

/-- `epee::net_utils::is_ip_loopback`: `127.0.0.0/8`. -/
def isIpLoopback (ip : UInt32) : Bool :=
  if ip ||| 0xffffff00 = 0xffffff7f then true else false

/-! ## The manager -/

/-- `peerlist_manager`: `m_allow_local_ip`, `m_peers_gray` and
`m_peers_white`. -/
structure PeerlistManager where
  allowLocalIp : Bool
  peersGray : PeersIndexed
  peersWhite : PeersIndexed

namespace PeerlistManager

/-- A manager as constructed and given `init(allow_local_ip)`: both lists
empty. -/
def init (allowLocalIp : Bool) : PeerlistManager :=
  ⟨allowLocalIp, MultiIndex.empty, MultiIndex.empty⟩

/-- `is_ip_allowed(ip)`: never a loopback address, a local one only when
local addresses are allowed. -/
def isIpAllowed (m : PeerlistManager) (ip : UInt32) : Bool :=
  if isIpLoopback ip then false
  else if !m.allowLocalIp && isIpLocal ip then false
  else true

/-- The loop of `trim_gray_peerlist` and `trim_white_peerlist`: while the list
holds more than `limit` entries, erase the first of `by_time`, the least
recently seen.  Each round erases an entry, so as many rounds as entries let
the loop end. -/
def trimRounds (limit : Nat) : Nat → PeersIndexed → PeersIndexed
  | 0, peers => peers
  | rounds + 1, peers =>
    if limit < peers.size
      then trimRounds limit rounds peers.eraseFirst else peers

def trimPeerlist (limit : Nat) (peers : PeersIndexed) : PeersIndexed :=
  trimRounds limit peers.size peers

/-- `trim_gray_peerlist()`, on the gray list. -/
def trimGrayPeerlist (peersGray : PeersIndexed) : PeersIndexed :=
  trimPeerlist p2pLocalGrayPeerlistLimit peersGray

/-- `trim_white_peerlist()`, on the white list. -/
def trimWhitePeerlist (peersWhite : PeersIndexed) : PeersIndexed :=
  trimPeerlist p2pLocalWhitePeerlistLimit peersWhite

/-- What `append_with_peer_white` does to the white list and
`append_with_peer_gray` to the gray one: a new record put in, then `trim`, or
the record of its address replaced. -/
def putRecord (trim : PeersIndexed → PeersIndexed) (peers : PeersIndexed)
    (ple : PeerlistEntry) : PeersIndexed :=
  match peers.find ple.adr with
  | none => trim (peers.insert ple)
  | some byAddrIt => peers.replace byAddrIt ple

/-- `find` an address and `erase` it if it is there. -/
def eraseAddr (peers : PeersIndexed) (adr : NetAddress) : PeersIndexed :=
  match peers.find adr with
  | some byAddrIt => peers.erase byAddrIt
  | none => peers

/-- `append_with_peer_white(ple)`: the record into the white list and its
address out of the gray list.  An address `is_ip_allowed` refuses leaves the
lists alone. -/
def appendWithPeerWhite (m : PeerlistManager) (ple : PeerlistEntry) :
    PeerlistManager :=
  if !m.isIpAllowed ple.adr.ip then m
  else
    { m with
      peersWhite := putRecord trimWhitePeerlist m.peersWhite ple
      peersGray := eraseAddr m.peersGray ple.adr }

/-- `append_with_peer_gray(ple)`: nothing for an address the white list holds;
otherwise the record into the gray list. -/
def appendWithPeerGray (m : PeerlistManager) (ple : PeerlistEntry) :
    PeerlistManager :=
  if !m.isIpAllowed ple.adr.ip then m
  else if (m.peersWhite.find ple.adr).isSome then m
  else { m with peersGray := putRecord trimGrayPeerlist m.peersGray ple }

/-- `merge_peerlist(outer_bs)`: each entry into the gray list, then a trim. -/
def mergePeerlist (m : PeerlistManager) (outerBs : List PeerlistEntry) :
    PeerlistManager :=
  let m := outerBs.foldl appendWithPeerGray m
  { m with peersGray := trimGrayPeerlist m.peersGray }

/-- `set_peer_just_seen(peer, addr)`, `now` the time `time(NULL)` reads. -/
def setPeerJustSeen (m : PeerlistManager) (peer : PeeridType)
    (addr : NetAddress) (now : Int64) : PeerlistManager :=
  m.appendWithPeerWhite { adr := addr, id := peer, lastSeen := now }

/-- The loop of `get_peerlist_head`, from the most recently seen entry: an
entry never seen is skipped, and `if(cnt++ > depth) break;` stops after the
entry pushed while `cnt` is past `depth`. -/
def peerlistHeadFrom (depth : UInt32) :
    UInt32 → List PeerlistEntry → List PeerlistEntry
  | _, [] => []
  | cnt, vl :: rest =>
    if vl.lastSeen = 0 then peerlistHeadFrom depth cnt rest
    else if cnt > depth then [vl]
    else vl :: peerlistHeadFrom depth (cnt + 1) rest

/-- `get_peerlist_head(bs_head, depth)`: the entries it appends to `bs_head`,
read off the white list's `by_time` index backwards. -/
def getPeerlistHead (m : PeerlistManager) (depth : UInt32) :
    List PeerlistEntry :=
  peerlistHeadFrom depth 0 m.peersWhite.byOrder.reverse

/-- `get_peerlist_full(pl_gray, pl_white)`: both lists, most recently seen
first. -/
def getPeerlistFull (m : PeerlistManager) :
    List PeerlistEntry × List PeerlistEntry :=
  (m.peersGray.byOrder.reverse, m.peersWhite.byOrder.reverse)

/-- `get_white_peer_by_index` and `get_gray_peer_by_index`: the entry `i`
places back from the most recently seen. -/
def peerByIndex (peers : PeersIndexed) (i : Nat) : Option PeerlistEntry :=
  if i ≥ peers.size then none else peers.byOrder.reverse[i]?

def getWhitePeerByIndex (m : PeerlistManager) (i : Nat) :
    Option PeerlistEntry :=
  peerByIndex m.peersWhite i

def getGrayPeerByIndex (m : PeerlistManager) (i : Nat) : Option PeerlistEntry :=
  peerByIndex m.peersGray i

end PeerlistManager

/-! ## A remote node's list -/

/-- `fix_time_delta(local_peerlist, local_time, delta)` of `node_server`, `now`
the time it reads: refused when an entry was seen after the remote node's time
`local_time`, otherwise every `last_seen` moved by `now - local_time` in 64-bit
arithmetic. -/
def fixTimeDelta (localPeerlist : List PeerlistEntry) (localTime now : Int64) :
    Option (List PeerlistEntry) :=
  let delta := now - localTime
  localPeerlist.mapM fun be =>
    if be.lastSeen > localTime then none
      else some { be with lastSeen := be.lastSeen + delta }

/-- `handle_remote_peerlist(peerlist, local_time, context)`: the list with its
times fixed merged into the gray list, or `false` and nothing merged. -/
def PeerlistManager.handleRemotePeerlist (m : PeerlistManager)
    (peerlist : List PeerlistEntry) (localTime now : Int64) :
    Bool × PeerlistManager :=
  match fixTimeDelta peerlist localTime now with
  | none => (false, m)
  | some peerlist => (true, m.mergePeerlist peerlist)

/-- The calls that change a peer list. -/
inductive PeerlistCall
  | appendWithPeerWhite (ple : PeerlistEntry)
  | appendWithPeerGray (ple : PeerlistEntry)
  | setPeerJustSeen (peer : PeeridType) (addr : NetAddress) (now : Int64)
  | mergePeerlist (outerBs : List PeerlistEntry)
  | handleRemotePeerlist (peerlist : List PeerlistEntry) (localTime now : Int64)

def PeerlistCall.run : PeerlistCall → PeerlistManager → PeerlistManager
  | .appendWithPeerWhite ple, m => m.appendWithPeerWhite ple
  | .appendWithPeerGray ple, m => m.appendWithPeerGray ple
  | .setPeerJustSeen peer addr now, m => m.setPeerJustSeen peer addr now
  | .mergePeerlist outerBs, m => m.mergePeerlist outerBs
  | .handleRemotePeerlist peerlist localTime now,
      m => (m.handleRemotePeerlist peerlist localTime now).2

/-- Calls one after another. -/
def PeerlistCall.runAll (calls : List PeerlistCall) (m : PeerlistManager) :
    PeerlistManager :=
  calls.foldl (fun m c => c.run m) m

/-- The peer lists of a node: a new manager, then any calls. -/
inductive PeerlistReachable : PeerlistManager → Prop
  | init (allowLocalIp : Bool) :
    PeerlistReachable (PeerlistManager.init allowLocalIp)
  | call {m : PeerlistManager} (c : PeerlistCall) :
    PeerlistReachable m → PeerlistReachable (c.run m)

/-! ## The steps of a call -/

namespace PeerlistManager

theorem byOrder_trimRounds (limit rounds : Nat) (peers : PeersIndexed) :
    (trimRounds limit rounds peers).byOrder =
      peers.byOrder.drop (min rounds (peers.size - limit)) := by
  induction rounds generalizing peers with
  | zero => simp [trimRounds]
  | succ rounds ih =>
    unfold trimRounds
    split
    · -- one round erases the least recently seen entry
      rename_i overLimit
      rw [ih, MultiIndex.byOrder_eraseFirst,
        MultiIndex.size_eraseFirst, List.drop_tail]
      congr 1
      omega
    · rename_i within
      rw [show peers.size - limit = 0 by omega, Nat.min_zero, List.drop_zero]

/-- A trim keeps the most recently seen `limit` entries. -/
theorem byOrder_trimPeerlist (limit : Nat) (peers : PeersIndexed) :
    (trimPeerlist limit peers).byOrder =
      peers.byOrder.drop (peers.size - limit) := by
  rw [trimPeerlist, byOrder_trimRounds, Nat.min_eq_right (Nat.sub_le _ _)]

theorem size_trimPeerlist_le (limit : Nat) (peers : PeersIndexed) :
    (trimPeerlist limit peers).size ≤ limit := by
  have length := congrArg List.length (byOrder_trimPeerlist limit peers)
  rw [List.length_drop] at length
  unfold MultiIndex.size at length ⊢
  omega

theorem mem_trimPeerlist {limit : Nat} {peers : PeersIndexed}
    {e : PeerlistEntry} (mem : e ∈ (trimPeerlist limit peers).byOrder) :
    e ∈ peers.byOrder := by
  rw [byOrder_trimPeerlist] at mem
  exact List.mem_of_mem_drop mem

theorem mem_putRecord {trim : PeersIndexed → PeersIndexed}
    (shrinks : ∀ peers, ∀ e ∈ (trim peers).byOrder, e ∈ peers.byOrder)
    {peers : PeersIndexed} {ple e : PeerlistEntry}
    (mem : e ∈ (putRecord trim peers ple).byOrder) :
    e = ple ∨ e ∈ peers.byOrder := by
  unfold putRecord at mem
  split at mem
  · exact MultiIndex.mem_insert (shrinks _ e mem)
  · exact MultiIndex.mem_replace mem

theorem size_putRecord_le {trim : PeersIndexed → PeersIndexed} {limit : Nat}
    (bounded : ∀ peers, (trim peers).size ≤ limit) {peers : PeersIndexed}
    (within : peers.size ≤ limit) (ple : PeerlistEntry) :
    (putRecord trim peers ple).size ≤ limit := by
  unfold putRecord
  split
  · exact bounded _
  · rw [MultiIndex.size_replace]
    exact within

theorem mem_eraseAddr {peers : PeersIndexed} {adr : NetAddress}
    {e : PeerlistEntry} (mem : e ∈ (eraseAddr peers adr).byOrder) :
    e ∈ peers.byOrder := by
  unfold eraseAddr at mem
  split at mem
  · exact MultiIndex.mem_of_mem_erase mem
  · exact mem

theorem not_mem_keys_eraseAddr (peers : PeersIndexed) (adr : NetAddress) :
    adr ∉ (eraseAddr peers adr).keys := by
  unfold eraseAddr
  split
  · next found => exact MultiIndex.not_mem_keys_erase found
  · next missing => exact MultiIndex.find_eq_none.1 missing

theorem size_eraseAddr_le (peers : PeersIndexed) (adr : NetAddress) :
    (eraseAddr peers adr).size ≤ peers.size := by
  unfold eraseAddr
  split
  · exact MultiIndex.size_erase_le _ _
  · exact le_refl _

@[simp] theorem allowLocalIp_appendWithPeerWhite (m : PeerlistManager)
    (ple : PeerlistEntry) :
    (m.appendWithPeerWhite ple).allowLocalIp = m.allowLocalIp := by
  unfold appendWithPeerWhite
  split <;> rfl

@[simp] theorem allowLocalIp_appendWithPeerGray (m : PeerlistManager)
    (ple : PeerlistEntry) :
    (m.appendWithPeerGray ple).allowLocalIp = m.allowLocalIp := by
  unfold appendWithPeerGray
  split
  · rfl
  · split <;> rfl

@[simp] theorem allowLocalIp_mergePeerlist (m : PeerlistManager)
    (outerBs : List PeerlistEntry) :
    (m.mergePeerlist outerBs).allowLocalIp = m.allowLocalIp := by
  induction outerBs generalizing m with
  | nil => rfl
  | cons be rest ih =>
    have step := ih (m.appendWithPeerGray be)
    simp only [mergePeerlist, List.foldl_cons] at step ⊢
    rw [step, allowLocalIp_appendWithPeerGray]

end PeerlistManager

/-! ## The shape of the peer lists on every run -/

open PeerlistManager

/-- The shape the peer lists keep: no address in both, each within its limit,
every address one `is_ip_allowed` lets in.  (That each list is ordered by
`last_seen` and holds an address once is carried by `PeersIndexed`.) -/
structure PeerlistInvariant (m : PeerlistManager) : Prop where
  disjoint : ∀ adr ∈ m.peersWhite.keys, adr ∉ m.peersGray.keys
  whiteLimit : m.peersWhite.size ≤ p2pLocalWhitePeerlistLimit
  grayLimit : m.peersGray.size ≤ p2pLocalGrayPeerlistLimit
  whiteAllowed : ∀ e ∈ m.peersWhite.byOrder, m.isIpAllowed e.adr.ip = true
  grayAllowed : ∀ e ∈ m.peersGray.byOrder, m.isIpAllowed e.adr.ip = true

namespace PeerlistInvariant

variable {m : PeerlistManager}

theorem init (allowLocalIp : Bool) :
    PeerlistInvariant (PeerlistManager.init allowLocalIp) where
  disjoint _ mem := nomatch mem
  whiteLimit := Nat.zero_le _
  grayLimit := Nat.zero_le _
  whiteAllowed _ mem := nomatch mem
  grayAllowed _ mem := nomatch mem

theorem appendWithPeerWhite (inv : PeerlistInvariant m) (ple : PeerlistEntry) :
    PeerlistInvariant (m.appendWithPeerWhite ple) := by
  unfold PeerlistManager.appendWithPeerWhite
  by_cases allowed : m.isIpAllowed ple.adr.ip = true
  · rw [if_neg (by simp [allowed])]
    -- the white list gains `ple`, the gray list only loses entries
    have whiteFrom :
        ∀ e ∈ (putRecord trimWhitePeerlist m.peersWhite ple).byOrder,
        e = ple ∨ e ∈ m.peersWhite.byOrder :=
      fun _ mem => mem_putRecord (fun _ _ => mem_trimPeerlist) mem
    constructor
    · intro adr memWhite memGray
      obtain ⟨e, memE, rfl⟩ := MultiIndex.mem_keys.1 memWhite
      rcases whiteFrom e memE with rfl | old
      · exact not_mem_keys_eraseAddr _ _ memGray
      · obtain ⟨f, memF, same⟩ := MultiIndex.mem_keys.1 memGray
        exact inv.disjoint e.adr (MultiIndex.mem_keys.2 ⟨e, old, rfl⟩)
          (MultiIndex.mem_keys.2 ⟨f, mem_eraseAddr memF, same⟩)
    · exact size_putRecord_le (fun _ => size_trimPeerlist_le _ _)
        inv.whiteLimit ple
    · exact le_trans (size_eraseAddr_le _ _) inv.grayLimit
    · intro e mem
      rcases whiteFrom e mem with rfl | old
      · exact allowed
      · exact inv.whiteAllowed e old
    · exact fun e mem => inv.grayAllowed e (mem_eraseAddr mem)
  · rw [if_pos (by simp [allowed])]
    exact inv

theorem appendWithPeerGray (inv : PeerlistInvariant m) (ple : PeerlistEntry) :
    PeerlistInvariant (m.appendWithPeerGray ple) := by
  unfold PeerlistManager.appendWithPeerGray
  by_cases allowed : m.isIpAllowed ple.adr.ip = true
  · rw [if_neg (by simp [allowed])]
    by_cases known : (m.peersWhite.find ple.adr).isSome = true
    · rw [if_pos known]
      exact inv
    · rw [if_neg known]
      -- the address is not white, and the gray list gains `ple`
      have fresh : ple.adr ∉ m.peersWhite.keys :=
        MultiIndex.find_eq_none.1 (Option.not_isSome_iff_eq_none.1 known)
      have grayFrom :
          ∀ e ∈ (putRecord trimGrayPeerlist m.peersGray ple).byOrder,
          e = ple ∨ e ∈ m.peersGray.byOrder :=
        fun _ mem => mem_putRecord (fun _ _ => mem_trimPeerlist) mem
      constructor
      · intro adr memWhite memGray
        obtain ⟨f, memF, rfl⟩ := MultiIndex.mem_keys.1 memGray
        rcases grayFrom f memF with rfl | old
        · exact fresh memWhite
        · exact inv.disjoint f.adr memWhite
            (MultiIndex.mem_keys.2 ⟨f, old, rfl⟩)
      · exact inv.whiteLimit
      · exact size_putRecord_le (fun _ => size_trimPeerlist_le _ _)
          inv.grayLimit ple
      · exact inv.whiteAllowed
      · intro e mem
        rcases grayFrom e mem with rfl | old
        · exact allowed
        · exact inv.grayAllowed e old
  · rw [if_pos (by simp [allowed])]
    exact inv

theorem trimGray (inv : PeerlistInvariant m) :
    PeerlistInvariant { m with peersGray := trimGrayPeerlist m.peersGray } where
  disjoint adr memWhite memGray := by
    obtain ⟨f, memF, rfl⟩ := MultiIndex.mem_keys.1 memGray
    exact inv.disjoint f.adr memWhite
      (MultiIndex.mem_keys.2 ⟨f, mem_trimPeerlist memF, rfl⟩)
  whiteLimit := inv.whiteLimit
  grayLimit := size_trimPeerlist_le _ _
  whiteAllowed := inv.whiteAllowed
  grayAllowed e mem := inv.grayAllowed e (mem_trimPeerlist mem)

theorem mergePeerlist (inv : PeerlistInvariant m)
    (outerBs : List PeerlistEntry) :
    PeerlistInvariant (m.mergePeerlist outerBs) := by
  -- each entry of the remote list is one `append_with_peer_gray`
  have folded :
      PeerlistInvariant
        (outerBs.foldl PeerlistManager.appendWithPeerGray m) := by
    induction outerBs generalizing m with
    | nil => exact inv
    | cons be rest ih => exact ih (inv.appendWithPeerGray be)
  exact folded.trimGray

theorem handleRemotePeerlist (inv : PeerlistInvariant m)
    (peerlist : List PeerlistEntry) (localTime now : Int64) :
    PeerlistInvariant (m.handleRemotePeerlist peerlist localTime now).2 := by
  unfold PeerlistManager.handleRemotePeerlist
  split
  · exact inv
  · exact inv.mergePeerlist _

end PeerlistInvariant

theorem PeerlistCall.run_invariant (c : PeerlistCall) {m : PeerlistManager}
    (inv : PeerlistInvariant m) : PeerlistInvariant (c.run m) := by
  cases c with
  | appendWithPeerWhite ple => exact inv.appendWithPeerWhite ple
  | appendWithPeerGray ple => exact inv.appendWithPeerGray ple
  | setPeerJustSeen peer addr now => exact inv.appendWithPeerWhite _
  | mergePeerlist outerBs => exact inv.mergePeerlist outerBs
  | handleRemotePeerlist peerlist localTime now =>
      exact inv.handleRemotePeerlist peerlist localTime now

theorem PeerlistReachable.invariant {m : PeerlistManager}
    (reachable : PeerlistReachable m) : PeerlistInvariant m := by
  induction reachable with
  | init allowLocalIp => exact PeerlistInvariant.init allowLocalIp
  | call c _ ih => exact c.run_invariant ih

theorem PeerlistReachable.runAll {m : PeerlistManager} :
    ∀ calls, PeerlistReachable m →
      PeerlistReachable (PeerlistCall.runAll calls m)
  | [], reachable => reachable
  | next :: calls,
      reachable => PeerlistReachable.runAll calls (.call next reachable)

/-- A new peer list after three peers were seen, at times 1, 2 and 3, and a
remote node handed one more address. -/
def samplePeerlist : PeerlistManager :=
  PeerlistCall.runAll
    [.setPeerJustSeen 1 ⟨0x0100000b, 18080⟩ 1,
      .setPeerJustSeen 2 ⟨0x0200000b, 18080⟩ 2,
      .setPeerJustSeen 3 ⟨0x0300000b, 18080⟩ 3,
      .mergePeerlist [⟨⟨0x0400000b, 18080⟩, 4, 1⟩]]
    (PeerlistManager.init false)

theorem samplePeerlist_reachable : PeerlistReachable samplePeerlist :=
  PeerlistReachable.runAll _ (.init false)

theorem peerlistInvariant_on_sample_peerlist :
    (samplePeerlist.peersWhite.size = 3 ∧ samplePeerlist.peersGray.size = 1) ∧
      PeerlistInvariant samplePeerlist :=
  ⟨by decide +kernel, PeerlistReachable.invariant samplePeerlist_reachable⟩

/-! ## The head of the white list -/

namespace PeerlistManager

/-- The loop of `get_peerlist_head` with `cnt` entries pushed: for a `depth`
below the largest `uint32_t`, the next `depth + 2 - cnt` seen entries. -/
theorem peerlistHeadFrom_eq {depth : UInt32} (room : depth.toNat + 1 < 2 ^ 32)
    (l : List PeerlistEntry) : ∀ cnt : UInt32, cnt.toNat ≤ depth.toNat + 1 →
      peerlistHeadFrom depth cnt l =
        (l.filter fun e => e.lastSeen != 0).take
          (depth.toNat + 2 - cnt.toNat) := by
  induction l with
  | nil =>
    intro cnt _
    simp [peerlistHeadFrom]
  | cons vl rest ih =>
    intro cnt counted
    unfold peerlistHeadFrom
    by_cases unseen : vl.lastSeen = 0
    · rw [if_pos unseen, ih cnt counted,
        List.filter_cons_of_neg (by simp [unseen])]
    · rw [if_neg unseen, List.filter_cons_of_pos (by simp [unseen])]
      by_cases past : cnt > depth
      · -- the entry pushed while `cnt = depth + 1` is the last
        rw [if_pos past]
        rw [gt_iff_lt, UInt32.lt_iff_toNat_lt] at past
        rw [show depth.toNat + 2 - cnt.toNat = 0 + 1 by omega,
          List.take_succ_cons, List.take_zero]
      · rw [if_neg past]
        rw [gt_iff_lt, UInt32.lt_iff_toNat_lt] at past
        have next : (cnt + 1).toNat = cnt.toNat + 1 := by
          rw [UInt32.toNat_add, UInt32.toNat_one]
          omega
        rw [ih (cnt + 1) (by omega), next,
          show depth.toNat + 2 - cnt.toNat = depth.toNat + 2 -
              (cnt.toNat + 1) + 1 by omega,
          List.take_succ_cons]

/-- `get_peerlist_head(depth)`: the seen white entries from the most recently
seen, `depth + 2` of them. -/
theorem getPeerlistHead_eq (m : PeerlistManager) {depth : UInt32}
    (room : depth.toNat + 1 < 2 ^ 32) :
    m.getPeerlistHead depth =
      (m.peersWhite.byOrder.reverse.filter fun e => e.lastSeen != 0).take
        (depth.toNat + 2) := by
  rw [getPeerlistHead, peerlistHeadFrom_eq room _ 0 (by simp),
    UInt32.toNat_zero, Nat.sub_zero]

/-- What `get_peerlist_head` hands out from every peer list: white entries
that were seen, most recently seen first, none seen before a seen entry it
leaves out, and `depth + 2` of them where there are that many. -/
theorem getPeerlistHead_spec (m : PeerlistManager) {depth : UInt32}
    (room : depth.toNat + 1 < 2 ^ 32) :
    (∀ e ∈ m.getPeerlistHead depth, e ∈ m.peersWhite.byOrder ∧ e.lastSeen ≠ 0) ∧
      (m.getPeerlistHead depth).Pairwise (fun a b => b.byTime ≤ a.byTime) ∧
      (∀ e ∈ m.getPeerlistHead depth, ∀ f ∈ m.peersWhite.byOrder,
        f.lastSeen ≠ 0 → f ∉ m.getPeerlistHead depth → f.byTime ≤ e.byTime) ∧
      (m.getPeerlistHead depth).length =
        min (depth.toNat + 2)
    (m.peersWhite.byOrder.countP fun e => e.lastSeen != 0) := by
  -- the seen entries, read backwards, are ordered by `last_seen` the other way
  -- round
  have mem_seen : ∀ f,
      f ∈ m.peersWhite.byOrder.reverse.filter (fun e => e.lastSeen != 0) ↔
      f ∈ m.peersWhite.byOrder ∧ f.lastSeen ≠ 0 := by
    intro f
    simp [List.mem_filter, List.mem_reverse]
  have descending :
      (m.peersWhite.byOrder.reverse.filter fun e => e.lastSeen != 0).Pairwise
      (fun a b => b.byTime ≤ a.byTime) :=
    (List.pairwise_reverse.2 m.peersWhite.sorted).filter _
  rw [getPeerlistHead_eq m room]
  refine ⟨fun e mem => (mem_seen e).1 (List.mem_of_mem_take mem),
    descending.sublist (List.take_sublist _ _), ?_, ?_⟩
  · intro e mem f memF seenF notTaken
    rw [← List.take_append_drop (depth.toNat + 2)
      (m.peersWhite.byOrder.reverse.filter fun e => e.lastSeen !=
        0)] at descending
    have later :
        f ∈ (m.peersWhite.byOrder.reverse.filter fun e => e.lastSeen != 0).drop
        (depth.toNat + 2) := by
      have inSeen := (mem_seen f).2 ⟨memF, seenF⟩
      rw [← List.take_append_drop (depth.toNat + 2)
        (m.peersWhite.byOrder.reverse.filter fun e => e.lastSeen != 0),
          List.mem_append] at inSeen
      exact inSeen.resolve_left notTaken
    exact (List.pairwise_append.1 descending).2.2 e mem f later
  · rw [List.length_take, ← List.countP_eq_length_filter, List.countP_reverse]

/-- Of the three peers seen, `depth = 0` hands out the two most recently
seen and leaves out the one seen first. -/
theorem getPeerlistHead_spec_on_sample_peerlist :
    samplePeerlist.getPeerlistHead 0 =
        [⟨⟨0x0300000b, 18080⟩, 3, 3⟩, ⟨⟨0x0200000b, 18080⟩, 2, 2⟩] ∧
      (0 : UInt32).toNat + 1 < 2 ^ 32 ∧
      (∀ e ∈ samplePeerlist.getPeerlistHead 0,
        e ∈ samplePeerlist.peersWhite.byOrder ∧ e.lastSeen ≠ 0) ∧
      (samplePeerlist.getPeerlistHead 0).Pairwise
        (fun a b => b.byTime ≤ a.byTime) ∧
      (∀ e ∈ samplePeerlist.getPeerlistHead 0,
        ∀ f ∈ samplePeerlist.peersWhite.byOrder, f.lastSeen ≠ 0 →
          f ∉ samplePeerlist.getPeerlistHead 0 → f.byTime ≤ e.byTime) ∧
      (samplePeerlist.getPeerlistHead 0).length =
        min ((0 : UInt32).toNat + 2)
          (samplePeerlist.peersWhite.byOrder.countP fun e => e.lastSeen != 0) :=
  ⟨by decide +kernel, by decide,
    getPeerlistHead_spec samplePeerlist (by decide)⟩

end PeerlistManager

/-- Two peers seen at times 1 and 2 on a new peer list: asked for `depth = 0`,
`get_peerlist_head` hands out both. -/
theorem getPeerlistHead_hands_out_two_at_depth_zero :
    PeerlistReachable
        (((PeerlistManager.init false).setPeerJustSeen 1 ⟨0x0100000b, 18080⟩
          1).setPeerJustSeen 2 ⟨0x0200000b, 18080⟩ 2) ∧
      (((PeerlistManager.init false).setPeerJustSeen 1 ⟨0x0100000b, 18080⟩
        1).setPeerJustSeen 2 ⟨0x0200000b, 18080⟩ 2).getPeerlistHead 0 =
        [⟨⟨0x0200000b, 18080⟩, 2, 2⟩, ⟨⟨0x0100000b, 18080⟩, 1, 1⟩] :=
  ⟨.call (.setPeerJustSeen 2 ⟨0x0200000b, 18080⟩ 2)
      (.call (.setPeerJustSeen 1 ⟨0x0100000b, 18080⟩ 1) (.init false)),
    by decide⟩

end Nodetool
end Citicash
