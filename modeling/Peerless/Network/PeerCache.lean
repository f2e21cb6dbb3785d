import Peerless.Lib.HashMap
import Peerless.Lib.Json
import Peerless.Network.RelayPrivate

/-!
# The peer cache between two runs

An endpoint saves the addresses of its peers, and the next one loads them when it starts.  A relay-private
endpoint takes addresses through its relays only, and it has no relay yet when it loads the cache: relays
are configured after the start.

* `saved_cache_start` — a relay-private start gets past a saved cache exactly if it is empty.
-/

namespace Peerless.Network

open Text HashMap JsonText

/-! ### Saving -/

/-- The peer and the address of an `AddPeer`. -/
def Command.entry : Command → Option (PeerId × Multiaddr)
  | .addPeer peer address => some (peer, address)
  | _ => none

/-- `peers`: what the swarm has filed for every `AddPeer`. -/
def P2pRpc.peers (s : P2pRpc) : Map PeerId (List Multiaddr) :=
  s.commands.foldr (fun command peers =>
    match command.entry with
    | some (peer, address) => push peers peer address
    | none => peers) ∅

/-- How peers and addresses are written. -/
structure CacheText where
  peer : PeerId → String
  address : Multiaddr → String

/-- An entry of the cache. -/
def CacheText.entry (T : CacheText) (entry : PeerId × Multiaddr) : String × String :=
  (T.peer entry.1, T.address entry.2)

/-- The file of some entries. -/
def cacheBytes (entries : List (String × String)) : Bytes :=
  writePretty 0 (.arr (entries.map fun entry => .arr [.str entry.1, .str entry.2]))

/-- What becomes of an `atomic_replace`: it may fail before the new file has its name, or after. -/
inductive Replaced where
  | done
  | failed (error : String) (renamed : Bool)

/-- `save_peer_cache`; `order` is the order in which the map gives its entries, `old` the file before. -/
def P2pRpc.savePeerCache (s : P2pRpc) (T : CacheText)
    (order : Map PeerId (List Multiaddr) → List (PeerId × Multiaddr)) (created : Except String Unit)
    (replaced : Replaced) (old : Option Bytes) : Option Bytes × Except String Unit :=
  let entries := (order s.peers).map T.entry
  match created with
  | .error err => (old, .error err)
  | .ok () =>
    if entries.length > maxPeerCacheEntries then (old, .error "peer cache exceeds entry limit")
    else if (cacheBytes entries).length > maxPeerCacheBytes then
      (old, .error "peer cache exceeds size limit")
    else
      match replaced with
      | .done => (some (cacheBytes entries), .ok ())
      | .failed err renamed => (if renamed then some (cacheBytes entries) else old, .error err)

/-! ### Starting -/

/-- The errors of a start. -/
inductive ServeError where
  | membershipRequired
  | p2p (reason : String)
  deriving DecidableEq

/-- `P2pRpc::start_bound`, as far as it decides. -/
def P2pRpc.startBound : P2pRpc := ⟨false, ∅, [], []⟩

variable (F : CacheFormat)

/-- The end of a start: the listener comes up or not, then the cache is loaded. -/
def P2pRpc.opened (s : P2pRpc) (ready : Except String Unit) (file : Option Bytes) (answers : ℕ → Answer) :
    Except ServeError P2pRpc :=
  match ready with
  | .error err => .error (.p2p err)
  | .ok () =>
    match s.loadPeerCache F file answers with
    | (_, .error err) => .error (.p2p err)
    | (s, .ok _) => .ok s

def serveP2pUnrestricted (ready : Except String Unit) (file : Option Bytes) (answers : ℕ → Answer) :
    Except ServeError P2pRpc :=
  P2pRpc.startBound.opened F ready file answers

def serveP2pRelayPrivate (hasMembership : Bool) (listen : Multiaddr) (ready : Except String Unit)
    (file : Option Bytes) (answers : ℕ → Answer) : Except ServeError P2pRpc :=
  if ¬ hasMembership then .error .membershipRequired
  else
    match P2pRpc.startRelayPrivate listen with
    | .error err => .error (.p2p err)
    | .ok s => s.opened F ready file answers

variable {F} {T : CacheText} {s : P2pRpc} {created : Except String Unit} {replaced : Replaced}
  {old : Option Bytes} {bytes : Bytes}
  {order : Map PeerId (List Multiaddr) → List (PeerId × Multiaddr)}

/-! ### What the peers are -/

/-- **The peers are the addresses added**, in some order. -/
theorem bag_peers (s : P2pRpc) : (bag s.peers).Perm (s.commands.filterMap Command.entry) := by
  unfold P2pRpc.peers
  induction s.commands with
  | nil => exact List.Perm.refl _
  | cons command commands ih =>
    rw [List.foldr_cons]
    cases hentry : command.entry with
    | none =>
      rw [List.filterMap_cons_none hentry]
      exact ih
    | some entry =>
      rw [List.filterMap_cons_some hentry]
      exact (bag_push _ entry.1 entry.2).trans (ih.cons entry)

theorem filterMap_added (saved : List (PeerId × Multiaddr)) :
    (((saved.map fun entry : PeerId × Multiaddr => Command.addPeer entry.1 entry.2).reverse ++
      []).filterMap Command.entry).Perm saved := by
  rw [List.append_nil]
  refine ((List.reverse_perm _).filterMap _).trans ?_
  rw [List.filterMap_map]
  exact List.Perm.of_eq List.filterMap_some

/-! ### Loading -/

/-- The cache reads back as it was written. -/
structure Reads (F : CacheFormat) (T : CacheText) (saved : List (PeerId × Multiaddr)) : Prop where
  entries : F.entries (cacheBytes (saved.map T.entry)) = .ok (saved.map T.entry)
  peer : ∀ entry ∈ saved, F.peer (T.peer entry.1) = .ok entry.1
  address : ∀ entry ∈ saved, F.address (T.address entry.2) = .ok entry.2

theorem savePeerCache_ok (h : s.savePeerCache T order created replaced old = (some bytes, .ok ())) :
    bytes = cacheBytes ((order s.peers).map T.entry) ∧ bytes.length ≤ maxPeerCacheBytes ∧
      ((order s.peers).map T.entry).length ≤ maxPeerCacheEntries := by
  unfold P2pRpc.savePeerCache at h
  dsimp only at h
  split at h
  · cases h
  · split at h
    · cases h
    · rename_i hentries
      split at h
      · cases h
      · rename_i hsize
        split at h
        · obtain rfl := Option.some.inj (congrArg Prod.fst h)
          exact ⟨rfl, Nat.le_of_not_lt hsize, Nat.le_of_not_lt hentries⟩
        · cases congrArg Prod.snd h

/-- A saved cache is within the limits of the reader. -/
theorem parsePeerCache_saved (h : s.savePeerCache T order created replaced old = (some bytes, .ok ()))
    (hreads : Reads F T (order s.peers)) : parsePeerCache F bytes = .ok ((order s.peers).map T.entry) := by
  obtain ⟨rfl, hsize, hentries⟩ := savePeerCache_ok h
  rw [parsePeerCache, if_neg (Nat.not_lt.mpr hsize), hreads.entries]
  exact if_neg (Nat.not_lt.mpr hentries)

/-- **An unrestricted endpoint takes every entry**: by induction on the entries that are left. -/
theorem loadEntries_unrestricted {answers : ℕ → Answer} (hanswers : ∀ n, answers n = .reply (.ok ())) :
    ∀ (saved : List (PeerId × Multiaddr)) (loaded : ℕ) (s : P2pRpc), s.relayPrivate = false →
      (∀ entry ∈ saved, F.peer (T.peer entry.1) = .ok entry.1) →
      (∀ entry ∈ saved, F.address (T.address entry.2) = .ok entry.2) →
      s.loadEntries F answers loaded (saved.map T.entry) =
        ({ s with commands := (saved.map fun entry => .addPeer entry.1 entry.2).reverse ++ s.commands },
          .ok (loaded + saved.length)) := by
  intro saved
  induction saved with
  | nil => intro loaded s _ _ _; rfl
  | cons entry saved ih =>
    intro loaded s hopen hpeer haddress
    have hadd : s.addPeer entry.1 entry.2 (answers loaded) =
        ({ s with commands := .addPeer entry.1 entry.2 :: s.commands }, .ok ()) := by
      rw [P2pRpc.addPeer, P2pRpc.pass, if_neg (by simp [hopen]), hanswers]
      rfl
    rw [List.map_cons, CacheText.entry, P2pRpc.loadEntries, hpeer entry List.mem_cons_self,
      haddress entry List.mem_cons_self]
    dsimp only
    rw [hadd]
    dsimp only
    have hrest := ih (loaded + 1) { s with commands := .addPeer entry.1 entry.2 :: s.commands } hopen
      (fun e he => hpeer e (List.mem_cons_of_mem _ he)) fun e he => haddress e (List.mem_cons_of_mem _ he)
    rw [hrest, List.map_cons, List.reverse_cons, List.append_assoc, List.length_cons, Nat.add_right_comm,
      Nat.add_assoc]
    rfl

/-- **A relay-private endpoint without relays takes no entry.** -/
theorem loadEntries_private {answers : ℕ → Answer} (hprivate : s.relayPrivate = true)
    (hnone : s.privacyRelays = ∅) (loaded : ℕ) (entries : List (String × String)) (loaded' : ℕ)
    (t : P2pRpc) (h : s.loadEntries F answers loaded entries = (t, .ok loaded')) : entries = [] := by
  cases entries with
  | nil => rfl
  | cons entry entries =>
    rw [P2pRpc.loadEntries] at h
    split at h
    · cases h
    · split at h
      · cases h
      · rename_i address _
        have hrefused : s.usesConfiguredCircuit address = false := by
          rw [P2pRpc.usesConfiguredCircuit, hnone]
          cases circuitRelay address <;> rfl
        rw [P2pRpc.addPeer, P2pRpc.pass, hrefused, if_pos ⟨hprivate, Bool.false_ne_true⟩] at h
        cases h

/-! ### The starts -/

theorem opened_ok_iff {t : P2pRpc} {file : Option Bytes} {answers : ℕ → Answer} :
    s.opened F (.ok ()) file answers = .ok t ↔
      ∃ loaded, s.loadPeerCache F file answers = (t, .ok loaded) := by
  rw [P2pRpc.opened]
  rcases s.loadPeerCache F file answers with ⟨u, _ | loaded⟩
  · constructor
    · intro h
      cases h
    · rintro ⟨_, h⟩
      cases h
  · constructor
    · intro h
      cases h
      exact ⟨loaded, rfl⟩
    · rintro ⟨_, h⟩
      cases h
      rfl

theorem loadPeerCache_saved (h : s.savePeerCache T order created replaced old = (some bytes, .ok ()))
    (hreads : Reads F T (order s.peers)) (t : P2pRpc) (answers : ℕ → Answer) :
    t.loadPeerCache F (some bytes) answers = t.loadEntries F answers 0 ((order s.peers).map T.entry) := by
  rw [P2pRpc.loadPeerCache, parsePeerCache_saved h hreads]

/-- **A saved cache and the next start.**  A relay-private start gets past the cache, with every address
through a relay it may go on to configure, exactly if the endpoint that saved it knew no address.  An
unrestricted start loads every entry. -/
theorem saved_cache_start (F : CacheFormat) (T : CacheText) (saver : P2pRpc)
    (order : Map PeerId (List Multiaddr) → List (PeerId × Multiaddr))
    (horder : (order saver.peers).Perm (bag saver.peers)) (created : Except String Unit)
    (replaced : Replaced) (old : Option Bytes) (bytes : Bytes)
    (hsaved : saver.savePeerCache T order created replaced old = (some bytes, .ok ()))
    (hreads : Reads F T (order saver.peers)) (answers : ℕ → Answer)
    (hanswers : ∀ n, answers n = .reply (.ok ())) :
    (∀ listen, isLoopback listen = true →
      ((∃ s, serveP2pRelayPrivate F true listen (.ok ()) (some bytes) answers = .ok s ∧
        ∀ entry ∈ bag saver.peers, ∀ relay peer, terminalPeer relay = some peer →
          circuitRelay entry.2 = some peer → entry ∈ bag s.peers) ↔ bag saver.peers = [])) ∧
    ∃ s, serveP2pUnrestricted F (.ok ()) (some bytes) answers = .ok s ∧
      (bag s.peers).Perm (bag saver.peers) := by
  constructor
  · intro listen hlisten
    have hstart : serveP2pRelayPrivate F true listen (.ok ()) (some bytes) answers =
        P2pRpc.opened F ⟨true, ∅, [], []⟩ (.ok ()) (some bytes) answers := by
      rw [serveP2pRelayPrivate, if_neg (by simp), P2pRpc.startRelayPrivate, if_pos hlisten]
    rw [hstart]
    constructor
    · rintro ⟨s, hs, _⟩
      obtain ⟨loaded, hload⟩ := opened_ok_iff.mp hs
      rw [loadPeerCache_saved hsaved hreads] at hload
      have hnone := loadEntries_private rfl rfl 0 _ loaded s hload
      rw [List.map_eq_nil_iff] at hnone
      rw [hnone] at horder
      exact horder.symm.eq_nil
    · intro hempty
      rw [hempty] at horder ⊢
      refine ⟨⟨true, ∅, [], []⟩, opened_ok_iff.mpr ⟨0, ?_⟩, fun _ h => absurd h List.not_mem_nil⟩
      rw [loadPeerCache_saved hsaved hreads, horder.eq_nil]
      rfl
  · refine ⟨_, opened_ok_iff.mpr ⟨_, (loadPeerCache_saved hsaved hreads _ answers).trans
      (loadEntries_unrestricted hanswers _ 0 P2pRpc.startBound rfl hreads.peer hreads.address)⟩, ?_⟩
    exact ((bag_peers _).trans (filterMap_added _)).trans horder

/-! ### A cache of one's own -/

/-- A peer behind the relay. -/
def behindRelay : Multiaddr := sampleRelay ++ [.p2pCircuit, .p2p ⟨[3]⟩]

/-- How the entry of `sampleFormat` is written. -/
def sampleText : CacheText := ⟨fun _ => "peer", fun _ => "address"⟩

/-- A relay-private endpoint that has configured the relay. -/
def relayedEndpoint : P2pRpc := (sampleStart.configurePrivacyRelay sampleRelay taken).1

/-- The same endpoint with a peer behind the relay. -/
def relayedSaver : P2pRpc := (relayedEndpoint.addPeer ⟨[3]⟩ behindRelay taken).1

/-- The file it saves. -/
def relayedCache : Bytes := cacheBytes [("peer", "address")]

theorem relayedSaver_bag : bag relayedSaver.peers = [(⟨[3]⟩, behindRelay)] := by decide +kernel

theorem relayedSaver_saves :
    relayedSaver.savePeerCache sampleText bag (.ok ()) .done none = (some relayedCache, .ok ()) := by
  decide +kernel

theorem relayedSaver_reads : Reads sampleFormat sampleText (bag relayedSaver.peers) := by
  rw [relayedSaver_bag]
  exact ⟨rfl, List.forall_mem_singleton.mpr rfl, List.forall_mem_singleton.mpr rfl⟩

/-- **A node is stopped by its own cache**: it adds a peer behind its relay and saves it, and its next
start fails, before the relay can be configured. -/
theorem own_cache_stops_start :
    (sampleStart.configurePrivacyRelay sampleRelay taken).2 = .ok () ∧
    (relayedEndpoint.addPeer ⟨[3]⟩ behindRelay taken).2 = .ok () ∧
    relayedSaver.savePeerCache sampleText bag (.ok ()) .done none = (some relayedCache, .ok ()) ∧
    Reads sampleFormat sampleText (bag relayedSaver.peers) ∧
    (serveP2pRelayPrivate sampleFormat true [.ip4 127 0 0 1, .other "udp/0", .other "quic-v1"] (.ok ())
        (some relayedCache) fun _ => taken).map (fun _ => ()) =
      .error (.p2p "relay-private mode accepts peer addresses only through configured relays") :=
  ⟨rfl, rfl, relayedSaver_saves, relayedSaver_reads, rfl⟩

/-- The same cache is loaded whole by an unrestricted start. -/
theorem own_cache_loads_unrestricted :
    ∃ s, serveP2pUnrestricted sampleFormat (.ok ()) (some relayedCache) (fun _ => taken) = .ok s ∧
      (bag s.peers).Perm [(⟨[3]⟩, behindRelay)] := by
  have hstart := (saved_cache_start sampleFormat sampleText relayedSaver bag (List.Perm.refl _) (.ok ()) .done
    none relayedCache relayedSaver_saves relayedSaver_reads (fun _ => taken) fun _ => rfl).2
  rw [relayedSaver_bag] at hstart
  exact hstart

end Peerless.Network
