import Mathlib.Data.List.Sort
import Mathlib.Data.UInt
import Peerless.Node.Replication
import Peerless.Lib.Balance
import Peerless.Lib.Runs

/-!
# Placement

`execute_best` and `execute_best_bytes` try the connected peers, those with the fewest assignments first,
and execute on the node itself if no peer returns a result.  The assignments are counted in a map of
64-bit numbers under the private key of the peer.

* `placement_balanced` — the assignments never spread beyond what they were, or one, and from
  an empty history every peer gets an even share, as long as the counts do not overflow.
-/

namespace Peerless.Node

open Text Inquiry Balance HashMap Peerless.Core Identity Protocol
open Network (PeerId)

variable {P : Primitives} {σ : Type}

/-! ### The order and the count -/

abbrev PlacementCounts := Map NodeId UInt64

/-- `assignments.get(key).copied().unwrap_or(0)`. -/
def assignments (counts : PlacementCounts) (key : NodeId) : UInt64 := (counts.lookup key).getD 0

variable (P) in
/-- The comparison of `ordered_remote_executors`: the assignments, then the bytes of the peer id. -/
def ComesFirst (counts : PlacementCounts) (left right : PeerId) : Prop :=
  assignments counts (privatePeerKey P left) < assignments counts (privatePeerKey P right) ∨
    assignments counts (privatePeerKey P left) = assignments counts (privatePeerKey P right) ∧
      left.bytes ≤ right.bytes

instance ComesFirst.decidable (counts : PlacementCounts) : DecidableRel (ComesFirst P counts) :=
  fun _ _ => instDecidableOr

variable (P) in
/-- `PeerlessNode::ordered_remote_executors`. -/
def orderedRemoteExecutors (counts : PlacementCounts) (connected : PeerSet) : List PeerId :=
  connected.order.insertionSort (ComesFirst P counts)

variable (P) in
/-- `PeerlessNode::record_private_assignment`: the count wraps around at `2 ^ 64`. -/
def recordPrivateAssignment (counts : PlacementCounts) (peer : PeerId) : PlacementCounts :=
  counts.insert (privatePeerKey P peer) (assignments counts (privatePeerKey P peer) + 1)

/-! ### The calls -/

/-- Where a task is sent to. -/
inductive Site where
  | peer (peer : PeerId)
  | requester
  deriving DecidableEq

/-- The counts, the world, and where tasks were sent to so far. -/
structure Placement (σ : Type) where
  counts : PlacementCounts
  world : σ
  sent : List Site

def Placement.send (s : Placement σ) (site : Site) (world : σ) : Placement σ :=
  { s with world := world, sent := s.sent ++ [site] }

variable (P) in
/-- The loop over the peers: the first result is counted and returned. -/
def executeOnPeers (execute : PeerId → σ → Except RemoteError (ExecutionRecord × Bytes) × σ) :
    List PeerId → Placement σ → Option (ExecutionRecord × Bytes) × Placement σ
  | [], s => (none, s)
  | peer :: rest, s =>
    match execute peer s.world with
    | (.ok result, world) =>
      (some result, { s.send (.peer peer) world with counts := recordPrivateAssignment P s.counts peer })
    | (.error _, world) => executeOnPeers execute rest (s.send (.peer peer) world)

variable (P) in
/-- What `execute_best` and `execute_best_bytes` have in common. -/
def executeBestWith (execute : PeerId → σ → Except RemoteError (ExecutionRecord × Bytes) × σ)
    (executeLocal : σ → Except RemoteError (ExecutionRecord × Bytes) × σ) (connected : PeerSet)
    (s : Placement σ) : Except RemoteError (ExecutionRecord × Bytes) × Placement σ :=
  match executeOnPeers P execute (orderedRemoteExecutors P s.counts connected) s with
  | (some result, s') => (.ok result, s')
  | (none, s') =>
    let (result, world) := executeLocal s'.world
    (result, s'.send .requester world)

/-- A call, and the order in which the network lists its peers at that time. -/
inductive PlacementCall where
  | best (connected : PeerSet) (task : Task) (component : Bytes) (input : BitVec 32)
  | bestBytes (connected : PeerSet) (task : Task) (component input : Bytes)

def PlacementCall.connected : PlacementCall → PeerSet
  | .best connected _ _ _ => connected
  | .bestBytes connected _ _ _ => connected

/-- A node's own handler of messages. -/
abbrev Handler (σ : Type) := SignedEnvelope → σ → Except RemoteError SignedEnvelope × σ

namespace Surroundings

variable (W : Surroundings P σ) (own : NodeIdentity P) (codec : MessageCodec) (handle : Handler σ)

/-- `PeerlessNode::remote_execute_bytes_p2p`: no row is written. -/
def remoteExecuteBytesP2p (task : Task) (component input : Bytes) (peer : PeerId) (s : σ) :
    Except RemoteError (ExecutionRecord × Bytes) × σ :=
  answer ((W.requester own codec peer).remoteExecuteBytesVia task component input) s

/-- The node as its own executor. -/
def localRequester : Requester P σ where
  identity := own
  codec := codec
  now := ExceptT.mk fun s => (.ok (W.now s).1, (W.now s).2)
  send := fun envelope => ExceptT.mk (handle envelope)

/-- `PeerlessNode::execute_local_bytes`. -/
def executeLocalBytes (task : Task) (component input : Bytes) (s : σ) :
    Except RemoteError (ExecutionRecord × Bytes) × σ :=
  answer ((W.localRequester own codec handle).remoteExecuteBytesVia task component input) s

/-- `PeerlessNode::execute_local`. -/
def executeLocal (task : Task) (component : Bytes) (input : BitVec 32) (s : σ) :
    Except RemoteError (ExecutionRecord × Bytes) × σ :=
  W.executeLocalBytes own codec handle task component (leBytes input) s

/-- `PeerlessNode::execute_best`. -/
def executeBest (connected : PeerSet) (task : Task) (component : Bytes) (input : BitVec 32)
    (s : Placement σ) : Except RemoteError (ExecutionRecord × Bytes) × Placement σ :=
  executeBestWith P (W.remoteExecuteP2p own codec task component input)
    (W.executeLocal own codec handle task component input) connected s

/-- `PeerlessNode::execute_best_bytes`. -/
def executeBestBytes (connected : PeerSet) (task : Task) (component input : Bytes)
    (s : Placement σ) : Except RemoteError (ExecutionRecord × Bytes) × Placement σ :=
  executeBestWith P (W.remoteExecuteBytesP2p own codec task component input)
    (W.executeLocalBytes own codec handle task component input) connected s

/-! ### Calls one after another -/

/-- What a call does with one peer. -/
def executeOn : PlacementCall → PeerId → σ → Except RemoteError (ExecutionRecord × Bytes) × σ
  | .best _ task component input => W.remoteExecuteP2p own codec task component input
  | .bestBytes _ task component input => W.remoteExecuteBytesP2p own codec task component input

/-- The state after a call, whatever it returned. -/
def placementStep (s : Placement σ) : PlacementCall → Option (Placement σ)
  | .best connected task component input =>
    some (W.executeBest own codec handle connected task component input s).2
  | .bestBytes connected task component input =>
    some (W.executeBestBytes own codec handle connected task component input s).2

/-- **The condition on a call**: the network has these peers, in any order, and each of them would accept
the task now. -/
def AllAccept (peers : PeerSet) (s : Placement σ) (call : PlacementCall) : Prop :=
  call.connected.order.Perm peers.order ∧
    ∀ peer ∈ peers.order, (W.executeOn own codec call peer s.world).1.isOk = true

instance AllAccept.decidable (peers : PeerSet) (s : Placement σ) (call : PlacementCall) :
    Decidable (W.AllAccept own codec peers s call) := instDecidableAnd

end Surroundings

/-- How often each of the peers was assigned a task, by the map. -/
def Placement.loads (P : Primitives) (s : Placement σ) (peers : PeerSet) : List ℕ :=
  peers.order.map fun peer => (assignments s.counts (privatePeerKey P peer)).toNat

variable {W : Surroundings P σ} {own : NodeIdentity P} {codec : MessageCodec} {handle : Handler σ}
  {peers : PeerSet} {s s' : Placement σ}

/-! ### A call goes to a peer with the fewest assignments -/

instance ComesFirst.total (counts : PlacementCounts) : Std.Total (ComesFirst P counts) where
  total := by
    intro left right
    rcases Nat.lt_trichotomy (assignments counts (privatePeerKey P left)).toNat
      (assignments counts (privatePeerKey P right)).toNat with hlt | heq | hgt
    · exact .inl (.inl (UInt64.lt_iff_toNat_lt.mpr hlt))
    · have heq := UInt64.toNat_inj.mp heq
      rcases le_total left.bytes right.bytes with hle | hle
      · exact .inl (.inr ⟨heq, hle⟩)
      · exact .inr (.inr ⟨heq.symm, hle⟩)
    · exact .inr (.inl (UInt64.lt_iff_toNat_lt.mpr hgt))

instance ComesFirst.trans (counts : PlacementCounts) : IsTrans PeerId (ComesFirst P counts) where
  trans := by
    intro a b c hab hbc
    rcases hab with hlt | ⟨heq, hle⟩
    · rcases hbc with hlt' | ⟨heq', _⟩
      · exact .inl (UInt64.lt_trans hlt hlt')
      · exact .inl (heq' ▸ hlt)
    · rcases hbc with hlt' | ⟨heq', hle'⟩
      · exact .inl (heq ▸ hlt')
      · exact .inr ⟨heq.trans heq', hle.trans hle'⟩

/-- The loads the abstract picks are about: one for every key. -/
def keyLoad (counts : PlacementCounts) (key : NodeId) : ℕ := (assignments counts key).toNat

variable {counts : PlacementCounts}

theorem ComesFirst.load_le {left right : PeerId} (h : ComesFirst P counts left right) :
    keyLoad counts (privatePeerKey P left) ≤ keyLoad counts (privatePeerKey P right) := by
  rcases h with hlt | ⟨heq, _⟩
  · exact (UInt64.lt_iff_toNat_lt.mp hlt).le
  · exact (congrArg UInt64.toNat heq).le

variable {peer : PeerId}

/-- **The first peer of the order has the fewest assignments.** -/
theorem least_of_ordered {connected : PeerSet} {rest : List PeerId}
    (hperm : connected.order.Perm peers.order)
    (hordered : orderedRemoteExecutors P counts connected = peer :: rest) :
    peer ∈ peers.order ∧
      Least (peers.order.map (privatePeerKey P)) (keyLoad counts) (privatePeerKey P peer) := by
  have hsort : (peer :: rest).Perm peers.order := by
    rw [← hordered]
    exact (List.perm_insertionSort _ _).trans hperm
  have hsorted : (peer :: rest).Pairwise (ComesFirst P counts) := by
    rw [← hordered]
    exact List.pairwise_insertionSort _ _
  have hmem : peer ∈ peers.order := hsort.mem_iff.mp List.mem_cons_self
  refine ⟨hmem, List.mem_map_of_mem hmem, ?_⟩
  intro key hkey
  obtain ⟨other, hother, rfl⟩ := List.mem_map.mp hkey
  rcases List.mem_cons.mp (hsort.mem_iff.mpr hother) with rfl | hrest
  · exact le_refl _
  · exact ((List.pairwise_cons.mp hsorted).1 other hrest).load_le

theorem placementStep_eq (W : Surroundings P σ) (own : NodeIdentity P) (codec : MessageCodec)
    (handle : Handler σ) (s : Placement σ) (call : PlacementCall) : ∃ executeLocal,
    W.placementStep own codec handle s call =
      some (executeBestWith P (W.executeOn own codec call) executeLocal call.connected s).2 := by
  cases call with
  | best connected task component input => exact ⟨_, rfl⟩
  | bestBytes connected task component input => exact ⟨_, rfl⟩

/-- **One call.**  If every connected peer accepts, the task is sent to one with the fewest assignments,
to nobody else, and counted for it. -/
theorem placed_step {call : PlacementCall} (hpeers : peers.order ≠ [])
    (haccept : W.AllAccept own codec peers s call)
    (hstep : W.placementStep own codec handle s call = some s') :
    ∃ peer ∈ peers.order,
      Least (peers.order.map (privatePeerKey P)) (keyLoad s.counts) (privatePeerKey P peer) ∧
      s'.sent = s.sent ++ [.peer peer] ∧ s'.counts = recordPrivateAssignment P s.counts peer := by
  obtain ⟨hperm, haccepts⟩ := haccept
  obtain ⟨executeLocal, hbest⟩ := placementStep_eq W own codec handle s call
  rw [hbest, Option.some.injEq] at hstep
  subst hstep
  unfold executeBestWith
  cases hordered : orderedRemoteExecutors P s.counts call.connected with
  | nil =>
    -- a sorted list is empty only if there is no peer
    have hnil : ([] : List PeerId).Perm peers.order := by
      rw [← hordered]
      exact (List.perm_insertionSort _ _).trans hperm
    exact absurd hnil.nil_eq.symm hpeers
  | cons peer rest =>
    obtain ⟨hmem, hleast⟩ := least_of_ordered hperm hordered
    have hok := haccepts peer hmem
    refine ⟨peer, hmem, hleast, ?_⟩
    rcases hexecute : W.executeOn own codec call peer s.world with ⟨answered, world⟩
    rw [hexecute] at hok
    cases answered with
    | error err => cases hok
    | ok result =>
      rw [executeOnPeers, hexecute]
      exact ⟨rfl, rfl⟩

/-! ### Whole runs -/

/-- Counting below the last value is one more at the key of the peer. -/
theorem keyLoad_record (hlt : keyLoad counts (privatePeerKey P peer) < 2 ^ 64 - 1) :
    keyLoad (recordPrivateAssignment P counts peer) =
      Balance.raise (keyLoad counts) (privatePeerKey P peer) := by
  funext key
  rw [raise_apply]
  unfold keyLoad at hlt ⊢
  by_cases hkey : key = privatePeerKey P peer
  · subst hkey
    rw [if_pos rfl]
    show (((AList.insert _ _ counts).lookup _).getD 0).toNat = _
    rw [AList.lookup_insert, Option.getD_some, UInt64.toNat_add]
    exact Nat.mod_eq_of_lt (by simp only [UInt64.toNat_one]; omega)
  · rw [if_neg hkey, Nat.add_zero]
    show (((AList.insert _ _ counts).lookup key).getD 0).toNat = _
    rw [AList.lookup_insert_ne hkey]
    rfl

theorem loads_eq (s : Placement σ) (peers : PeerSet) :
    s.loads P peers = (peers.order.map (privatePeerKey P)).map (keyLoad s.counts) := by
  rw [List.map_map]
  rfl

/-- **What a run amounts to**: `picks` are the peers that were chosen. -/
structure Placed (P : Primitives) (peers : PeerSet) (s s' : Placement σ) (picks : List PeerId) : Prop where
  sent : s'.sent = s.sent ++ picks.map Site.peer
  mem : ∀ peer ∈ picks, peer ∈ peers.order
  levels : picks.length ≤ room (2 ^ 64 - 1) (s.loads P peers) →
    Levels (peers.order.map (privatePeerKey P)) (keyLoad s.counts) (picks.map (privatePeerKey P)) ∧
      keyLoad s'.counts = raised (keyLoad s.counts) (picks.map (privatePeerKey P))

theorem placed_run (hpeers : peers.order ≠ []) (hkeys : (peers.order.map (privatePeerKey P)).Nodup) :
    ∀ (calls : List PlacementCall) (s s' : Placement σ),
      Runs.Meets (W.placementStep own codec handle) (W.AllAccept own codec peers) s calls →
      Runs.run (W.placementStep own codec handle) s calls = some s' →
      ∃ picks, picks.length = calls.length ∧ Placed P peers s s' picks := by
  intro calls
  induction calls with
  | nil =>
    intro s s' _ hrun
    obtain rfl := Option.some.inj hrun
    exact ⟨[], rfl, by simp, by simp, fun _ => ⟨trivial, rfl⟩⟩
  | cons call calls ih =>
    intro s s' hmeets hrun
    obtain ⟨t, hstep, hrest⟩ := Runs.run_cons hrun
    obtain ⟨peer, hmem, hleast, hsent, hcounts⟩ := placed_step hpeers hmeets.1 hstep
    obtain ⟨picks, hlength, hplaced⟩ := ih t s' (hmeets.2 t hstep) hrest
    refine ⟨peer :: picks, by rw [List.length_cons, hlength, List.length_cons], ?_, ?_, ?_⟩
    · rw [hplaced.sent, hsent, List.append_assoc]
      rfl
    · exact List.forall_mem_cons.mpr ⟨hmem, hplaced.mem⟩
    · intro hroom
      rw [List.length_cons, loads_eq] at hroom
      have hlt : keyLoad s.counts (privatePeerKey P peer) < 2 ^ 64 - 1 := hleast.lt_of_room (by omega)
      have hraise : keyLoad t.counts = Balance.raise (keyLoad s.counts) (privatePeerKey P peer) := by
        rw [hcounts]
        exact keyLoad_record hlt
      have hless := room_raise hkeys hleast.mem hlt
      obtain ⟨hlevels, hloads⟩ := hplaced.levels (by rw [loads_eq, hraise]; omega)
      rw [hraise] at hlevels hloads
      exact ⟨⟨hleast, hlevels⟩, hloads⟩

variable {picks : List PeerId}

theorem count_privatePeerKey (hkeys : (peers.order.map (privatePeerKey P)).Nodup)
    (hpicks : ∀ other ∈ picks, other ∈ peers.order) (hpeer : peer ∈ peers.order) :
    (picks.map (privatePeerKey P)).count (privatePeerKey P peer) = picks.count peer := by
  rw [List.count, List.count, List.countP_map]
  apply List.countP_congr
  intro other hother
  simp only [Function.comp_apply, beq_iff_eq]
  exact ⟨fun h => List.inj_on_of_nodup_map hkeys (hpicks other hother) hpeer h, fun h => by rw [h]⟩

/-- **What a run of picks sends**: to nobody but the peers. -/
theorem Placed.sent_count (hplaced : Placed P peers s s' picks) (hsent : s.sent = []) (peer : PeerId) :
    s'.sent.count (.peer peer) = picks.count peer ∧ Site.requester ∉ s'.sent := by
  rw [hplaced.sent, hsent, List.nil_append]
  refine ⟨List.count_map_of_injective picks Site.peer (fun _ _ h => Site.peer.inj h) peer, ?_⟩
  intro hmem
  obtain ⟨_, _, h⟩ := List.mem_map.mp hmem
  cases h

/-- **The share of a peer**, if there was no history. -/
theorem Placed.share (hplaced : Placed P peers s s' picks)
    (hkeys : (peers.order.map (privatePeerKey P)).Nodup) (hcounts : s.counts = ∅)
    (hroom : 2 ≤ peers.order.length → picks.length ≤ room (2 ^ 64 - 1) (s.loads P peers))
    (hpeer : peer ∈ peers.order) :
    picks.count peer = picks.length / peers.order.length ∨
      picks.count peer = (picks.length + peers.order.length - 1) / peers.order.length := by
  rcases Nat.lt_or_ge peers.order.length 2 with hone | htwo
  · -- a single peer gets everything, whatever the count says
    left
    have hlength : peers.order.length = 1 := by
      have hpos := List.length_pos_of_mem hpeer
      omega
    obtain ⟨only, honly⟩ := List.length_eq_one_iff.mp hlength
    have hall : ∀ other ∈ picks, peer = other := by
      intro other hother
      have hmem := hplaced.mem other hother
      rw [honly, List.mem_singleton] at hmem hpeer
      rw [hmem, hpeer]
    rw [hlength, Nat.div_one]
    exact List.count_eq_length.mpr hall
  · obtain ⟨hlevels, _⟩ := hplaced.levels (hroom htwo)
    have hzero : keyLoad s.counts = fun _ => 0 := by
      rw [hcounts]
      rfl
    rw [hzero] at hlevels
    have hshare := hlevels.share hkeys (List.mem_map_of_mem hpeer)
    rwa [count_privatePeerKey hkeys hplaced.mem hpeer, List.length_map, List.length_map] at hshare

/-- **Placement is even as long as no count overflows.**  In every run of calls over a fixed set of peers
that all accept, the assignments spread by no more than they did at the start, or by one; from an empty
history every peer is sent the number of calls divided by the number of peers, rounded down or up, and the
requester nothing.  A single peer cannot be treated unevenly; two or more must have room for the calls. -/
theorem placement_balanced {calls : List PlacementCall}
    (hkeys : (peers.order.map (privatePeerKey P)).Nodup)
    (haccept : Runs.Meets (W.placementStep own codec handle) (W.AllAccept own codec peers) s calls)
    (hrun : Runs.run (W.placementStep own codec handle) s calls = some s')
    (hroom : 2 ≤ peers.order.length → calls.length ≤ room (2 ^ 64 - 1) (s.loads P peers)) :
    spread (s'.loads P peers) ≤ max 1 (spread (s.loads P peers)) ∧
      (s.counts = ∅ → s.sent = [] → peers.order ≠ [] →
        (∀ peer ∈ peers.order, s'.sent.count (.peer peer) = calls.length / peers.order.length ∨
          s'.sent.count (.peer peer) =
            (calls.length + peers.order.length - 1) / peers.order.length) ∧
        Site.requester ∉ s'.sent) := by
  constructor
  · rcases Nat.lt_or_ge peers.order.length 2 with hone | htwo
    · have hlength : (s'.loads P peers).length ≤ 1 := by
        rw [Placement.loads, List.length_map]
        omega
      rw [spread_of_length_le_one hlength]
      exact Nat.zero_le _
    · have hpeers : peers.order ≠ [] := by
        intro hnil
        rw [hnil] at htwo
        cases htwo
      obtain ⟨picks, hlength, hplaced⟩ := placed_run hpeers hkeys calls s s' haccept hrun
      obtain ⟨hlevels, hloads⟩ := hplaced.levels (by rw [hlength]; exact hroom htwo)
      have hstart : Within (max 1 (spread (s.loads P peers))) (peers.order.map (privatePeerKey P))
          (keyLoad s.counts) := by
        rw [← spread_le_iff, ← loads_eq]
        exact le_max_right _ _
      rw [loads_eq s', spread_le_iff, hloads]
      exact hlevels.within (le_max_left _ _) _ _ hstart
  · intro hcounts hsent hpeers
    obtain ⟨picks, hlength, hplaced⟩ := placed_run hpeers hkeys calls s s' haccept hrun
    obtain ⟨first, hfirst⟩ := List.exists_mem_of_ne_nil _ hpeers
    refine ⟨?_, (hplaced.sent_count hsent first).2⟩
    intro peer hpeer
    rw [(hplaced.sent_count hsent peer).1, ← hlength]
    exact hplaced.share hkeys hcounts (by rw [hlength]; exact hroom) hpeer

/-! ### Sample runs -/

section Samples

open Sample

/-- Every peer executes the task of the sample, under its own key; a conversation takes five requests. -/
def accepting : Surroundings primitives ℕ where
  toPeerId := PeerId.mk
  now := fun n => (7, n)
  request := fun peer _ n =>
    match (SignedEnvelope.seal [UInt8.ofNat (n % 5)] (identity peer.bytes)).toOption with
    | none => (.error "timeout", n + 1)
    | some envelope => (.ok envelope, n + 1)
  recordSuccess := fun _ n => (true, n)
  recordFailure := fun _ _ n => (true, n)
  countOrder := id

def acceptingPeers : PeerSet := ⟨[⟨[8]⟩, ⟨[9]⟩], by decide⟩

/-- A call for a number and one for its bytes. -/
def bestCall : PlacementCall := .best acceptingPeers replicatedTask [1] 5

def bestBytesCall : PlacementCall := .bestBytes ⟨[⟨[9]⟩, ⟨[8]⟩], by decide⟩ replicatedTask [1] (leBytes 5)

/-- Both peers with the same count. -/
def evenCounts (count : UInt64) : PlacementCounts :=
  (AList.insert (privatePeerKey primitives ⟨[8]⟩) count ∅).insert (privatePeerKey primitives ⟨[9]⟩) count

def acceptingStep : Placement ℕ → PlacementCall → Option (Placement ℕ) :=
  accepting.placementStep (identity [3]) (scriptedCodec ownKeys) fun _ n => (.error .unexpectedResponse, n)

/-- Three calls over two peers. -/
theorem three_calls_two_peers : ∃ s', Runs.run acceptingStep ⟨∅, 0, []⟩
      [bestCall, bestBytesCall, bestCall] = some s' ∧
    spread (s'.loads primitives acceptingPeers) ≤ 1 ∧
    (∀ peer ∈ acceptingPeers.order, s'.sent.count (.peer peer) = 1 ∨ s'.sent.count (.peer peer) = 2) ∧
    Site.requester ∉ s'.sent := by
  have hkeys : (acceptingPeers.order.map (privatePeerKey primitives)).Nodup := by decide +kernel
  have hmeets : Runs.Meets acceptingStep (accepting.AllAccept (identity [3]) (scriptedCodec ownKeys)
      acceptingPeers) ⟨∅, 0, []⟩ [bestCall, bestBytesCall, bestCall] := by
    decide +kernel
  obtain ⟨s', hrun⟩ : ∃ s', Runs.run acceptingStep ⟨∅, 0, []⟩
      [bestCall, bestBytesCall, bestCall] = some s' := ⟨_, rfl⟩
  obtain ⟨hspread, hshare⟩ := placement_balanced hkeys hmeets hrun (fun _ => by decide +kernel)
  exact ⟨s', hrun, hspread, hshare rfl rfl (by decide)⟩

/-- **A count that wraps.**  Both peers stand at the last value of the count and accept; one call takes one
of them back to zero. -/
theorem full_counts_wrap : ∃ s', Runs.run acceptingStep ⟨evenCounts (2 ^ 64 - 1), 0, []⟩ [bestCall] = some s' ∧
    (acceptingPeers.order.map (privatePeerKey primitives)).Nodup ∧
    Runs.Meets acceptingStep (accepting.AllAccept (identity [3]) (scriptedCodec ownKeys) acceptingPeers)
      ⟨evenCounts (2 ^ 64 - 1), 0, []⟩ [bestCall] ∧
    max 1 (spread ((⟨evenCounts (2 ^ 64 - 1), 0, []⟩ : Placement ℕ).loads primitives acceptingPeers)) = 1 ∧
    spread (s'.loads primitives acceptingPeers) = 2 ^ 64 - 1 := by
  have hrun : (Runs.run acceptingStep ⟨evenCounts (2 ^ 64 - 1), 0, []⟩ [bestCall]).map
      (fun s' => spread (s'.loads primitives acceptingPeers)) = some (2 ^ 64 - 1) := by
    decide +kernel
  obtain ⟨s', hs', hspread⟩ := Option.map_eq_some_iff.mp hrun
  exact ⟨s', hs', by decide +kernel, by decide +kernel, by decide +kernel, hspread⟩

end Samples

end Peerless.Node
