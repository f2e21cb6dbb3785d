import Peerless.Node.Verified
import Peerless.Storage
import Peerless.Lib.Poll

/-!
# Replication

`replicate_p2p` sends a content to candidates of the caller's choice until enough have acknowledged it;
`repair_replication_p2p` asks the known replicas whether they still have it and transfers it to connected
peers until enough do.  The first counts in a list, the second in a set.

* `replicate_counted_iff` — `replicate_p2p` counts distinct nodes under every pattern of
  acknowledgements exactly if no candidate is listed twice, or it does not matter.
-/

namespace Peerless.Node

open Text Inquiry Poll Peerless.Core Identity Protocol Storage
open Network (PeerId)

variable {P : Primitives} {σ : Type}

/-! ### The two functions -/

structure ReplicationPolicy where
  minimumReplicas : UInt8
  targetReplicas : UInt8
  deriving DecidableEq

def ReplicationPolicy.validate (policy : ReplicationPolicy) : Bool :=
  policy.minimumReplicas > 0 ∧ policy.targetReplicas ≥ policy.minimumReplicas

/-- `usize::from(target_replicas.saturating_sub(1))`. -/
def ReplicationPolicy.targetRemote (policy : ReplicationPolicy) : ℕ := policy.targetReplicas.toNat - 1

inductive ReplicationError where
  | insufficientReplicas (actual : ℕ) (minimum : UInt8)
  | cas (e : CasError)
  deriving DecidableEq

/-- A hash set of peers, or the keys of a hash map, in its iteration order. -/
structure PeerSet where
  order : List PeerId
  distinct : order.Nodup

structure ReplicationReport where
  content : ContentId
  liveReplicas : Finset PeerId
  repaired : List PeerId

/-- `replicate_p2p`: `content` is what the store has, `agree` whether a peer acknowledges the bytes. -/
def replicateWith (policy : ReplicationPolicy) (content : Except CasError Bytes)
    (agree : Bytes → PeerId → σ → Bool × σ) (peers : List PeerId) (s : σ) :
    Except ReplicationError (List PeerId) × σ :=
  if !policy.validate then (.error (.insufficientReplicas 0 policy.minimumReplicas), s)
  else
    match content with
    | .error err => (.error (.cas err), s)
    | .ok bytes =>
      let (replicas, s') := pollList (agree bytes) policy.targetRemote peers s
      if replicas.length + 1 < policy.minimumReplicas.toNat then
        (.error (.insufficientReplicas (replicas.length + 1) policy.minimumReplicas), s')
      else (.ok replicas, s')

/-- The loop over the known replicas. -/
def stillLive (check : PeerId → σ → Bool × σ) (known : PeerSet) (s : σ) : Finset PeerId × σ :=
  poll check (fun _ => false) (fun _ _ => false) (fun live peer => insert peer live) known.order ∅ s

/-- What the loop over the connected peers keeps account of. -/
structure Repairing where
  live : Finset PeerId
  repaired : List PeerId

def Repairing.add (r : Repairing) (peer : PeerId) : Repairing := ⟨insert peer r.live, r.repaired ++ [peer]⟩

/-- The loop over the connected peers. -/
def repairing (policy : ReplicationPolicy) (transfer : PeerId → σ → Bool × σ) (connected : PeerSet)
    (live : Finset PeerId) (s : σ) : Repairing × σ :=
  poll transfer (fun r : Repairing => decide (r.live.card ≥ policy.targetRemote))
    (fun r peer => decide (peer ∈ r.live)) Repairing.add connected.order ⟨live, []⟩ s

/-- `repair_replication_p2p`: also the known replicas after the call.  `connected` is what the network
returns when it is asked for its peers. -/
def repairWith (policy : ReplicationPolicy) (id : ContentId) (content : Except CasError Bytes)
    (check : PeerId → σ → Bool × σ) (connected : σ → PeerSet) (transfer : Bytes → PeerId → σ → Bool × σ)
    (known : PeerSet) (s : σ) : Except ReplicationError ReplicationReport × Finset PeerId × σ :=
  if !policy.validate then
    (.error (.insufficientReplicas 0 policy.minimumReplicas), known.order.toFinset, s)
  else
    let (live, s₁) := stillLive check known s
    match content with
    | .error err => (.error (.cas err), known.order.toFinset, s₁)
    | .ok bytes =>
      let (r, s₂) := repairing policy (transfer bytes) (connected s₁) live s₁
      if r.live.card + 1 < policy.minimumReplicas.toNat then
        (.error (.insufficientReplicas (r.live.card + 1) policy.minimumReplicas), r.live, s₂)
      else (.ok ⟨id, r.live, r.repaired⟩, r.live, s₂)

namespace Surroundings

variable (W : Surroundings P σ) (own : NodeIdentity P) (codec : MessageCodec)

/-- The peer answers the message with `HasContent` of this content. -/
def acknowledges (message : Message) (id : ContentId) (peer : PeerId) (s : σ) : Bool × σ :=
  match answer ((W.requester own codec peer).exchange message) s with
  | (.ok (.hasContent found), s') => (decide (found = id), s')
  | (_, s') => (false, s')

/-- `transfer_content_via` succeeds. -/
def transfers (id : ContentId) (bytes : Bytes) (peer : PeerId) (s : σ) : Bool × σ :=
  match answer ((W.requester own codec peer).transferContentVia id bytes) s with
  | (.ok (), s') => (true, s')
  | (.error _, s') => (false, s')

variable (files : Cas) (id : ContentId) (policy : ReplicationPolicy)

/-- `PeerlessNode::replicate_p2p`. -/
def replicateP2p (peers : List PeerId) (s : σ) : Except ReplicationError (List PeerId) × σ :=
  replicateWith policy (files.get P id) (fun bytes => W.acknowledges own codec (.content id bytes) id)
    peers s

/-- `PeerlessNode::repair_replication_p2p`. -/
def repairReplicationP2p (connected : σ → PeerSet) (known : PeerSet) (s : σ) :
    Except ReplicationError ReplicationReport × Finset PeerId × σ :=
  repairWith policy id (files.get P id) (W.acknowledges own codec (.checkContent id) id) connected
    (W.transfers own codec id) known s

/-- The peer id of the caller. -/
def caller : PeerId := W.toPeerId (P.publicKey own.keypair)

/-- **The assumption on libp2p**: a node cannot dial itself. -/
def NoSelfDial : Prop := ∀ envelope s, ∃ reason, (W.request (W.caller own) envelope s).1 = .error reason

end Surroundings

/-! ### What `Ok` is to mean -/

/-- The acknowledgements in a call, and what it reports of them: exactly those peers, enough of them with
the caller, and no more than are asked for or were there. -/
structure Counted (policy : ReplicationPolicy) (caller : PeerId) (attempts : List (PeerId × Bool))
    (reported : Finset PeerId) (already : ℕ) : Prop where
  exact : ∀ peer, peer ∈ reported ↔ (peer, true) ∈ attempts
  enough : policy.minimumReplicas.toNat ≤ (insert caller reported).card
  bounded : reported.card ≤ max policy.targetRemote already

/-! ### Counting in a list -/

/-- The candidates other than the caller. -/
def others (caller : PeerId) (peers : List PeerId) : List PeerId := peers.filter fun peer => peer ≠ caller

/-- **The condition on the candidates**: none but the caller is listed twice; or two nodes are enough, or
there are not enough candidates for an `Ok`. -/
def DistinctCandidates (policy : ReplicationPolicy) (caller : PeerId) (peers : List PeerId) : Prop :=
  policy.minimumReplicas.toNat ≤ 2 ∨ (others caller peers).Nodup ∨
    (others caller peers).length + 1 < policy.minimumReplicas.toNat

instance (policy : ReplicationPolicy) (caller : PeerId) (peers : List PeerId) :
    Decidable (DistinctCandidates policy caller peers) :=
  inferInstanceAs (Decidable (_ ∨ _ ∨ _))

variable {policy : ReplicationPolicy} {caller : PeerId} {peers : List PeerId}

variable {s s' : σ}

theorem replicateWith_ok {content : Except CasError Bytes} {agree : Bytes → PeerId → σ → Bool × σ}
    {replicas : List PeerId} (h : replicateWith policy content agree peers s = (.ok replicas, s')) :
    ∃ bytes, content = .ok bytes ∧
      replicas = (pollList (agree bytes) policy.targetRemote peers s).1 ∧
      policy.minimumReplicas.toNat ≤ replicas.length + 1 := by
  unfold replicateWith at h
  split at h
  · cases h
  · split at h
    · cases h
    · rename_i bytes
      dsimp only at h
      split at h
      · cases h
      · rename_i hmin
        obtain ⟨hreplicas, _⟩ := Prod.mk.inj h
        rw [← Except.ok.inj hreplicas]
        exact ⟨bytes, rfl, rfl, Nat.le_of_not_lt hmin⟩

/-- Those that agree are candidates other than the caller. -/
theorem pollList_others {agree : PeerId → σ → Bool × σ} {room : ℕ}
    (hmute : ∀ s, (agree caller s).1 = false) :
    (pollList agree room peers s).1.Sublist (others caller peers) := by
  have hcaller : ∀ peer ∈ (pollList agree room peers s).1, peer ≠ caller := by
    rintro peer hpeer rfl
    rw [pollList_eq, mem_agreed] at hpeer
    obtain ⟨s', hs'⟩ := answer_of_asked agree _ _ _ peers [] s peer true hpeer
    rw [hmute s'] at hs'
    cases hs'
  have hsub : (pollList agree room peers s).1.Sublist peers := pollList_sublist
  have hfilter := hsub.filter fun peer => decide (peer ≠ caller)
  rw [List.filter_eq_self.mpr fun peer hpeer => decide_eq_true (hcaller peer hpeer)] at hfilter
  exact hfilter

theorem counted_of_distinct {agree : PeerId → σ → Bool × σ} (hmute : ∀ s, (agree caller s).1 = false)
    (hdistinct : DistinctCandidates policy caller peers)
    (hmin : policy.minimumReplicas.toNat ≤
      (pollList agree policy.targetRemote peers s).1.length + 1) :
    Counted policy caller (askedList agree policy.targetRemote peers s)
      (pollList agree policy.targetRemote peers s).1.toFinset 0 := by
  have hsub : (pollList agree policy.targetRemote peers s).1.Sublist (others caller peers) :=
    pollList_others hmute
  have hcaller : caller ∉ (pollList agree policy.targetRemote peers s).1.toFinset := by
    intro hmem
    have hne := (List.mem_filter.mp (hsub.subset (List.mem_toFinset.mp hmem))).2
    exact of_decide_eq_true hne rfl
  have hroom : (pollList agree policy.targetRemote peers s).1.length ≤ policy.targetRemote :=
    pollList_length
  have hcard := List.toFinset_card_le (pollList agree policy.targetRemote peers s).1
  constructor
  · intro peer
    rw [List.mem_toFinset, pollList_eq, mem_agreed]
  · rw [Finset.card_insert_of_notMem hcaller]
    rcases hdistinct with htwo | hnodup | hfew
    · by_cases hempty : (pollList agree policy.targetRemote peers s).1 = []
      · rw [hempty, List.length_nil] at hmin
        omega
      · have hpos : 0 < (pollList agree policy.targetRemote peers s).1.toFinset.card :=
          Finset.card_pos.mpr (List.toFinset_nonempty_iff _ |>.mpr hempty)
        omega
    · rw [List.toFinset_card_of_nodup (hnodup.sublist hsub)]
      exact hmin
    · have hlength := hsub.length_le
      omega
  · omega

/-- **When `replicate_p2p` counts distinct nodes.** -/
theorem replicate_iff (hvalid : policy.validate = true) (bytes : Bytes) :
    (∀ (σ : Type) (agree : PeerId → σ → Bool × σ) (s s' : σ) (replicas : List PeerId),
      (∀ s, (agree caller s).1 = false) →
      replicateWith policy (.ok bytes) (fun _ => agree) peers s = (.ok replicas, s') →
        Counted policy caller (askedList agree policy.targetRemote peers s) replicas.toFinset 0) ↔
      DistinctCandidates policy caller peers := by
  constructor
  · intro hall
    by_contra hrepeated
    unfold DistinctCandidates at hrepeated
    rw [not_or, not_or] at hrepeated
    obtain ⟨hthree, hnodup, hmany⟩ := hrepeated
    obtain ⟨hpositive, htarget⟩ := of_decide_eq_true hvalid
    have htarget : policy.minimumReplicas.toNat ≤ policy.targetReplicas.toNat :=
      UInt8.le_iff_toNat_le.mp htarget
    -- as many acknowledgements as are needed, with one peer among them twice
    obtain ⟨chosen, hchosen, hlength, hcard⟩ := exists_repeated hnodup
      (show 2 ≤ policy.minimumReplicas.toNat - 1 by omega) (by omega)
    have hroom : ([] : List PeerId).length + chosen.length ≤ policy.targetRemote := by
      rw [List.length_nil, hlength, ReplicationPolicy.targetRemote]
      omega
    obtain ⟨script, hscript⟩ := exists_script caller peers [] chosen hchosen hroom
    rw [List.nil_append] at hscript
    have hok : replicateWith policy (.ok bytes) (fun _ => Poll.scripted caller) peers script =
        (.ok chosen, (pollList (Poll.scripted caller) policy.targetRemote peers script).2) := by
      unfold replicateWith
      rw [hvalid]
      dsimp only
      rw [show (pollList (Poll.scripted caller) policy.targetRemote peers script).1 = chosen from hscript]
      rw [Bool.not_true, if_neg Bool.false_ne_true, if_neg (by omega)]
    have hcounted := hall (List Bool) (Poll.scripted caller) script _ chosen ?_ hok
    · have henough := hcounted.enough
      have hinsert := Finset.card_insert_le caller chosen.toFinset
      omega
    · intro script
      rw [Poll.scripted, if_pos rfl]
  · intro hdistinct σ agree s s' replicas hmute hok
    obtain ⟨_, _, rfl, hmin⟩ := replicateWith_ok hok
    exact counted_of_distinct hmute hdistinct hmin

/-! ### Counting in a set -/

theorem foldl_insert (live : Finset PeerId) : ∀ l : List PeerId,
    l.foldl (fun live peer => insert peer live) live = live ∪ l.toFinset := by
  intro l
  induction l generalizing live with
  | nil => rw [List.toFinset_nil, Finset.union_empty]; rfl
  | cons peer l ih =>
    rw [List.foldl_cons, ih, List.toFinset_cons, Finset.insert_union, Finset.union_insert]

theorem foldl_add (r : Repairing) : ∀ l : List PeerId,
    (l.foldl Repairing.add r).live = r.live ∪ l.toFinset := by
  intro l
  induction l generalizing r with
  | nil => rw [List.toFinset_nil, Finset.union_empty]; rfl
  | cons peer l ih =>
    rw [List.foldl_cons, ih, List.toFinset_cons, Repairing.add, Finset.insert_union, Finset.union_insert]

/-- The peers that are asked in a repair, with their answers: the known replicas, then those to which
the content is transferred. -/
def repairAttempts (policy : ReplicationPolicy) (check transfer : PeerId → σ → Bool × σ)
    (connected : σ → PeerSet) (known : PeerSet) (s : σ) : List (PeerId × Bool) :=
  asked check (fun _ => false) (fun _ _ => false) (fun live peer => insert peer live) known.order
      (∅ : Finset PeerId) s ++
    asked transfer (fun r : Repairing => decide (r.live.card ≥ policy.targetRemote))
      (fun r peer => decide (peer ∈ r.live)) Repairing.add (connected (stillLive check known s).2).order
      ⟨(stillLive check known s).1, []⟩ (stillLive check known s).2

/-- The peers that have the content in the end are those that acknowledged it. -/
theorem mem_repairing {check transfer : PeerId → σ → Bool × σ} {connected : σ → PeerSet} {known : PeerSet}
    {peer : PeerId} :
    peer ∈ (repairing policy transfer (connected (stillLive check known s).2)
        (stillLive check known s).1 (stillLive check known s).2).1.live ↔
      (peer, true) ∈ repairAttempts policy check transfer connected known s := by
  have hlive : (stillLive check known s).1 = (agreed (asked check (fun _ => false) (fun _ _ => false)
      (fun live peer => insert peer live) known.order (∅ : Finset PeerId) s)).toFinset := by
    rw [stillLive, poll_eq, foldl_insert, Finset.empty_union]
  rw [repairing, poll_eq, foldl_add, Finset.mem_union, List.mem_toFinset, mem_agreed, repairAttempts,
    List.mem_append]
  refine or_congr ?_ Iff.rfl
  show peer ∈ (stillLive check known s).1 ↔ _
  rw [hlive, List.mem_toFinset, mem_agreed]

theorem repairing_card {transfer : PeerId → σ → Bool × σ} {connected : PeerSet} {live : Finset PeerId} :
    (repairing policy transfer connected live s).1.live.card ≤
      max policy.targetRemote live.card := by
  refine poll_invariant transfer _ _ _ (I := fun r : Repairing => r.live.card ≤
    max policy.targetRemote live.card) ?_ connected.order ⟨live, []⟩ s (le_max_right _ _)
  intro r peer _ hfull _
  rw [decide_eq_false_iff_not] at hfull
  have hinsert : (r.add peer).live.card ≤ r.live.card + 1 := Finset.card_insert_le peer r.live
  omega

/-- **`repair_replication_p2p` counts distinct nodes.** -/
theorem repair_counted {content : Except CasError Bytes} {id : ContentId} {check : PeerId → σ → Bool × σ}
    {connected : σ → PeerSet} {transfer : Bytes → PeerId → σ → Bool × σ} {known : PeerSet}
    {known' : Finset PeerId} {report : ReplicationReport} (hcheck : ∀ s, (check caller s).1 = false)
    (htransfer : ∀ bytes s, (transfer bytes caller s).1 = false)
    (h : repairWith policy id content check connected transfer known s = (.ok report, known', s')) :
    ∃ bytes, content = .ok bytes ∧ known' = report.liveReplicas ∧
      Counted policy caller (repairAttempts policy check (transfer bytes) connected known s)
        report.liveReplicas (stillLive check known s).1.card := by
  unfold repairWith at h
  split at h
  · cases h
  · dsimp only at h
    split at h
    · cases h
    · rename_i bytes
      split at h
      · cases h
      · rename_i hmin
        obtain ⟨hreport, hrest⟩ := Prod.mk.inj h
        obtain ⟨rfl, _⟩ := Prod.mk.inj hrest
        obtain rfl := Except.ok.inj hreport
        have hcaller : caller ∉ (repairing policy (transfer bytes)
            (connected (stillLive check known s).2) (stillLive check known s).1
            (stillLive check known s).2).1.live := by
          rw [mem_repairing, repairAttempts, List.mem_append]
          rintro (hmem | hmem)
          · obtain ⟨s₁, hs₁⟩ := answer_of_asked check _ _ _ _ _ _ _ _ hmem
            rw [hcheck s₁] at hs₁
            cases hs₁
          · obtain ⟨s₁, hs₁⟩ := answer_of_asked (transfer bytes) _ _ _ _ _ _ _ _ hmem
            rw [htransfer bytes s₁] at hs₁
            cases hs₁
        refine ⟨bytes, rfl, rfl, fun peer => mem_repairing, ?_, repairing_card⟩
        rw [Finset.card_insert_of_notMem hcaller]
        exact Nat.le_of_not_lt hmin

/-! ### Over a network -/

variable {W : Surroundings P σ} {own : NodeIdentity P} {codec : MessageCodec}

theorem exchange_self (hdial : W.NoSelfDial own) {message reply : Message} :
    answer ((W.requester own codec (W.caller own)).exchange message) s ≠ (.ok reply, s') := by
  intro hexchange
  unfold Requester.exchange at hexchange
  split at hexchange
  · cases hexchange
  · rename_i envelope _
    obtain ⟨response, s₁, hsend, _⟩ := answer_bind_ok.mp hexchange
    obtain ⟨reason, hrequest⟩ := hdial envelope s
    rw [(sendTo_ok hsend).1] at hrequest
    cases hrequest

theorem acknowledges_self (hdial : W.NoSelfDial own) (message : Message) (id : ContentId) (s : σ) :
    (W.acknowledges own codec message id (W.caller own) s).1 = false := by
  unfold Surroundings.acknowledges
  split
  · rename_i hanswer
    exact absurd hanswer (exchange_self hdial)
  · rfl

theorem transfers_self (hdial : W.NoSelfDial own) (id : ContentId) (bytes : Bytes) (s : σ) :
    (W.transfers own codec id bytes (W.caller own) s).1 = false := by
  unfold Surroundings.transfers
  split
  · rename_i hanswer
    unfold Requester.transferContentVia at hanswer
    split at hanswer
    · cases hanswer
    · split at hanswer
      · obtain ⟨_, _, hexchange, _⟩ := answer_bind_ok.mp hanswer
        exact absurd hexchange (exchange_self hdial)
      · obtain ⟨_, _, hexchange, _⟩ := answer_bind_ok.mp hanswer
        exact absurd hexchange (exchange_self hdial)
  · rfl

/-- **What an `Ok` means.**  For any candidates, the nodes that `replicate_p2p` counts are distinct under
every pattern of acknowledgements if and only if the candidates meet the condition; over a network it
then counts distinct nodes, and `repair_replication_p2p` does in any case. -/
theorem replicate_counted_iff (hvalid : policy.validate = true) :
    (∀ (caller : PeerId) (peers : List PeerId) (bytes : Bytes),
      (∀ (σ : Type) (agree : PeerId → σ → Bool × σ) (s s' : σ) (replicas : List PeerId),
        (∀ s, (agree caller s).1 = false) →
        replicateWith policy (.ok bytes) (fun _ => agree) peers s = (.ok replicas, s') →
          Counted policy caller (askedList agree policy.targetRemote peers s) replicas.toFinset 0) ↔
        DistinctCandidates policy caller peers) ∧
    (∀ (W : Surroundings P σ) (own : NodeIdentity P) (codec : MessageCodec) (files : Cas)
        (id : ContentId) (peers replicas : List PeerId) (s s' : σ), W.NoSelfDial own →
      DistinctCandidates policy (W.caller own) peers →
      W.replicateP2p own codec files id policy peers s = (.ok replicas, s') →
      ∃ bytes, files.get P id = .ok bytes ∧ Counted policy (W.caller own)
        (askedList (W.acknowledges own codec (.content id bytes) id) policy.targetRemote peers s)
        replicas.toFinset 0) ∧
    (∀ (W : Surroundings P σ) (own : NodeIdentity P) (codec : MessageCodec) (files : Cas)
        (id : ContentId) (connected : σ → PeerSet) (known : PeerSet) (known' : Finset PeerId)
        (report : ReplicationReport) (s s' : σ), W.NoSelfDial own →
      W.repairReplicationP2p own codec files id policy connected known s = (.ok report, known', s') →
      ∃ bytes, files.get P id = .ok bytes ∧ known' = report.liveReplicas ∧
        Counted policy (W.caller own) (repairAttempts policy
          (W.acknowledges own codec (.checkContent id) id) (W.transfers own codec id bytes) connected
          known s) report.liveReplicas
          (stillLive (W.acknowledges own codec (.checkContent id) id) known s).1.card) := by
  refine ⟨fun caller peers bytes => replicate_iff hvalid bytes, ?_, ?_⟩
  · intro W own codec files id peers replicas s s' hdial hdistinct hok
    obtain ⟨bytes, hbytes, rfl, hmin⟩ := replicateWith_ok hok
    exact ⟨bytes, hbytes, counted_of_distinct (acknowledges_self hdial _ id) hdistinct hmin⟩
  · intro W own codec files id connected known known' report s s' hdial hok
    exact repair_counted (acknowledges_self hdial _ id) (fun bytes => transfers_self hdial id bytes) hok

/-! ### Sample runs -/

section Samples

open Sample

def heldContent : ContentId := ContentId.of primitives [1]

def heldFiles : Cas := AList.insert heldContent [1] ∅

/-- Peers that acknowledge whatever is sent. -/
def holdingCodec : MessageCodec := ⟨fun _ => [], fun _ => some (.hasContent heldContent)⟩

/-- Every peer but the caller answers. -/
def holding : Surroundings primitives Unit where
  toPeerId := PeerId.mk
  now := fun s => (7, s)
  request := fun peer _ s =>
    match (if peer = ⟨[3]⟩ then none else (SignedEnvelope.seal [] (identity peer.bytes)).toOption) with
    | none => (.error "dial failed", s)
    | some envelope => (.ok envelope, s)
  recordSuccess := fun _ s => (true, s)
  recordFailure := fun _ _ s => (true, s)
  countOrder := id

/-- Replication of the content to the given candidates. -/
def heldBy (policy : ReplicationPolicy) (peers : List PeerId) :
    Except ReplicationError (List PeerId) × Unit :=
  holding.replicateP2p (identity [3]) holdingCodec heldFiles heldContent policy peers ()

theorem two_peers_replicate : ∃ replicas,
    heldBy ⟨3, 3⟩ [⟨[8]⟩, ⟨[9]⟩] = (.ok replicas, ()) ∧
      3 ≤ (insert (⟨[3]⟩ : PeerId) replicas.toFinset).card := by
  have hvalid : (⟨3, 3⟩ : ReplicationPolicy).validate = true := rfl
  have hcall : (heldBy ⟨3, 3⟩ [⟨[8]⟩, ⟨[9]⟩]).1.toOption.map List.length = some 2 := by
    decide +kernel
  have hdial : holding.NoSelfDial (identity [3]) := fun envelope s => ⟨"dial failed", rfl⟩
  obtain ⟨replicas, s', hok, _⟩ := ok_of_map hcall
  obtain ⟨_, _, hcounted⟩ := (replicate_counted_iff hvalid).2.1 holding (identity [3]) holdingCodec
    heldFiles heldContent _ replicas () s' hdial (by decide) hok
  exact ⟨replicas, hok, hcounted.enough⟩

/-- **One peer, two replicas.**  The candidate is listed twice and acknowledges twice; three replicas are
required and reported, and two nodes have the content. -/
theorem one_peer_replicates_twice :
    heldBy ⟨3, 3⟩ [⟨[8]⟩, ⟨[8]⟩] = (.ok [⟨[8]⟩, ⟨[8]⟩], ()) ∧
      (insert (⟨[3]⟩ : PeerId) [(⟨[8]⟩ : PeerId), ⟨[8]⟩].toFinset).card = 2 := by
  have hcall : (heldBy ⟨3, 3⟩ [⟨[8]⟩, ⟨[8]⟩]).1.toOption.map (fun replicas =>
      decide (replicas = [⟨[8]⟩, ⟨[8]⟩])) = some true := by
    decide +kernel
  obtain ⟨replicas, s', hok, hreplicas⟩ := ok_of_map hcall
  rw [of_decide_eq_true hreplicas] at hok
  exact ⟨hok, by decide⟩

end Samples

end Peerless.Node
