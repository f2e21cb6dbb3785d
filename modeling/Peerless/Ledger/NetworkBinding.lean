import Peerless.Ledger.Leader

/-!
# What a quorum approval is bound to

The members sign `proposal_bytes`, which do not contain the network id; `verify` compares the id in
the block's proof with the engine's own, and that id is not signed.  So an approval collected for one
network is an approval for every network in which its signers are members.

* `network_bound_iff` — approvals made under one engine are worthless under another
  exactly when the two engines share fewer members than the second one's quorum.
-/

namespace Peerless.Chain

open Text Peerless.Core Identity Sample

variable {P : Primitives}

/-- One of the two engines of the crate. -/
inductive AnyEngine where
  | quorum (e : QuorumConsensus)
  | bft (e : BftConsensus)

/-- The member set, network id and quorum of an engine. -/
def AnyEngine.inner : AnyEngine → QuorumConsensus
  | .quorum e => e
  | .bft e => e.inner

/-- The engine behind the trait. -/
def AnyEngine.engine (P : Primitives) : AnyEngine → ConsensusEngine P
  | .quorum e => e.engine P
  | .bft e => e.engine P

/-- The entry was produced by a call of `finalize`: the block had no entries before. -/
def SignedUnder (P : Primitives) (e : AnyEngine) (s : ConsensusSignature) : Prop :=
  ∃ (b : Block) (approvals : List (NodeIdentity P)), b.consensus.signatures = [] ∧
    s ∈ ((e.engine P).finalize b approvals).1.consensus.signatures

/-- The members of both engines. -/
def commonMembers (e₁ e₂ : AnyEngine) : Finset NodeId :=
  e₁.inner.members.ids.toFinset ∩ e₂.inner.members.ids.toFinset

/-! ### What `finalize` adds -/

/-- The entry of an approving member. -/
structure EntryOf (P : Primitives) (e : QuorumConsensus) (payload : Bytes) (i : NodeIdentity P)
    (s : ConsensusSignature) : Prop where
  member : i.nodeId ∈ e.members.ids
  signer : s.signer = i.nodeId
  publicKey : s.publicKey = i.publicKeyDer
  valid : Identity.verify P s.publicKey payload s.signature = .ok true

/-- **The loop of `finalize`**: one valid entry for every distinct member among the approvals. -/
theorem QuorumConsensus.collect_lawful (hP : P.Lawful) (e : QuorumConsensus) (payload : Bytes) :
    ∀ (approvals : List (NodeIdentity P)) (signatures : List ConsensusSignature)
      (seen : Finset NodeId), ∃ added,
      e.collect payload signatures seen approvals = (signatures ++ added, .ok ()) ∧
      (∀ s ∈ added, ∃ i ∈ approvals, EntryOf P e payload i s) ∧
      ∀ i ∈ approvals, i.nodeId ∈ e.members.ids → i.nodeId ∉ seen →
        ∃ s ∈ added, s.signer = i.nodeId := by
  intro approvals
  induction approvals with
  | nil =>
    intro signatures seen
    exact ⟨[], by rw [collect, List.append_nil], by simp, by simp⟩
  | cons i approvals ih =>
    intro signatures seen
    by_cases hi : i.nodeId ∈ e.members.ids ∧ i.nodeId ∉ seen
    · obtain ⟨g, hsign, hver⟩ := verify_sign hP i payload
      obtain ⟨added, hadded, hfrom, hall⟩ :=
        ih (signatures ++ [⟨i.nodeId, i.publicKeyDer, g⟩]) (insert i.nodeId seen)
      refine ⟨⟨i.nodeId, i.publicKeyDer, g⟩ :: added, ?_, ?_, ?_⟩
      · rw [collect, if_pos hi, hsign]
        simp only [hadded, List.append_assoc, List.singleton_append]
      · intro s hs
        rcases List.mem_cons.mp hs with rfl | hs
        · exact ⟨i, List.mem_cons_self, hi.1, rfl, rfl, hver⟩
        · obtain ⟨j, hj, hentry⟩ := hfrom s hs
          exact ⟨j, List.mem_cons_of_mem _ hj, hentry⟩
      · intro j hj hmem hseen
        by_cases heq : j.nodeId = i.nodeId
        · exact ⟨_, List.mem_cons_self, heq.symm⟩
        · have hj' : j ∈ approvals :=
            (List.mem_cons.mp hj).resolve_left fun h => heq (by rw [h])
          obtain ⟨s, hs, hsj⟩ := hall j hj' hmem (by simp [heq, hseen])
          exact ⟨s, List.mem_cons_of_mem _ hs, hsj⟩
    · obtain ⟨added, hadded, hfrom, hall⟩ := ih signatures seen
      refine ⟨added, by rw [collect, if_neg hi, hadded], ?_, ?_⟩
      · intro s hs
        obtain ⟨j, hj, hentry⟩ := hfrom s hs
        exact ⟨j, List.mem_cons_of_mem _ hj, hentry⟩
      · intro j hj hmem hseen
        have hj' : j ∈ approvals :=
          (List.mem_cons.mp hj).resolve_left fun h => hi (by rw [← h]; exact ⟨hmem, hseen⟩)
        exact hall j hj' hmem hseen

theorem QuorumConsensus.finalize_signatures (hP : P.Lawful) (e : QuorumConsensus) (b : Block)
    (approvals : List (NodeIdentity P)) :
    (∀ s ∈ (e.finalize b approvals).1.consensus.signatures,
      ∃ i ∈ approvals, EntryOf P e b.proposalBytes i s) ∧
    ∀ i ∈ approvals, i.nodeId ∈ e.members.ids →
      ∃ s ∈ (e.finalize b approvals).1.consensus.signatures, s.signer = i.nodeId := by
  obtain ⟨added, hcollect, hfrom, hall⟩ := e.collect_lawful hP b.proposalBytes approvals [] ∅
  have hsigs : (e.finalize b approvals).1.consensus.signatures = added := by
    rw [finalize, hcollect, List.nil_append]
    dsimp only
    split <;> rfl
  rw [hsigs]
  exact ⟨hfrom, fun i hi hmem => hall i hi hmem (by simp)⟩

variable {e : AnyEngine}

/-- Whoever signed an entry under an engine is one of its members, with a key that decodes. -/
theorem SignedUnder.entry (hP : P.Lawful) {s : ConsensusSignature} (h : SignedUnder P e s) :
    ∃ i payload, EntryOf P e.inner payload i s := by
  obtain ⟨b, approvals, hnone, hs⟩ := h
  cases e with
  | quorum e =>
    obtain ⟨i, _, hentry⟩ := (e.finalize_signatures hP b approvals).1 s hs
    exact ⟨i, _, hentry⟩
  | bft e =>
    change s ∈ (e.finalize b approvals).1.consensus.signatures at hs
    unfold BftConsensus.finalize at hs
    split at hs
    · obtain ⟨i, _, hentry⟩ := (e.inner.finalize_signatures hP b approvals).1 s hs
      exact ⟨i, _, hentry⟩
    · rw [hnone] at hs
      exact absurd hs List.not_mem_nil

/-! ### Too few common members -/

/-- An entry with a decodable key never stops the loop of `verify`. -/
theorem EntryOf.accepts (hP : P.Lawful) {e e' : QuorumConsensus} {payload payload' : Bytes}
    {i : NodeIdentity P} {s : ConsensusSignature} (h : EntryOf P e payload i s) :
    e'.accepts P payload' s = .ok (e'.approves P payload' s) := by
  have hdecoded : ∃ r, e'.accepts P payload' s = .ok r := by
    unfold QuorumConsensus.accepts
    split
    · rw [Identity.verify, h.publicKey, i.publicKey_eq, hP.decode_encode]
      exact ⟨_, rfl⟩
    · exact ⟨_, rfl⟩
  obtain ⟨r, hr⟩ := hdecoded
  rw [hr, QuorumConsensus.approves_of_accepts hr]

variable {b : Block}

theorem QuorumConsensus.verify_of_readable {e : QuorumConsensus}
    (h : e.Readable P b.proposalBytes b.consensus.signatures) : ∃ r, e.verify P b = .ok r := by
  unfold verify
  split
  · exact ⟨_, rfl⟩
  · rw [(tally_eq_ok_iff _ _ _).mpr ⟨h, rfl⟩]
    exact ⟨_, rfl⟩

theorem AnyEngine.verify_of_readable (h : e.inner.Readable P b.proposalBytes b.consensus.signatures) :
    ∃ r, (e.engine P).verify b = .ok r := by
  cases e with
  | quorum e => exact QuorumConsensus.verify_of_readable h
  | bft e =>
    show ∃ r, e.verify P b = .ok r
    unfold BftConsensus.verify
    split
    · exact QuorumConsensus.verify_of_readable h
    · exact ⟨_, rfl⟩

/-- Either engine needs its quorum of distinct approvers. -/
theorem AnyEngine.quorum_of_verify (h : (e.engine P).verify b = .ok true) :
    e.inner.quorum ≤ (e.inner.approvers P b.proposalBytes b.consensus.signatures).card := by
  cases e with
  | quorum e => exact (QuorumConsensus.verify_eq_true_iff.mp h).2.2
  | bft e =>
    exact (QuorumConsensus.verify_eq_true_iff.mp (BftConsensus.verify_eq_true_iff.mp h).2).2.2

/-- Approvals made under one engine count under another for common members only. -/
theorem verify_signedUnder_false (hP : P.Lawful) {e₁ e₂ : AnyEngine}
    (hfew : (commonMembers e₁ e₂).card < e₂.inner.quorum)
    (hb : ∀ s ∈ b.consensus.signatures, SignedUnder P e₁ s) : (e₂.engine P).verify b = .ok false := by
  have hread : e₂.inner.Readable P b.proposalBytes b.consensus.signatures := by
    intro s hs
    obtain ⟨i, payload, hentry⟩ := (hb s hs).entry hP
    exact hentry.accepts hP
  have hsub : e₂.inner.approvers P b.proposalBytes b.consensus.signatures ⊆ commonMembers e₁ e₂ := by
    intro m hm
    apply Finset.mem_inter.mpr
    obtain ⟨s, hs, hsm, _⟩ := QuorumConsensus.mem_approvers.mp hm
    obtain ⟨i, payload, hentry⟩ := (hb s hs).entry hP
    refine ⟨List.mem_toFinset.mpr ?_, QuorumConsensus.approvers_subset hm⟩
    rw [← hsm, hentry.signer]
    exact hentry.member
  obtain ⟨r, hr⟩ := AnyEngine.verify_of_readable hread
  cases r with
  | false => exact hr
  | true =>
    have hq := AnyEngine.quorum_of_verify hr
    have hle := Finset.card_le_card hsub
    omega

/-! ### Enough common members -/

/-- Every member of a BFT engine leads at some height. -/
theorem BftConsensus.exists_height (e : BftConsensus) {m : NodeId} (hm : m ∈ e.inner.members.ids) :
    ∃ height : UInt64, e.leader height = m := by
  obtain ⟨k, hk, hget⟩ := List.mem_iff_getElem.mp (e.ordered_perm.mem_iff.mpr hm)
  have hlen := e.ordered_perm.length_eq
  have hfits := e.inner.members.fits
  refine ⟨UInt64.ofNat k, ?_⟩
  have htoNat : (UInt64.ofNat k).toNat = k := UInt64.toNat_ofNat_of_lt' (by
    show k < 2 ^ 64
    omega)
  rw [leader, List.get_eq_getElem]
  simp only [htoNat, Nat.mod_eq_of_lt hk, hget]

theorem exists_approvals {members : MemberSet} (hid : HasIdentities P members) :
    ∀ l : List NodeId, (∀ m ∈ l, m ∈ members.ids) →
      ∃ approvals : List (NodeIdentity P), approvals.map NodeIdentity.nodeId = l := by
  intro l
  induction l with
  | nil => intro _; exact ⟨[], rfl⟩
  | cons m l ih =>
    intro hl
    obtain ⟨approvals, happrovals⟩ := ih fun x hx => hl x (List.mem_cons_of_mem _ hx)
    obtain ⟨i, hi⟩ := hid m (hl m List.mem_cons_self)
    exact ⟨i :: approvals, by rw [List.map_cons, hi, happrovals]⟩

/-- The members of an engine, all approving, sign any proposal without entries. -/
theorem exists_signedUnder (hP : P.Lawful) (hid : HasIdentities P e.inner.members)
    (hnone : b.consensus.signatures = []) : ∃ signatures : List ConsensusSignature,
      (∀ s ∈ signatures, SignedUnder P e s ∧ ∃ i, EntryOf P e.inner b.proposalBytes i s) ∧
      ∀ m ∈ e.inner.members.ids, ∃ s ∈ signatures, s.signer = m := by
  obtain ⟨approvals, happrovals⟩ := exists_approvals hid e.inner.members.ids fun _ h => h
  have hfinal : (e.engine P).finalize b approvals = e.inner.finalize b approvals := by
    cases e with
    | quorum e => rfl
    | bft e =>
      show e.finalize b approvals = e.inner.finalize b approvals
      have hleader : e.leader b.height ∈ approvals.map NodeIdentity.nodeId := by
        rw [happrovals]
        exact e.leader_mem b.height
      obtain ⟨i, hi, hil⟩ := List.mem_map.mp hleader
      rw [BftConsensus.finalize, if_pos (List.any_eq_true.mpr ⟨i, hi, by simp [hil]⟩)]
  obtain ⟨hfrom, hall⟩ := e.inner.finalize_signatures hP b approvals
  refine ⟨(e.inner.finalize b approvals).1.consensus.signatures, ?_, ?_⟩
  · intro s hs
    obtain ⟨i, _, hentry⟩ := hfrom s hs
    exact ⟨⟨b, approvals, hnone, by rw [hfinal]; exact hs⟩, i, hentry⟩
  · intro m hm
    have hmem : m ∈ approvals.map NodeIdentity.nodeId := by
      rw [happrovals]
      exact hm
    obtain ⟨i, hi, rfl⟩ := List.mem_map.mp hmem
    exact hall i hi hm

/-- A proposal whose leader, if the engine has one, is a given member. -/
theorem AnyEngine.exists_led (e : AnyEngine) {m : NodeId} (hm : m ∈ e.inner.members.ids) :
    ∃ height : UInt64, ∀ b : Block, b.height = height →
      (∃ s ∈ b.consensus.signatures, s.signer = m) → e.inner.verify P b = .ok true →
        (e.engine P).verify b = .ok true := by
  cases e with
  | quorum e => exact ⟨0, fun b _ _ hb => hb⟩
  | bft e =>
    obtain ⟨height, hleader⟩ := e.exists_height hm
    refine ⟨height, fun b hheight ⟨s, hs, hsm⟩ hb => ?_⟩
    exact BftConsensus.verify_eq_true_iff.mpr ⟨⟨s, hs, by rw [hheight, hleader, hsm]⟩, hb⟩

/-- With a quorum of common members, approvals of the first network pass in the second. -/
theorem exists_transplant (hP : P.Lawful) {e₁ e₂ : AnyEngine} (hid : HasIdentities P e₁.inner.members)
    (hmany : e₂.inner.quorum ≤ (commonMembers e₁ e₂).card) :
    ∃ b : Block, (∀ s ∈ b.consensus.signatures, SignedUnder P e₁ s) ∧
      (e₂.engine P).verify b = .ok true := by
  have hpos : 0 < (commonMembers e₁ e₂).card := lt_of_lt_of_le e₂.inner.pos hmany
  obtain ⟨m, hm⟩ := Finset.card_pos.mp hpos
  obtain ⟨hm₁, hm₂⟩ := Finset.mem_inter.mp hm
  obtain ⟨height, hled⟩ := e₂.exists_led (P := P) (List.mem_toFinset.mp hm₂)
  let b := draft P e₂.inner.networkId height 0
  obtain ⟨signatures, hsigned, hall⟩ := exists_signedUnder hP hid (b := b) rfl
  refine ⟨b.withSignatures signatures, fun s hs => (hsigned s hs).1, hled _ rfl ?_ ?_⟩
  · exact hall m (List.mem_toFinset.mp hm₁)
  · -- every common member has a valid entry over the same bytes
    refine QuorumConsensus.verify_eq_true_iff.mpr ⟨rfl, ?_, hmany.trans (Finset.card_le_card ?_)⟩
    · intro s hs
      obtain ⟨i, hentry⟩ := (hsigned s hs).2
      exact hentry.accepts hP
    · intro x hx
      obtain ⟨hx₁, hx₂⟩ := Finset.mem_inter.mp hx
      obtain ⟨s, hs, rfl⟩ := hall x (List.mem_toFinset.mp hx₁)
      obtain ⟨i, hentry⟩ := (hsigned s hs).2
      refine QuorumConsensus.mem_approvers.mpr ⟨s, hs, rfl, QuorumConsensus.approves_iff.mpr ?_⟩
      refine ⟨List.mem_toFinset.mp hx₂, ?_, hentry.valid⟩
      rw [hentry.publicKey, hentry.signer, i.nodeId_eq]

/-- **When an approval is bound to its network.**  For any two engines, of either kind and with any
network ids: every block whose entries were all produced by the first engine's `finalize` is rejected
by the second exactly when they share fewer members than the second one's quorum. -/
theorem network_bound_iff (hP : P.Lawful) (e₁ e₂ : AnyEngine)
    (hid : HasIdentities P e₁.inner.members) :
    (∀ b : Block, (∀ s ∈ b.consensus.signatures, SignedUnder P e₁ s) →
      (e₂.engine P).verify b = .ok false) ↔
    (commonMembers e₁ e₂).card < e₂.inner.quorum := by
  constructor
  · intro h
    by_contra hmany
    obtain ⟨b, hsigned, hver⟩ := exists_transplant hP hid (not_lt.mp hmany)
    rw [h b hsigned] at hver
    cases hver
  · intro hfew b hb
    exact verify_signedUnder_false hP hfew hb

/-! ### Sample networks -/

/-- The four sample members with another network id. -/
def twinEngine : BftConsensus where
  inner := ⟨"twin", fourMembers, 3, sampleQuorum_pos, sampleQuorum_le⟩
  orderedMembers := fourEngine.orderedMembers
  maxFaults := 1
  ordered := rfl
  quorum_eq := rfl
  enough := by decide

/-- A network that shares two members with the sample network. -/
def neighbourEngine : QuorumConsensus where
  networkId := "neighbour"
  members := sampleMembers [[3], [4], [5], [6]] (by decide) (by decide)
  quorum := 3
  pos := sampleQuorum_pos
  le := by decide

/-- Two common members are too few for a quorum of three. -/
theorem neighbour_rejects :
    (commonMembers (.bft fourEngine) (.quorum neighbourEngine)).card = 2 ∧
    ∀ b : Block, (∀ s ∈ b.consensus.signatures, SignedUnder primitives (.bft fourEngine) s) →
      neighbourEngine.verify primitives b = .ok false :=
  ⟨by decide, (network_bound_iff lawful (.bft fourEngine) (.quorum neighbourEngine)
    sampleMembers_hasIdentities).mpr (by decide)⟩

def sampleApprovals : List (NodeIdentity primitives) := [[1], [2], [3], [4]].map identity

/-- A block finalized in the sample network. -/
def meshBlock : Block := (fourEngine.finalize (draft primitives "mesh" 0 0) sampleApprovals).1

/-- The same block with the unsigned network id rewritten. -/
def relabelledBlock : Block := { meshBlock with consensus := { meshBlock.consensus with networkId := "twin" } }

/-- **Approvals of one network accepted by another**: only the label was changed. -/
theorem twin_accepts : BftConsensus.new "mesh" fourMembers 1 = .ok fourEngine ∧
    BftConsensus.new "twin" fourMembers 1 = .ok twinEngine ∧
    fourEngine.finalize (draft primitives "mesh" 0 0) sampleApprovals = (meshBlock, .ok ()) ∧
    (∀ s ∈ relabelledBlock.consensus.signatures, SignedUnder primitives (.bft fourEngine) s) ∧
    twinEngine.verify primitives relabelledBlock = .ok true := by
  refine ⟨rfl, rfl, ?_, fun s hs => ⟨draft primitives "mesh" 0 0, sampleApprovals, rfl, hs⟩, ?_⟩
  · have hok : (fourEngine.finalize (draft primitives "mesh" 0 0) sampleApprovals).2 = .ok () := by
      decide +kernel
    exact Prod.ext rfl hok
  · decide +kernel

end Peerless.Chain
