import Peerless.Ledger.Consensus
import Peerless.Sample

/-!
# The leader's approval of a BFT block

* `leaderApproved_iff` — `verify` tests that the leader is *named*, not that its entry is
  valid.  A block is accepted without the leader's approval exactly when the leader's entries are all
  rejected and the remaining entries reach the quorum.
-/

namespace Peerless.Chain

open Text Peerless.Core Identity Sample

variable {P : Primitives}

/-! ### Blocks with chosen entries -/

/-- The block with another list of consensus entries. -/
def Block.withSignatures (b : Block) (signatures : List ConsensusSignature) : Block :=
  { b with consensus := { b.consensus with signatures } }

@[simp] theorem Block.withSignatures_proposalBytes (b : Block) (l : List ConsensusSignature) :
    (b.withSignatures l).proposalBytes = b.proposalBytes := rfl

@[simp] theorem Block.withSignatures_networkId (b : Block) (l : List ConsensusSignature) :
    (b.withSignatures l).consensus.networkId = b.consensus.networkId := rfl

@[simp] theorem Block.withSignatures_signatures (b : Block) (l : List ConsensusSignature) :
    (b.withSignatures l).consensus.signatures = l := rfl

/-- Every member has a key. -/
def HasIdentities (P : Primitives) (members : MemberSet) : Prop :=
  ∀ m ∈ members.ids, ∃ i : NodeIdentity P, i.nodeId = m

theorem exists_entries (hP : P.Lawful) {e : QuorumConsensus} (hid : HasIdentities P e.members)
    (payload : Bytes) : ∀ l : List NodeId, (∀ m ∈ l, m ∈ e.members.ids) →
      ∃ sigs : List ConsensusSignature, sigs.map ConsensusSignature.signer = l ∧
        ∀ s ∈ sigs, e.approves P payload s = true := by
  intro l
  induction l with
  | nil => intro _; exact ⟨[], rfl, by simp⟩
  | cons m l ih =>
    intro hl
    obtain ⟨sigs, hsigners, happroves⟩ := ih fun x hx => hl x (by simp [hx])
    obtain ⟨i, hi⟩ := hid m (hl m (by simp))
    obtain ⟨g, _, hg⟩ := verify_sign hP i payload
    refine ⟨⟨m, i.publicKeyDer, g⟩ :: sigs, by rw [List.map_cons, hsigners], ?_⟩
    rw [List.forall_mem_cons]
    refine ⟨QuorumConsensus.approves_iff.mpr ⟨hl m (by simp), ?_, hg⟩, happroves⟩
    rw [← i.nodeId_eq, hi]

/-- An entry that names one node and carries the key of another: skipped by the loop. -/
def decoy (named : NodeId) (i : NodeIdentity P) : ConsensusSignature :=
  ⟨named, i.publicKeyDer, []⟩

theorem accepts_decoy {e : QuorumConsensus} {payload : Bytes} {named : NodeId}
    {i : NodeIdentity P} (h : i.nodeId ≠ named) :
    e.accepts P payload (decoy named i) = .ok false := by
  unfold QuorumConsensus.accepts
  rw [if_neg]
  intro ⟨_, hder⟩
  rw [decoy, ← i.nodeId_eq] at hder
  exact h hder

/-- Dropping entries that are not counted changes neither the counted members … -/
theorem QuorumConsensus.approvers_filter {e : QuorumConsensus} {payload : Bytes}
    {p : ConsensusSignature → Bool} {as : List ConsensusSignature}
    (h : ∀ s ∈ as, p s = false → e.approves P payload s = false) :
    e.approvers P payload (as.filter p) = e.approvers P payload as := by
  ext m
  rw [mem_approvers, mem_approvers]
  constructor
  · intro ⟨s, hs, hm, ha⟩
    exact ⟨s, (List.mem_filter.mp hs).1, hm, ha⟩
  · intro ⟨s, hs, hm, ha⟩
    refine ⟨s, List.mem_filter.mpr ⟨hs, ?_⟩, hm, ha⟩
    by_cases hp : p s = true
    · exact hp
    · rw [h s hs (by simpa using hp)] at ha
      cases ha

/-- … nor, when they raise no error, whether the loop ends. -/
theorem QuorumConsensus.readable_filter {e : QuorumConsensus} {payload : Bytes}
    {p : ConsensusSignature → Bool} {as : List ConsensusSignature}
    (h : ∀ s ∈ as, p s = false → e.accepts P payload s = .ok false) :
    e.Readable P payload (as.filter p) ↔ e.Readable P payload as := by
  constructor
  · intro hr s hs
    by_cases hp : p s = true
    · exact hr s (List.mem_filter.mpr ⟨hs, hp⟩)
    · have hacc := h s hs (by simpa using hp)
      rw [hacc, approves_of_accepts hacc]
  · intro hr s hs
    exact hr s (List.mem_filter.mp hs).1

variable {e : BftConsensus} {b : Block}

/-- A decoy in front of enough counted entries makes a block the BFT engine accepts. -/
theorem BftConsensus.verify_decoyed {i : NodeIdentity P} {sigs : List ConsensusSignature}
    (hnet : b.consensus.networkId = e.inner.networkId) (hi : i.nodeId ≠ e.leader b.height)
    (hsigs : ∀ s ∈ sigs, e.inner.approves P b.proposalBytes s = true)
    (hq : e.inner.quorum ≤ (sigs.map ConsensusSignature.signer).toFinset.card) :
    e.verify P (b.withSignatures (decoy (e.leader b.height) i :: sigs)) = .ok true := by
  have hdecoy : e.inner.accepts P b.proposalBytes (decoy (e.leader b.height) i) = .ok false :=
    accepts_decoy hi
  have hskip : e.inner.approves P b.proposalBytes (decoy (e.leader b.height) i) = false :=
    QuorumConsensus.approves_of_accepts hdecoy
  rw [BftConsensus.verify_eq_true_iff, QuorumConsensus.verify_eq_true_iff]
  refine ⟨⟨_, List.mem_cons_self, rfl⟩, hnet, ?_, ?_⟩
  · intro s hs
    rcases List.mem_cons.mp hs with rfl | hs
    · exact hdecoy.trans (by rw [Block.withSignatures_proposalBytes, hskip])
    · exact (QuorumConsensus.accepts_of_approves (hsigs s hs)).trans
        (by rw [Block.withSignatures_proposalBytes, hsigs s hs])
  · rw [QuorumConsensus.approvers, Block.withSignatures_signatures,
      Block.withSignatures_proposalBytes, List.filter_cons, hskip, if_neg (by simp),
      List.filter_eq_self.mpr hsigs]
    exact hq

/-! ### The leader's approval -/

/-- The leader of the block's height has a valid entry over the proposal. -/
def LeaderApproved (P : Primitives) (e : BftConsensus) (b : Block) : Prop :=
  ∃ s ∈ b.consensus.signatures, s.signer = e.leader b.height ∧
    NodeId.derive P s.publicKey = s.signer ∧
      Identity.verify P s.publicKey b.proposalBytes s.signature = .ok true

/-- The block without the entries that name the leader. -/
def withoutLeader (e : BftConsensus) (b : Block) : Block :=
  b.withSignatures (b.consensus.signatures.filter fun s => s.signer ≠ e.leader b.height)

theorem leaderApproved_iff_approves : LeaderApproved P e b ↔
    ∃ s ∈ b.consensus.signatures, s.signer = e.leader b.height ∧
      e.inner.approves P b.proposalBytes s = true := by
  constructor
  · intro ⟨s, hs, hl, hder, hv⟩
    refine ⟨s, hs, hl, QuorumConsensus.approves_iff.mpr ⟨?_, hder, hv⟩⟩
    rw [hl]
    exact e.leader_mem b.height
  · intro ⟨s, hs, hl, ha⟩
    exact ⟨s, hs, hl, (QuorumConsensus.approves_iff.mp ha).2⟩

/-- Rejected entries of the leader can be dropped without changing the inner engine's answer. -/
theorem verify_withoutLeader
    (h : ∀ s ∈ b.consensus.signatures, s.signer = e.leader b.height →
      e.inner.accepts P b.proposalBytes s = .ok false) :
    e.inner.verify P (withoutLeader e b) = .ok true ↔ e.inner.verify P b = .ok true := by
  have hdrop : ∀ s ∈ b.consensus.signatures, decide (s.signer ≠ e.leader b.height) = false →
      e.inner.accepts P b.proposalBytes s = .ok false := by
    intro s hs hd
    exact h s hs (by simpa using hd)
  rw [QuorumConsensus.verify_eq_true_iff, QuorumConsensus.verify_eq_true_iff]
  unfold withoutLeader
  rw [Block.withSignatures_networkId, Block.withSignatures_proposalBytes,
    Block.withSignatures_signatures, QuorumConsensus.readable_filter hdrop,
    QuorumConsensus.approvers_filter fun s hs hd =>
      QuorumConsensus.approves_of_accepts (hdrop s hs hd)]

/-- A block the engine accepts without the leader's approval, taken apart. -/
theorem unapproved_iff :
    (e.verify P b = .ok true ∧ ¬ LeaderApproved P e b) ↔
      (∃ s ∈ b.consensus.signatures, s.signer = e.leader b.height) ∧
      (∀ s ∈ b.consensus.signatures, s.signer = e.leader b.height →
        e.inner.accepts P b.proposalBytes s = .ok false) ∧
      e.inner.verify P (withoutLeader e b) = .ok true := by
  rw [leaderApproved_iff_approves, BftConsensus.verify_eq_true_iff]
  constructor
  · intro ⟨⟨hnamed, hver⟩, hnot⟩
    have hrejected : ∀ s ∈ b.consensus.signatures, s.signer = e.leader b.height →
        e.inner.accepts P b.proposalBytes s = .ok false := by
      intro s hs hl
      have hread := (QuorumConsensus.verify_eq_true_iff.mp hver).2.1 s hs
      cases ha : e.inner.approves P b.proposalBytes s with
      | true => exact absurd ⟨s, hs, hl, ha⟩ hnot
      | false => rw [hread, ha]
    exact ⟨hnamed, hrejected, (verify_withoutLeader hrejected).mpr hver⟩
  · intro ⟨hnamed, hrejected, hver⟩
    refine ⟨⟨hnamed, (verify_withoutLeader hrejected).mp hver⟩, ?_⟩
    intro ⟨s, hs, hl, ha⟩
    rw [QuorumConsensus.approves_of_accepts (hrejected s hs hl)] at ha
    cases ha

theorem leaderApproved_of_single (hone : e.inner.members.ids.length = 1) (h : e.verify P b = .ok true) :
    LeaderApproved P e b := by
  have hver := (BftConsensus.verify_eq_true_iff.mp h).2
  have hq := (QuorumConsensus.verify_eq_true_iff.mp hver).2.2
  have hpos : 0 < (e.inner.approvers P b.proposalBytes b.consensus.signatures).card :=
    lt_of_lt_of_le e.inner.pos hq
  obtain ⟨m, hm⟩ := Finset.card_pos.mp hpos
  have hmem := QuorumConsensus.approvers_subset hm
  obtain ⟨x, hx⟩ := List.length_eq_one_iff.mp hone
  have hleader := e.leader_mem b.height
  rw [hx, List.mem_toFinset, List.mem_singleton] at hmem
  rw [hx, List.mem_singleton] at hleader
  obtain ⟨s, hs, hsm, ha⟩ := QuorumConsensus.mem_approvers.mp hm
  exact leaderApproved_iff_approves.mpr ⟨s, hs, by rw [hsm, hmem, hleader], ha⟩

/-- A block of the engine's network, without entries. -/
def draft (P : Primitives) (networkId : String) (height : UInt64) (timestamp : ℕ) : Block :=
  { version := 1, previous := none, height, timestamp, eventsRoot := P.sha256 [], events := []
    consensus := ⟨networkId, []⟩ }

/-- An engine with two members or more has another member beside each of them. -/
theorem exists_other {members : MemberSet} (hid : HasIdentities P members)
    (htwo : 2 ≤ members.ids.length) (m : NodeId) :
    ∃ i : NodeIdentity P, i.nodeId ∈ members.ids ∧ i.nodeId ≠ m := by
  have hcard : members.ids.toFinset.card = members.ids.length :=
    List.toFinset_card_of_nodup members.nodup
  obtain ⟨x, hx, hne⟩ := Finset.exists_mem_ne (s := members.ids.toFinset) (by omega) m
  obtain ⟨i, hi⟩ := hid x (List.mem_toFinset.mp hx)
  exact ⟨i, by rw [hi]; exact List.mem_toFinset.mp hx, by rw [hi]; exact hne⟩

/-- With two members or more, the other members' quorum passes without the leader. -/
theorem exists_unapproved (hP : P.Lawful) (hid : HasIdentities P e.inner.members)
    (htwo : 2 ≤ e.inner.members.ids.length) :
    ∃ b : Block, e.verify P b = .ok true ∧ ¬ LeaderApproved P e b := by
  have hq := e.quorum_eq
  have hn := e.enough
  obtain ⟨i, _, hi⟩ := exists_other hid htwo (e.leader 0)
  obtain ⟨sigs, hsigners, hsigs⟩ := exists_entries hP hid
    (draft P e.inner.networkId 0 0).proposalBytes (e.inner.members.ids.erase (e.leader 0))
    (fun m hm => List.mem_of_mem_erase hm)
  have hnotin : ∀ s ∈ sigs, s.signer ≠ e.leader 0 := by
    intro s hs hl
    have hmem : s.signer ∈ e.inner.members.ids.erase (e.leader 0) := by
      rw [← hsigners]
      exact List.mem_map_of_mem hs
    rw [hl] at hmem
    exact absurd rfl ((e.inner.members.nodup.mem_erase_iff).mp hmem).1
  have hlen : (e.inner.members.ids.erase (e.leader 0)).length = e.inner.members.ids.length - 1 :=
    List.length_erase_of_mem (e.leader_mem 0)
  refine ⟨_, BftConsensus.verify_decoyed (b := draft P e.inner.networkId 0 0) rfl hi hsigs ?_, ?_⟩
  · rw [hsigners, List.toFinset_card_of_nodup (e.inner.members.nodup.erase _), hlen]
    omega
  · rw [leaderApproved_iff_approves]
    intro ⟨s, hs, hl, ha⟩
    rcases List.mem_cons.mp hs with rfl | hs
    · exact absurd (ha.symm.trans (QuorumConsensus.approves_of_accepts (accepts_decoy hi))) (by simp)
    · exact hnotin s hs hl

/-- **When an accepted block carries the leader's approval.**  Block by block, whatever the primitives do:
unless every entry that names the leader is rejected and the others reach the quorum by themselves.  For the
engine as a whole, where the members can sign: only if it has a single member. -/
theorem leaderApproved_iff (P : Primitives) (e : BftConsensus) :
    (∀ b : Block, (e.verify P b = .ok true → LeaderApproved P e b) ↔
      ¬ ((∃ s ∈ b.consensus.signatures, s.signer = e.leader b.height) ∧
        (∀ s ∈ b.consensus.signatures, s.signer = e.leader b.height →
          e.inner.accepts P b.proposalBytes s = .ok false) ∧
        e.inner.verify P (withoutLeader e b) = .ok true)) ∧
    (P.Lawful → HasIdentities P e.inner.members →
      ((∀ b : Block, e.verify P b = .ok true → LeaderApproved P e b) ↔
        e.inner.members.ids.length = 1)) := by
  refine ⟨fun b => ?_, fun hP hid => ?_⟩
  · rw [← unapproved_iff, not_and, not_not]
  · constructor
    · intro h
      have hn := e.enough
      by_contra hne
      obtain ⟨b, hv, hnot⟩ := exists_unapproved hP hid (by omega)
      exact hnot (h b hv)
    · intro hone b hv
      exact leaderApproved_of_single hone hv

/-! ### Sample engines -/

/-- Members that own sample keys. -/
def sampleMembers (keys : List Bytes) (nodup : (keys.map member).Nodup)
    (fits : (keys.map member).length < 2 ^ 63) : MemberSet :=
  ⟨keys.map member, nodup, fits⟩

theorem sampleMembers_hasIdentities {keys : List Bytes} {nodup : (keys.map member).Nodup}
    {fits : (keys.map member).length < 2 ^ 63} :
    HasIdentities primitives (sampleMembers keys nodup fits) := by
  intro m hm
  obtain ⟨k, _, rfl⟩ := List.mem_map.mp hm
  exact ⟨identity k, rfl⟩

def fourMembers : MemberSet := sampleMembers [[1], [2], [3], [4]] (by decide) (by decide)

theorem sampleQuorum_pos : 0 < 3 := by decide

theorem sampleQuorum_le : 3 ≤ fourMembers.ids.length := by decide

/-- What `BftConsensus::new` returns for four members and one fault. -/
def fourEngine : BftConsensus where
  inner := ⟨"mesh", fourMembers, 3, sampleQuorum_pos, sampleQuorum_le⟩
  orderedMembers := fourMembers.ids.insertionSort fun a b => NodeId.le a b
  maxFaults := 1
  ordered := rfl
  quorum_eq := rfl
  enough := by decide

example : BftConsensus.new "mesh" fourMembers 1 = .ok fourEngine := by rfl

/-- The entry of a sample key over a block's proposal. -/
def sampleEntry (b : Block) (key : Bytes) : ConsensusSignature :=
  ⟨member key, key, key ++ b.proposalBytes⟩

/-- Three members sign; the leader is named under the key of another member. -/
def leaderlessBlock : Block :=
  let b := draft primitives "mesh" 0 0
  b.withSignatures (⟨member [1], [2], []⟩ :: [[2], [3], [4]].map (sampleEntry b))

/-- Only a single member could not be bypassed, and this engine has four. -/
theorem fourEngine_bypassed :
    ¬ ∀ b : Block, fourEngine.verify primitives b = .ok true → LeaderApproved primitives fourEngine b :=
  fun h => absurd (((leaderApproved_iff primitives fourEngine).2 lawful sampleMembers_hasIdentities).mp h)
    (by decide)

/-- **A block the leader never approved.** -/
theorem leaderlessBlock_accepted : BftConsensus.new "mesh" fourMembers 1 = .ok fourEngine ∧
    fourEngine.verify primitives leaderlessBlock = .ok true ∧
      ¬ LeaderApproved primitives fourEngine leaderlessBlock := by
  refine ⟨rfl, by decide +kernel, ?_⟩
  unfold LeaderApproved
  decide +kernel

end Peerless.Chain
