import Peerless.Ledger.Leader
import Peerless.Lib.Quorum
import Peerless.Lib.Runs

/-!
# Agreement under a BFT engine

The members of a mesh sign proposals and publish blocks in any order.  Signatures cannot be forged:
an entry that verifies under a member's key is backed by an earlier signing step of that member
(`Mesh.Backed`).

* `agreement_iff` — **PROVED**: `2f + 1` signatures give agreement against `f` equivocating members
  exactly when the set has `3f + 1` members.  The constructor accepts larger sets, where two quorums
  need not share an honest member.
-/

namespace Peerless.Chain

open Text Peerless.Core Identity Sample

variable {P : Primitives}

/-! ### The mesh: members sign, anyone publishes -/

/-- One signing step: who signed which proposal, and the height it is for. -/
structure Vote where
  signer : NodeId
  height : UInt64
  proposal : Bytes
  deriving DecidableEq

structure Mesh where
  votes : List Vote
  published : List Block

inductive MeshAct where
  /-- A key owner signs the proposal of a block. -/
  | sign (signer : NodeId) (proposal : Block)
  /-- Anyone publishes a block with any entries they hold. -/
  | publish (block : Block)

def Block.vote (b : Block) (signer : NodeId) : Vote := ⟨signer, b.height, b.proposalBytes⟩

/-- Unforgeability: a valid entry was made by the owner of its key. -/
def Mesh.Backed (P : Primitives) (m : Mesh) (b : Block) : Prop :=
  ∀ s ∈ b.consensus.signatures, NodeId.derive P s.publicKey = s.signer →
    Identity.verify P s.publicKey b.proposalBytes s.signature = .ok true → b.vote s.signer ∈ m.votes

instance (P : Primitives) (m : Mesh) (b : Block) : Decidable (m.Backed P b) :=
  inferInstanceAs (Decidable (∀ s ∈ b.consensus.signatures, _ → _ → _))

def Mesh.step (P : Primitives) (m : Mesh) : MeshAct → Option Mesh
  | .sign who b => some { m with votes := b.vote who :: m.votes }
  | .publish b => if m.Backed P b then some { m with published := b :: m.published } else none

def Mesh.init : Mesh := ⟨[], []⟩

/-- Two different proposals signed for one height. -/
def Mesh.Equivocates (m : Mesh) (who : NodeId) : Prop :=
  ∃ v ∈ m.votes, ∃ w ∈ m.votes, v.signer = who ∧ w.signer = who ∧ v.height = w.height ∧
    v.proposal ≠ w.proposal

instance (m : Mesh) (who : NodeId) : Decidable (m.Equivocates who) :=
  inferInstanceAs (Decidable (∃ v ∈ m.votes, ∃ w ∈ m.votes, _))

/-- The members that signed more than one proposal at a height. -/
def Mesh.equivocators (e : BftConsensus) (m : Mesh) : Finset NodeId :=
  e.inner.members.ids.toFinset.filter m.Equivocates

/-- **Agreement.**  In every run with at most `max_faults` equivocating members, the accepted blocks
of one height carry one proposal. -/
def Agreement (P : Primitives) (e : BftConsensus) : Prop :=
  ∀ (acts : List MeshAct) (m : Mesh), Runs.run (Mesh.step P) Mesh.init acts = some m →
    (m.equivocators e).card ≤ e.maxFaults →
    ∀ a ∈ m.published, ∀ b ∈ m.published, a.height = b.height →
      e.verify P a = .ok true → e.verify P b = .ok true → a.proposalBytes = b.proposalBytes

variable {m : Mesh} {b : Block}

theorem Mesh.backed_mono {m' : Mesh} (h : ∀ v ∈ m.votes, v ∈ m'.votes) (hb : m.Backed P b) :
    m'.Backed P b :=
  fun s hs hder hv => h _ (hb s hs hder hv)

theorem Mesh.step_backed {m' : Mesh} {act : MeshAct} (hm : ∀ b ∈ m.published, m.Backed P b)
    (hstep : m.step P act = some m') : ∀ b ∈ m'.published, m'.Backed P b := by
  cases act with
  | sign who b =>
    rw [Mesh.step, Option.some.injEq] at hstep
    intro c hc
    rw [← hstep] at hc ⊢
    exact backed_mono (fun v hv => List.mem_cons_of_mem _ hv) (hm c hc)
  | publish b =>
    rw [Mesh.step] at hstep
    split at hstep
    · rename_i hb
      rw [Option.some.injEq] at hstep
      intro c hc
      rw [← hstep] at hc ⊢
      rcases List.mem_cons.mp hc with rfl | hc
      · exact backed_mono (fun v hv => hv) hb
      · exact backed_mono (fun v hv => hv) (hm c hc)
    · cases hstep

/-- Every published block is backed, in every run. -/
theorem Mesh.run_backed {acts : List MeshAct} (hrun : Runs.run (Mesh.step P) Mesh.init acts = some m) :
    ∀ b ∈ m.published, m.Backed P b :=
  Runs.run_invariant' (I := fun m => ∀ b ∈ m.published, m.Backed P b)
    (fun _ _ _ hm hs => step_backed hm hs) (fun _ hb => absurd hb List.not_mem_nil) hrun

/-- The members counted for a backed block signed its proposal. -/
theorem Mesh.vote_of_approver {e : QuorumConsensus} (hb : m.Backed P b) {who : NodeId}
    (h : who ∈ e.approvers P b.proposalBytes b.consensus.signatures) : b.vote who ∈ m.votes := by
  obtain ⟨s, hs, rfl, ha⟩ := QuorumConsensus.mem_approvers.mp h
  obtain ⟨_, hder, hv⟩ := QuorumConsensus.approves_iff.mp ha
  exact hb s hs hder hv

variable {e : BftConsensus}

/-- Two quorums among `3f + 1` members share a member that signed one proposal only. -/
theorem agreement_of_card (hcard : e.inner.members.ids.length = 3 * e.maxFaults + 1) : Agreement P e := by
  intro acts m hrun hfaults a ha b hb hheight hva hvb
  have hbacked := Mesh.run_backed hrun
  have hqa := (QuorumConsensus.verify_eq_true_iff.mp (BftConsensus.verify_eq_true_iff.mp hva).2).2.2
  have hqb := (QuorumConsensus.verify_eq_true_iff.mp (BftConsensus.verify_eq_true_iff.mp hvb).2).2.2
  rw [e.quorum_eq] at hqa hqb
  have hM : e.inner.members.ids.toFinset.card ≤ 3 * e.maxFaults + 1 := by
    rw [List.toFinset_card_of_nodup e.inner.members.nodup, hcard]
  obtain ⟨x, hxa, hxb, hx⟩ := Quorum.exists_common_outside hM QuorumConsensus.approvers_subset
    QuorumConsensus.approvers_subset hqa hqb hfaults
  by_contra hne
  refine hx (Finset.mem_filter.mpr ⟨QuorumConsensus.approvers_subset hxa, ?_⟩)
  exact ⟨_, Mesh.vote_of_approver (hbacked a ha) hxa, _, Mesh.vote_of_approver (hbacked b hb) hxb,
    rfl, rfl, hheight, hne⟩

/-! ### Larger sets split -/

theorem Mesh.run_signs (b : Block) : ∀ (l : List NodeId) (m : Mesh),
    Runs.run (Mesh.step P) m (l.map fun who => .sign who b) =
      some { m with votes := (l.map b.vote).reverse ++ m.votes } := by
  intro l
  induction l with
  | nil => intro m; rfl
  | cons who l ih =>
    intro m
    rw [List.map_cons, Runs.run_of_step rfl, ih]
    simp

/-- The votes after `A` signed `a` and `B` signed `b`. -/
noncomputable def forkVotes (a b : Block) (A B : Finset NodeId) : List Vote :=
  (B.toList.map b.vote).reverse ++ (A.toList.map a.vote).reverse

variable {a : Block} {A B : Finset NodeId}

theorem mem_forkVotes {v : Vote} :
    v ∈ forkVotes a b A B ↔ (∃ who ∈ A, a.vote who = v) ∨ ∃ who ∈ B, b.vote who = v := by
  simp only [forkVotes, List.mem_append, List.mem_reverse, List.mem_map, Finset.mem_toList]
  exact or_comm

/-- Both sides sign, then both blocks are published. -/
theorem run_fork {a' b' : Block} (ha : Mesh.Backed P ⟨forkVotes a b A B, []⟩ a')
    (hb : Mesh.Backed P ⟨forkVotes a b A B, [a']⟩ b') :
    ∃ acts, Runs.run (Mesh.step P) Mesh.init acts = some ⟨forkVotes a b A B, [b', a']⟩ := by
  refine ⟨(A.toList.map fun who => .sign who a) ++ ((B.toList.map fun who => .sign who b) ++
    [.publish a', .publish b']), ?_⟩
  refine Runs.run_append _ _ _ _ _ (Mesh.run_signs a _ _) ?_
  refine Runs.run_append _ _ _ _ _ (Mesh.run_signs b _ _) ?_
  have hfirst : Mesh.step P ⟨forkVotes a b A B, []⟩ (.publish a') =
      some ⟨forkVotes a b A B, [a']⟩ := if_pos ha
  have hsecond : Mesh.step P ⟨forkVotes a b A B, [a']⟩ (.publish b') =
      some ⟨forkVotes a b A B, [b', a']⟩ := if_pos hb
  show Runs.run (Mesh.step P) ⟨_ ++ (_ ++ []), []⟩ _ = _
  rw [List.append_nil]
  exact (Runs.run_of_step hfirst).trans (Runs.run_of_step hsecond)

theorem equivocators_fork {l : List Block} : Mesh.equivocators e ⟨forkVotes a b A B, l⟩ ⊆ A ∩ B := by
  intro who hwho
  obtain ⟨v, hv, w, hw, hvs, hws, _, hne⟩ := (Finset.mem_filter.mp hwho).2
  rw [Finset.mem_inter]
  rcases mem_forkVotes.mp hv with ⟨x, hx, rfl⟩ | ⟨x, hx, rfl⟩ <;>
    rcases mem_forkVotes.mp hw with ⟨y, hy, rfl⟩ | ⟨y, hy, rfl⟩
  · exact absurd rfl hne
  · exact ⟨hvs ▸ hx, hws ▸ hy⟩
  · exact ⟨hws ▸ hy, hvs ▸ hx⟩
  · exact absurd rfl hne

/-- A block whose entries come from members that voted for it, behind a decoy, is backed. -/
theorem Mesh.backed_decoyed {named : NodeId} {i : NodeIdentity P} {sigs : List ConsensusSignature}
    (hi : i.nodeId ≠ named) (hvotes : ∀ who ∈ sigs.map ConsensusSignature.signer, b.vote who ∈ m.votes) :
    m.Backed P (b.withSignatures (decoy named i :: sigs)) := by
  intro s hs hder hv
  rcases List.mem_cons.mp hs with rfl | hs
  · rw [decoy, ← i.nodeId_eq] at hder
    exact absurd hder hi
  · exact hvotes _ (List.mem_map_of_mem hs)

/-- **Two quorums that meet in at most `f` members fork the mesh.** -/
theorem fork_of_quorums (hP : P.Lawful) (hid : HasIdentities P e.inner.members)
    (htwo : 2 ≤ e.inner.members.ids.length) (hA : A ⊆ e.inner.members.ids.toFinset)
    (hB : B ⊆ e.inner.members.ids.toFinset) (hAc : e.inner.quorum ≤ A.card)
    (hBc : e.inner.quorum ≤ B.card) (hAB : (A ∩ B).card ≤ e.maxFaults) : ¬ Agreement P e := by
  intro hagree
  -- the two drafts differ in their timestamp only
  let a := draft P e.inner.networkId 0 0
  let b := draft P e.inner.networkId 0 1
  have hmem : ∀ {S : Finset NodeId}, S ⊆ e.inner.members.ids.toFinset →
      ∀ m ∈ S.toList, m ∈ e.inner.members.ids := by
    intro S hS m hm
    exact List.mem_toFinset.mp (hS (Finset.mem_toList.mp hm))
  obtain ⟨i, _, hi⟩ := exists_other hid htwo (e.leader 0)
  obtain ⟨sa, hsa, happa⟩ := exists_entries hP hid a.proposalBytes A.toList (hmem hA)
  obtain ⟨sb, hsb, happb⟩ := exists_entries hP hid b.proposalBytes B.toList (hmem hB)
  let a' := a.withSignatures (decoy (e.leader 0) i :: sa)
  let b' := b.withSignatures (decoy (e.leader 0) i :: sb)
  obtain ⟨acts, hrun⟩ := run_fork (P := P) (a := a) (b := b) (A := A) (B := B)
    (show Mesh.Backed P _ a' from Mesh.backed_decoyed hi fun who hwho =>
      mem_forkVotes.mpr (Or.inl ⟨who, Finset.mem_toList.mp (hsa ▸ hwho), rfl⟩))
    (show Mesh.Backed P _ b' from Mesh.backed_decoyed hi fun who hwho =>
      mem_forkVotes.mpr (Or.inr ⟨who, Finset.mem_toList.mp (hsb ▸ hwho), rfl⟩))
  have hva : e.verify P a' = .ok true := BftConsensus.verify_decoyed rfl hi happa
    (by rw [hsa, Finset.toList_toFinset]; exact hAc)
  have hvb : e.verify P b' = .ok true := BftConsensus.verify_decoyed rfl hi happb
    (by rw [hsb, Finset.toList_toFinset]; exact hBc)
  have heq := hagree acts _ hrun (le_trans (Finset.card_le_card equivocators_fork) hAB)
    a' (by simp) b' (by simp) rfl hva hvb
  have htime : (0 : ℕ) = 1 := (Block.proposalBytes_eq_iff.mp heq).2.2.2.1
  omega

/-- **Exactly `3f + 1` members.** -/
theorem agreement_iff {networkId : String} {members : MemberSet} {f : ℕ} {e : BftConsensus}
    (hnew : BftConsensus.new networkId members f = .ok e) :
    (members.ids.length = 3 * f + 1 → Agreement P e) ∧
    (P.Lawful → HasIdentities P members → Agreement P e → members.ids.length = 3 * f + 1) := by
  obtain ⟨_, rfl, rfl⟩ := BftConsensus.new_ok hnew
  have hn := e.enough
  refine ⟨agreement_of_card, fun hP hid hagree => ?_⟩
  by_contra hne
  obtain ⟨A, B, hA, hB, hAc, hBc, hAB⟩ := Quorum.exists_weakly_meeting
    (M := e.inner.members.ids.toFinset) (f := e.maxFaults)
    (by rw [List.toFinset_card_of_nodup e.inner.members.nodup]; omega)
  exact fork_of_quorums hP hid (by omega) hA hB (by rw [e.quorum_eq, hAc])
    (by rw [e.quorum_eq, hBc]) hAB hagree

/-- Four members and one fault agree. -/
theorem fourEngine_agreement :
    Agreement primitives fourEngine ∧ fourMembers.ids.length = 3 * 1 + 1 := by
  have hagree : Agreement primitives fourEngine :=
    (agreement_iff (show BftConsensus.new "mesh" fourMembers 1 = .ok fourEngine from rfl)).1 rfl
  exact ⟨hagree, (agreement_iff (show BftConsensus.new "mesh" fourMembers 1 = .ok fourEngine from
    rfl)).2 lawful sampleMembers_hasIdentities hagree⟩

def fiveMembers : MemberSet := sampleMembers [[1], [2], [3], [4], [5]] (by decide) (by decide)

/-- What `BftConsensus::new` returns for five members and one fault. -/
def fiveEngine : BftConsensus where
  inner := ⟨"mesh", fiveMembers, 3, sampleQuorum_pos, by decide⟩
  orderedMembers := fiveMembers.ids.insertionSort fun a b => NodeId.le a b
  maxFaults := 1
  ordered := rfl
  quorum_eq := rfl
  enough := by decide

/-- A block of the sample mesh with valid entries of the given keys. -/
def sampleBlock (timestamp : ℕ) (keys : List Bytes) : Block :=
  let b := draft primitives "mesh" 0 timestamp
  b.withSignatures (keys.map (sampleEntry b))

/-- The leader `[1]` signs both blocks; `[2]`, `[3]` sign the first and `[4]`, `[5]` the second. -/
def forkActs : List MeshAct :=
  ([[1], [2], [3]].map fun k => .sign (member k) (draft primitives "mesh" 0 0)) ++
  ([[1], [4], [5]].map fun k => .sign (member k) (draft primitives "mesh" 0 1)) ++
  [.publish (sampleBlock 0 [[1], [2], [3]]), .publish (sampleBlock 1 [[1], [4], [5]])]

/-- **Five members, one equivocator, two accepted blocks.** -/
theorem fiveEngine_forks : BftConsensus.new "mesh" fiveMembers 1 = .ok fiveEngine ∧
    ¬ Agreement primitives fiveEngine := by
  refine ⟨rfl, fun hagree => ?_⟩
  have hfork : ∃ m, Runs.run (Mesh.step primitives) Mesh.init forkActs = some m ∧
      (m.equivocators fiveEngine).card ≤ 1 ∧
      m.published = [sampleBlock 1 [[1], [4], [5]], sampleBlock 0 [[1], [2], [3]]] := by
    refine ⟨_, rfl, ?_, rfl⟩
    decide +kernel
  obtain ⟨m, hrun, hfaults, hpub⟩ := hfork
  have heq := hagree forkActs m hrun hfaults (sampleBlock 0 [[1], [2], [3]]) (by simp [hpub])
    (sampleBlock 1 [[1], [4], [5]]) (by simp [hpub]) rfl (by decide +kernel) (by decide +kernel)
  exact absurd heq (by decide +kernel)

end Peerless.Chain
