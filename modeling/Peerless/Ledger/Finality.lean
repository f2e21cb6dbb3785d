import Peerless.Ledger.History
import Peerless.Ledger.NetworkBinding

/-!
# What finality means

`finalize` counts the distinct members among the approvals it is given, `verify` the distinct members
with a valid entry; the block a node drafts with `next_block` meets every other check of `append`.

* `quorum_finality` — `finalize` succeeds exactly if the approving members reach the quorum,
  and then its block verifies and is appended.
-/

namespace Peerless.Chain

open Text JsonText Peerless.Core Identity Sample

variable {P : Primitives}

/-- The distinct members among the approvals. -/
def QuorumConsensus.approving (e : QuorumConsensus) (approvals : List (NodeIdentity P)) :
    Finset NodeId :=
  (approvals.map NodeIdentity.nodeId).toFinset.filter fun id => id ∈ e.members.ids

theorem QuorumConsensus.collect_nodup (e : QuorumConsensus) (payload : Bytes) :
    ∀ (approvals : List (NodeIdentity P)) (signatures : List ConsensusSignature)
      (seen : Finset NodeId), (signatures.map ConsensusSignature.signer).Nodup →
      (∀ s ∈ signatures, s.signer ∈ seen) →
      ((e.collect payload signatures seen approvals).1.map ConsensusSignature.signer).Nodup := by
  intro approvals
  induction approvals with
  | nil => intro signatures seen hnodup _; exact hnodup
  | cons i approvals ih =>
    intro signatures seen hnodup hseen
    rw [collect]
    split
    · rename_i hnew
      split
      · exact hnodup
      · apply ih
        · rw [List.map_append, List.map_singleton]
          refine hnodup.append (List.nodup_singleton _) (List.disjoint_singleton.mpr fun hmem => ?_)
          obtain ⟨s, hs, hsigner⟩ := List.mem_map.mp hmem
          have hknown := hseen s hs
          rw [hsigner] at hknown
          exact hnew.2 hknown
        · intro s hs
          rcases List.mem_append.mp hs with hs | hs
          · exact Finset.mem_insert_of_mem (hseen s hs)
          · rw [List.mem_singleton.mp hs]
            exact Finset.mem_insert_self _ _
    · exact ih signatures seen hnodup hseen

/-- **What `finalize` leaves in a block**: the entries of the approving members, one each. -/
theorem QuorumConsensus.finalize_eq (hP : P.Lawful) (e : QuorumConsensus) (b : Block)
    (approvals : List (NodeIdentity P)) : ∃ added : List ConsensusSignature,
      (added.map ConsensusSignature.signer).Nodup ∧
      (added.map ConsensusSignature.signer).toFinset = e.approving approvals ∧
      (∀ s ∈ added, ∃ i ∈ approvals, EntryOf P e b.proposalBytes i s) ∧
      e.finalize b approvals = ({ b with consensus := ⟨e.networkId, added⟩ },
        if added.length < e.quorum then .error .noQuorum else .ok ()) := by
  obtain ⟨added, hcollect, hfrom, hall⟩ := e.collect_lawful hP b.proposalBytes approvals [] ∅
  have hnodup := e.collect_nodup b.proposalBytes approvals [] ∅ List.nodup_nil (by simp)
  rw [hcollect, List.nil_append] at hnodup
  refine ⟨added, hnodup, ?_, hfrom, ?_⟩
  · ext id
    simp only [approving, List.mem_toFinset, Finset.mem_filter, List.mem_map]
    constructor
    · rintro ⟨s, hs, rfl⟩
      obtain ⟨i, hi, hentry⟩ := hfrom s hs
      rw [hentry.signer]
      exact ⟨⟨i, hi, rfl⟩, hentry.member⟩
    · rintro ⟨⟨i, hi, rfl⟩, hmember⟩
      obtain ⟨s, hs, hsigner⟩ := hall i hi hmember (Finset.notMem_empty _)
      exact ⟨s, hs, hsigner⟩
  · rw [finalize, hcollect, List.nil_append]
    dsimp only
    split
    · rfl
    · rfl

theorem QuorumConsensus.finalize_ok_iff (hP : P.Lawful) (e : QuorumConsensus) (b : Block)
    (approvals : List (NodeIdentity P)) :
    (e.finalize b approvals).2 = .ok () ↔ e.quorum ≤ (e.approving approvals).card := by
  obtain ⟨added, hnodup, hsigners, _, hfinalize⟩ := e.finalize_eq hP b approvals
  have hcount : (e.approving approvals).card = added.length := by
    rw [← hsigners, List.toFinset_card_of_nodup hnodup, List.length_map]
  rw [hfinalize, hcount]
  dsimp only
  split
  · rename_i hfew
    constructor
    · intro h
      cases h
    · intro hmany
      exact absurd hfew (Nat.not_lt.mpr hmany)
  · rename_i hmany
    exact ⟨fun _ => Nat.not_lt.mp hmany, fun _ => rfl⟩

theorem QuorumConsensus.verify_finalize (hP : P.Lawful) (e : QuorumConsensus) (b : Block)
    (approvals : List (NodeIdentity P)) (hok : (e.finalize b approvals).2 = .ok ()) :
    e.verify P (e.finalize b approvals).1 = .ok true := by
  have hquorum := (e.finalize_ok_iff hP b approvals).mp hok
  obtain ⟨added, _, hsigners, hfrom, hfinalize⟩ := e.finalize_eq hP b approvals
  have happroves : ∀ s ∈ added, e.approves P b.proposalBytes s = true := by
    intro s hs
    obtain ⟨i, _, hentry⟩ := hfrom s hs
    apply approves_iff.mpr
    rw [hentry.signer]
    refine ⟨hentry.member, ?_, hentry.valid⟩
    rw [hentry.publicKey]
    exact i.nodeId_eq.symm
  rw [hfinalize]
  refine verify_eq_true_iff.mpr ⟨rfl, fun s hs => ?_, ?_⟩
  · obtain ⟨i, _, hentry⟩ := hfrom s hs
    exact hentry.accepts hP
  · have hall : e.approvers P b.proposalBytes added = e.approving approvals := by
      rw [← hsigners, approvers, List.filter_eq_self.mpr happroves]
    show e.quorum ≤ (e.approvers P b.proposalBytes added).card
    rw [hall]
    exact hquorum

/-- What an accepted block shows: a quorum of distinct members, each with a valid entry. -/
def QuorumConsensus.QuorumOf (P : Primitives) (e : QuorumConsensus) (b : Block) : Prop :=
  ∃ signers : Finset NodeId, e.quorum ≤ signers.card ∧ ∀ id ∈ signers, id ∈ e.members.ids ∧
    ∃ s ∈ b.consensus.signatures, s.signer = id ∧ NodeId.derive P s.publicKey = id ∧
      Identity.verify P s.publicKey b.proposalBytes s.signature = .ok true

theorem QuorumConsensus.quorumOf_of_verify {e : QuorumConsensus} {b : Block}
    (hverify : e.verify P b = .ok true) : b.consensus.networkId = e.networkId ∧ e.QuorumOf P b := by
  obtain ⟨hnetwork, _, hcount⟩ := verify_eq_true_iff.mp hverify
  refine ⟨hnetwork, e.approvers P b.proposalBytes b.consensus.signatures, hcount, fun id hid => ?_⟩
  obtain ⟨s, hs, rfl, happroves⟩ := mem_approvers.mp hid
  obtain ⟨hmember, hkey, hvalid⟩ := approves_iff.mp happroves
  exact ⟨hmember, s, hs, rfl, hkey, hvalid⟩

/-! ### Appending a finalized draft -/

theorem verify_of_seal (hP : P.Lawful) {event : LedgerEvent} {identity : NodeIdentity P}
    {e : SignedEvent} (hseal : SignedEvent.seal event identity = .ok e) : e.verify P = .ok true := by
  obtain ⟨e', hseal', _, hverify⟩ := SignedEvent.verify_seal hP event identity
  rw [hseal] at hseal'
  rw [Except.ok.inj hseal']
  exact hverify

/-- **A finalized draft is appended** to any ledger a node can hold. -/
theorem append_finalized (hP : P.Lawful) (e : QuorumConsensus) {parse : Bytes → Option Block}
    {dir : Dir} {l : Ledger} (hl : Built P parse dir l) (hlength : l.blocks.length < 2 ^ 64)
    {events : List SignedEvent}
    (hevents : ∀ ev ∈ events, ∃ event identity, SignedEvent.seal (P := P) event identity = .ok ev)
    {timestamp : ℕ} (htime : ∀ a ∈ l.blocks.getLast?, a.timestamp ≤ timestamp)
    (networkId : String) {approvals : List (NodeIdentity P)} {block : Block}
    (hblock : e.finalize (l.nextBlock P events timestamp networkId) approvals = (block, .ok ()))
    (hsize : block.encodePretty.length ≤ maxBlockBytes) :
    l.append P dir block (e.engine P) =
      .ok (dir ++ [block.file P], ⟨l.blocks ++ [block]⟩, block.hash P) := by
  obtain ⟨added, _, _, _, hfinalize⟩ :=
    e.finalize_eq hP (l.nextBlock P events timestamp networkId) approvals
  have hfields : block = { l.nextBlock P events timestamp networkId with
      consensus := ⟨e.networkId, added⟩ } := by
    rw [hblock] at hfinalize
    exact (Prod.mk.inj hfinalize).1
  have hverify : e.verify P block = .ok true := by
    have hok := e.verify_finalize hP (l.nextBlock P events timestamp networkId) approvals
    rw [hblock] at hok
    exact hok rfl
  have hheight : block.height.toNat = l.blocks.length := by
    rw [hfields]
    show (UInt64.ofNat l.blocks.length).toNat = l.blocks.length
    rw [UInt64.toNat_ofNat']
    exact Nat.mod_eq_of_lt hlength
  refine Ledger.append_eq_ok_iff.mpr ⟨⟨?_, hheight, ?_, ?_, ?_, ?_, hverify, hsize⟩,
    (built_sound hl).fresh hheight, rfl⟩
  · rw [hfields]
    refine (verifyEvents_eq_true_iff events).mpr fun ev hev => ?_
    obtain ⟨event, identity, hseal⟩ := hevents ev hev
    exact verify_of_seal hP hseal
  · rw [hfields]
    rfl
  · rw [hfields]
    rfl
  · rw [hfields]
    exact htime
  · rw [hfields]
    rfl

/-- **Finality means exactly a quorum of distinct members.** -/
theorem quorum_finality (hP : P.Lawful) (e : QuorumConsensus) :
    (∀ (b : Block) (approvals : List (NodeIdentity P)),
      ((e.finalize b approvals).2 = .ok () ↔ e.quorum ≤ (e.approving approvals).card) ∧
      ((e.finalize b approvals).2 = .ok () → e.verify P (e.finalize b approvals).1 = .ok true)) ∧
    (∀ b : Block, e.verify P b = .ok true → b.consensus.networkId = e.networkId ∧ e.QuorumOf P b) ∧
    ∀ (parse : Bytes → Option Block) (dir : Dir) (l : Ledger), Built P parse dir l →
      l.blocks.length < 2 ^ 64 → ∀ (events : List SignedEvent) (timestamp : ℕ) (networkId : String)
      (approvals : List (NodeIdentity P)) (block : Block),
      (∀ ev ∈ events, ∃ event identity, SignedEvent.seal (P := P) event identity = .ok ev) →
      (∀ a ∈ l.blocks.getLast?, a.timestamp ≤ timestamp) →
      e.finalize (l.nextBlock P events timestamp networkId) approvals = (block, .ok ()) →
      block.encodePretty.length ≤ maxBlockBytes →
      l.append P dir block (e.engine P) =
        .ok (dir ++ [block.file P], ⟨l.blocks ++ [block]⟩, block.hash P) := by
  refine ⟨fun b approvals => ⟨e.finalize_ok_iff hP b approvals, e.verify_finalize hP b approvals⟩,
    fun b => QuorumConsensus.quorumOf_of_verify, ?_⟩
  intro parse dir l hl hlength events timestamp networkId approvals block hevents htime hblock hsize
  exact append_finalized hP e hl hlength hevents htime networkId hblock hsize

/-- Approvals with a repetition and a stranger: three distinct members. -/
def mixedApprovals : List (NodeIdentity compact) :=
  [[1], [1], [9], [2], [3]].map NodeIdentity.ofKeypair

/-- An event as its signer seals it. -/
def createdEvent : SignedEvent :=
  ⟨.taskCreated "t", member [7], [7],
    [7] ++ (compact.sha256 (write (LedgerEvent.taskCreated "t").toJson)).bytes⟩

/-- The next block of a ledger with that event, drafted for another network and finalized. -/
def mixedBlock (l : Ledger) : Block :=
  (fourEngine.inner.finalize (l.nextBlock compact [createdEvent] 5 "draft") mixedApprovals).1

/-- Three of four members finalize, however often they approve, and two do not.  A first and a second block
that the three finalized are appended. -/
theorem mixedApprovals_finalize :
    (fourEngine.inner.finalize (draft compact "mesh" 0 0) (mixedApprovals.take 4)).2 ≠ .ok () ∧
    let first := mixedBlock ⟨[]⟩
    let second := mixedBlock ⟨[first]⟩
    fourEngine.inner.verify compact first = .ok true ∧
    Ledger.append compact [] ⟨[]⟩ first (fourEngine.inner.engine compact) =
      .ok ([first.file compact], ⟨[first]⟩, first.hash compact) ∧
    Ledger.append compact [first.file compact] ⟨[first]⟩ second
      (fourEngine.inner.engine compact) =
        .ok ([first.file compact, second.file compact], ⟨[first, second]⟩,
          second.hash compact) := by
  obtain ⟨hfinalize, _, happend⟩ := quorum_finality compact_lawful fourEngine.inner
  have hok : ∀ l : Ledger, (fourEngine.inner.finalize
      (l.nextBlock compact [createdEvent] 5 "draft") mixedApprovals).2 = .ok () := fun l =>
    (hfinalize _ mixedApprovals).1.mpr (by decide +kernel)
  have hsealed : ∀ ev ∈ [createdEvent], ∃ event identity,
      SignedEvent.seal (P := compact) event identity = .ok ev := by
    intro ev hev
    rw [List.mem_singleton.mp hev]
    exact ⟨.taskCreated "t", NodeIdentity.ofKeypair [7], rfl⟩
  have hopened : Built compact (fun _ => none) [] ⟨[]⟩ := .opened List.nodup_nil (.refl []) rfl
  have hfirst := happend _ _ _ hopened (by decide) [createdEvent] 5 "draft" mixedApprovals
    (mixedBlock ⟨[]⟩) hsealed (by simp) (Prod.ext rfl (hok ⟨[]⟩)) (by decide +kernel)
  refine ⟨fun hfew => absurd ((hfinalize _ _).1.mp hfew) (by decide +kernel),
    (hfinalize _ _).2 (hok ⟨[]⟩), hfirst, ?_⟩
  refine happend _ _ _ (.appended hopened hfirst) (by decide) [createdEvent] 5 "draft" mixedApprovals
    (mixedBlock ⟨[mixedBlock ⟨[]⟩]⟩) hsealed ?_ (Prod.ext rfl (hok _)) (by decide +kernel)
  rintro a ⟨⟩
  exact Nat.le_refl 5

end Peerless.Chain
