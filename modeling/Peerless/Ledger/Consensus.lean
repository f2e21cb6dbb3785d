import Peerless.Ledger.Block
import Mathlib.Data.Finset.Card
import Mathlib.Data.List.Sort

/-!
# Quorum and BFT consensus engines

`ConsensusEngine` and its two implementations.  A hash set of members is a duplicate-free list that
fits into memory (`MemberSet`); the engines carry what their constructors check.
-/

namespace Peerless.Chain

open Text Peerless.Core Identity

/-! ### Saturating arithmetic of `usize` -/

def usizeMax : ℕ := 2 ^ 64 - 1

def saturatingMul (a b : ℕ) : ℕ := min (a * b) usizeMax

def saturatingAdd (a b : ℕ) : ℕ := min (a + b) usizeMax

/-- The members of an engine: a `HashSet<NodeId>`, whose table never exceeds `isize::MAX` bytes. -/
structure MemberSet where
  ids : List NodeId
  nodup : ids.Nodup
  fits : ids.length < 2 ^ 63

/-! ### The engines -/

structure QuorumConsensus where
  networkId : String
  members : MemberSet
  quorum : ℕ
  pos : 0 < quorum
  le : quorum ≤ members.ids.length

def QuorumConsensus.new (networkId : String) (members : MemberSet) (quorum : ℕ) :
    Except LedgerError QuorumConsensus :=
  if h : quorum = 0 ∨ quorum > members.ids.length then .error .invalidQuorum
  else .ok { networkId, members, quorum, pos := by omega, le := by omega }

variable {members : MemberSet} {e : QuorumConsensus}

theorem QuorumConsensus.new_ok {networkId : String} {quorum : ℕ}
    (h : QuorumConsensus.new networkId members quorum = .ok e) :
    e.networkId = networkId ∧ e.members = members ∧ e.quorum = quorum := by
  unfold QuorumConsensus.new at h
  split at h
  · cases h
  · rw [← Except.ok.inj h]
    exact ⟨rfl, rfl, rfl⟩

/-- `BftConsensus`, with what `BftConsensus::new` established. -/
structure BftConsensus where
  inner : QuorumConsensus
  orderedMembers : List NodeId
  maxFaults : ℕ
  ordered : orderedMembers = inner.members.ids.insertionSort fun a b => NodeId.le a b
  quorum_eq : inner.quorum = 2 * maxFaults + 1
  enough : 3 * maxFaults + 1 ≤ inner.members.ids.length

/-- A set that passes the size check keeps both saturating products below the limit. -/
theorem saturating_exact {maxFaults : ℕ}
    (h : ¬ members.ids.length < saturatingAdd (saturatingMul maxFaults 3) 1) :
    saturatingAdd (saturatingMul maxFaults 2) 1 = 2 * maxFaults + 1 ∧
      3 * maxFaults + 1 ≤ members.ids.length := by
  have hfits := members.fits
  simp only [saturatingAdd, saturatingMul, usizeMax] at h ⊢
  omega

def BftConsensus.new (networkId : String) (members : MemberSet) (maxFaults : ℕ) :
    Except LedgerError BftConsensus :=
  let requiredMembers := saturatingAdd (saturatingMul maxFaults 3) 1
  if hreq : members.ids.length < requiredMembers then .error .invalidQuorum
  else
    let quorum := saturatingAdd (saturatingMul maxFaults 2) 1
    let orderedMembers := members.ids.insertionSort fun a b => NodeId.le a b
    match hinner : QuorumConsensus.new networkId members quorum with
    | .error e => .error e
    | .ok inner => .ok
      { inner, orderedMembers, maxFaults
        ordered := by rw [(QuorumConsensus.new_ok hinner).2.1]
        quorum_eq := by rw [(QuorumConsensus.new_ok hinner).2.2]; exact (saturating_exact hreq).1
        enough := by rw [(QuorumConsensus.new_ok hinner).2.1]; exact (saturating_exact hreq).2 }

theorem BftConsensus.new_ok {networkId : String} {maxFaults : ℕ} {e : BftConsensus}
    (h : BftConsensus.new networkId members maxFaults = .ok e) :
    e.inner.networkId = networkId ∧ e.inner.members = members ∧ e.maxFaults = maxFaults := by
  unfold BftConsensus.new at h
  dsimp only at h
  split at h
  · cases h
  · split at h
    · cases h
    · rename_i inner hinner
      rw [← Except.ok.inj h]
      exact ⟨(QuorumConsensus.new_ok hinner).1, (QuorumConsensus.new_ok hinner).2.1, rfl⟩

theorem BftConsensus.ordered_perm (e : BftConsensus) :
    e.orderedMembers.Perm e.inner.members.ids := by
  rw [e.ordered]
  exact List.perm_insertionSort _ _

theorem BftConsensus.ordered_pos (e : BftConsensus) : 0 < e.orderedMembers.length := by
  have hlen := e.ordered_perm.length_eq
  have henough := e.enough
  omega

/-- `BftConsensus::leader`: the height picks a member round-robin. -/
def BftConsensus.leader (e : BftConsensus) (height : UInt64) : NodeId :=
  e.orderedMembers.get ⟨height.toNat % e.orderedMembers.length, Nat.mod_lt _ e.ordered_pos⟩

theorem BftConsensus.leader_mem (e : BftConsensus) (height : UInt64) :
    e.leader height ∈ e.inner.members.ids :=
  e.ordered_perm.subset (List.get_mem _ _)

/-! ### Verification -/

variable (P : Primitives)

/-- The test of one entry in the loop of `verify`. -/
def QuorumConsensus.accepts (e : QuorumConsensus) (payload : Bytes) (approval : ConsensusSignature) :
    Except LedgerError Bool :=
  if approval.signer ∈ e.members.ids ∧ NodeId.derive P approval.publicKey = approval.signer then
    (Identity.verify P approval.publicKey payload approval.signature).mapError .identity
  else .ok false

/-- The loop of `verify`: collects the signers of the accepted entries. -/
def QuorumConsensus.tally (e : QuorumConsensus) (payload : Bytes) :
    Finset NodeId → List ConsensusSignature → Except LedgerError (Finset NodeId)
  | valid, [] => .ok valid
  | valid, approval :: approvals =>
    match e.accepts P payload approval with
    | .error err => .error err
    | .ok true => e.tally payload (insert approval.signer valid) approvals
    | .ok false => e.tally payload valid approvals

def QuorumConsensus.verify (e : QuorumConsensus) (block : Block) : Except LedgerError Bool :=
  if block.consensus.networkId ≠ e.networkId then .ok false
  else
    match e.tally P block.proposalBytes ∅ block.consensus.signatures with
    | .error err => .error err
    | .ok valid => .ok (valid.card ≥ e.quorum)

def BftConsensus.verify (e : BftConsensus) (block : Block) : Except LedgerError Bool :=
  if block.consensus.signatures.any fun s => s.signer = e.leader block.height then
    e.inner.verify P block
  else .ok false

/-- The entries the loop counts. -/
def QuorumConsensus.approves (e : QuorumConsensus) (payload : Bytes) (s : ConsensusSignature) :
    Bool :=
  match e.accepts P payload s with
  | .ok r => r
  | .error _ => false

/-- The distinct members with a counted entry. -/
def QuorumConsensus.approvers (e : QuorumConsensus) (payload : Bytes)
    (signatures : List ConsensusSignature) : Finset NodeId :=
  ((signatures.filter (e.approves P payload)).map ConsensusSignature.signer).toFinset

/-- No entry stops the loop: every member entry that derives to its signer has a decodable key. -/
def QuorumConsensus.Readable (e : QuorumConsensus) (payload : Bytes)
    (signatures : List ConsensusSignature) : Prop :=
  ∀ s ∈ signatures, e.accepts P payload s = .ok (e.approves P payload s)

variable {P}

variable {s : ConsensusSignature}

theorem QuorumConsensus.approves_iff {payload : Bytes} : e.approves P payload s = true ↔
      s.signer ∈ e.members.ids ∧ NodeId.derive P s.publicKey = s.signer ∧
        Identity.verify P s.publicKey payload s.signature = .ok true := by
  unfold approves accepts
  by_cases h : s.signer ∈ e.members.ids ∧ NodeId.derive P s.publicKey = s.signer
  · rw [if_pos h]
    cases hv : Identity.verify P s.publicKey payload s.signature with
    | error err => simp [Except.mapError]
    | ok r => simp [Except.mapError, h]
  · rw [if_neg h]
    simp only [Bool.false_eq_true, false_iff]
    rintro ⟨h1, h2, _⟩
    exact h ⟨h1, h2⟩

theorem QuorumConsensus.approves_of_accepts {payload : Bytes} {r : Bool}
    (h : e.accepts P payload s = .ok r) : e.approves P payload s = r := by
  rw [approves, h]

theorem QuorumConsensus.accepts_of_approves {payload : Bytes} (h : e.approves P payload s = true) :
    e.accepts P payload s = .ok true := by
  unfold approves at h
  split at h
  · rename_i r hr
    rw [hr, h]
  · cases h

theorem QuorumConsensus.tally_eq_ok_iff {payload : Bytes} :
    ∀ (as : List ConsensusSignature) (valid r : Finset NodeId),
      e.tally P payload valid as = .ok r ↔
        e.Readable P payload as ∧ r = valid ∪ e.approvers P payload as := by
  intro as
  induction as with
  | nil =>
    intro valid r
    simp [tally, Readable, approvers, eq_comm]
  | cons a as ih =>
    intro valid r
    have hap : e.approves P payload a = match e.accepts P payload a with
        | .ok r => r
        | .error _ => false := rfl
    rw [tally]
    cases hacc : e.accepts P payload a with
    | error err =>
      simp [Readable, hacc]
    | ok ra =>
      rw [hacc] at hap
      simp only at hap
      cases ra with
      | true =>
        simp only [ih, Readable, List.forall_mem_cons, hacc, hap, approvers, List.filter_cons,
          if_true, List.map_cons, List.toFinset_cons, Finset.insert_union, Finset.union_insert,
          true_and]
      | false =>
        simp only [ih, Readable, List.forall_mem_cons, hacc, hap, approvers, List.filter_cons,
          Bool.false_eq_true, if_false, true_and]

variable {b : Block}

theorem QuorumConsensus.verify_eq_true_iff :
    e.verify P b = .ok true ↔ b.consensus.networkId = e.networkId ∧
      e.Readable P b.proposalBytes b.consensus.signatures ∧
      e.quorum ≤ (e.approvers P b.proposalBytes b.consensus.signatures).card := by
  unfold verify
  by_cases hnet : b.consensus.networkId = e.networkId
  · rw [if_neg (not_not.mpr hnet)]
    cases ht : e.tally P b.proposalBytes ∅ b.consensus.signatures with
    | error err =>
      simp only [reduceCtorEq, false_iff]
      rintro ⟨_, hr, _⟩
      rw [(tally_eq_ok_iff _ _ _).mpr ⟨hr, rfl⟩] at ht
      cases ht
    | ok r =>
      obtain ⟨hr, hval⟩ := (tally_eq_ok_iff _ _ _).mp ht
      rw [Finset.empty_union] at hval
      simp [hnet, hr, hval]
  · rw [if_pos hnet]
    simp [hnet]

theorem BftConsensus.verify_eq_true_iff {e : BftConsensus} :
    e.verify P b = .ok true ↔
      (∃ s ∈ b.consensus.signatures, s.signer = e.leader b.height) ∧
        e.inner.verify P b = .ok true := by
  unfold verify
  split
  · rename_i h
    simp only [List.any_eq_true, decide_eq_true_eq] at h
    simp [h]
  · rename_i h
    simp only [List.any_eq_true, decide_eq_true_eq] at h
    simp [h]

theorem QuorumConsensus.mem_approvers {payload : Bytes} {as : List ConsensusSignature} {m : NodeId} :
    m ∈ e.approvers P payload as ↔
      ∃ s ∈ as, s.signer = m ∧ e.approves P payload s = true := by
  simp only [approvers, List.mem_toFinset, List.mem_map, List.mem_filter]
  constructor
  · rintro ⟨s, ⟨hs, ha⟩, hm⟩
    exact ⟨s, hs, hm, ha⟩
  · rintro ⟨s, hs, hm, ha⟩
    exact ⟨s, ⟨hs, ha⟩, hm⟩

theorem QuorumConsensus.approvers_subset {payload : Bytes} {as : List ConsensusSignature} :
    e.approvers P payload as ⊆ e.members.ids.toFinset := by
  intro m hm
  obtain ⟨s, _, rfl, ha⟩ := mem_approvers.mp hm
  exact List.mem_toFinset.mpr (approves_iff.mp ha).1

/-- `verify` reads the proposal bytes and the proof of a block, and nothing else. -/
theorem QuorumConsensus.verify_congr (e : QuorumConsensus) {a : Block}
    (hp : a.proposalBytes = b.proposalBytes) (hc : a.consensus = b.consensus) :
    e.verify P a = e.verify P b := by
  rw [verify, verify, hp, hc]

/-! ### Finalization -/

/-- The loop of `finalize`: every distinct member among the approvals adds one entry.  The entries
added before a signing error stay in the block. -/
def QuorumConsensus.collect (e : QuorumConsensus) (payload : Bytes) :
    List ConsensusSignature → Finset NodeId → List (NodeIdentity P) →
      List ConsensusSignature × Except LedgerError Unit
  | signatures, _, [] => (signatures, .ok ())
  | signatures, seen, identity :: approvals =>
    if identity.nodeId ∈ e.members.ids ∧ identity.nodeId ∉ seen then
      match identity.sign payload with
      | .error err => (signatures, .error (.identity err))
      | .ok signature =>
        let entry : ConsensusSignature := ⟨identity.nodeId, identity.publicKeyDer, signature⟩
        e.collect payload (signatures ++ [entry]) (insert identity.nodeId seen) approvals
    else e.collect payload signatures seen approvals

/-- `QuorumConsensus::finalize`: the block after the call and the result. -/
def QuorumConsensus.finalize (e : QuorumConsensus) (block : Block)
    (approvals : List (NodeIdentity P)) : Block × Except LedgerError Unit :=
  let (signatures, result) := e.collect block.proposalBytes [] ∅ approvals
  let block := { block with consensus := ⟨e.networkId, signatures⟩ }
  match result with
  | .error err => (block, .error err)
  | .ok () => if signatures.length < e.quorum then (block, .error .noQuorum) else (block, .ok ())

theorem QuorumConsensus.finalize_events (e : QuorumConsensus) (b : Block)
    (approvals : List (NodeIdentity P)) : (e.finalize b approvals).1.events = b.events := by
  unfold finalize
  dsimp only
  split
  · rfl
  · split <;> rfl

/-- A member that finalizes alone produces a block its engine accepts, if one approval is enough. -/
theorem QuorumConsensus.finalize_solo (hP : P.Lawful) (e : QuorumConsensus) (b : Block)
    {own : NodeIdentity P} (hmem : own.nodeId ∈ e.members.ids) (hquorum : e.quorum = 1) :
    ∃ signatures, e.finalize b [own] =
        ({ b with consensus := ⟨e.networkId, signatures⟩ }, .ok ()) ∧
      e.verify P { b with consensus := ⟨e.networkId, signatures⟩ } = .ok true := by
  obtain ⟨g, hsign, hver⟩ := verify_sign hP own b.proposalBytes
  have hacc : e.accepts P b.proposalBytes ⟨own.nodeId, own.publicKeyDer, g⟩ = .ok true := by
    rw [accepts, if_pos ⟨hmem, own.nodeId_eq.symm⟩, hver]
    rfl
  refine ⟨[⟨own.nodeId, own.publicKeyDer, g⟩], ?_, ?_⟩
  · simp [finalize, collect, hmem, hsign, hquorum]
  · show (if e.networkId ≠ e.networkId then _ else _) = _
    rw [if_neg (not_not.mpr rfl)]
    show (match e.tally P b.proposalBytes ∅ _ with | .error err => _ | .ok valid => _) = _
    rw [tally, hacc]
    simp [tally, hquorum]

def BftConsensus.finalize (e : BftConsensus) (block : Block) (approvals : List (NodeIdentity P)) :
    Block × Except LedgerError Unit :=
  if approvals.any fun identity => identity.nodeId = e.leader block.height then
    e.inner.finalize block approvals
  else (block, .error .wrongLeader)

/-- The trait `ConsensusEngine`. -/
structure ConsensusEngine (P : Primitives) where
  finalize : Block → List (NodeIdentity P) → Block × Except LedgerError Unit
  verify : Block → Except LedgerError Bool

variable (P) in
def QuorumConsensus.engine (e : QuorumConsensus) : ConsensusEngine P := ⟨e.finalize, e.verify P⟩

variable (P) in
def BftConsensus.engine (e : BftConsensus) : ConsensusEngine P := ⟨e.finalize, e.verify P⟩

end Peerless.Chain
