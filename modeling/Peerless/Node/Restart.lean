import Peerless.Node.Policy
import Peerless.Sample

/-!
# Restarting a node with the certificates it issued

Runs of successful `install_invitation` and `issue_invitation` calls on a fresh node, followed by the
membership phase of `PeerlessNode::open` on what they stored.

* `load_ok_iff` — while the installed invitation verifies, the node restarts exactly
  when every stored certificate is unexpired when it is read and belongs to the invitation's
  network.
-/

namespace Peerless.Node

open Text JsonText HashMap Peerless.Core Identity Chain Sample

variable {P : Primitives} {own : NodeIdentity P}

/-! ### The certificate list -/

variable {m : Membership}

theorem mem_replaceOrPush {x : Membership} : ∀ l : List Membership,
    x ∈ replaceOrPush l m → x = m ∨ x ∈ l := by
  intro l
  induction l with
  | nil =>
    intro h
    exact Or.inl (List.mem_singleton.mp h)
  | cons k l ih =>
    intro h
    rw [replaceOrPush] at h
    split at h
    · rcases List.mem_cons.mp h with h | h
      · exact Or.inl h
      · exact Or.inr (List.mem_cons_of_mem _ h)
    · rcases List.mem_cons.mp h with h | h
      · exact Or.inr (by rw [h]; exact List.mem_cons_self)
      · rcases ih h with h | h
        · exact Or.inl h
        · exact Or.inr (List.mem_cons_of_mem _ h)

theorem replaceOrPush_new : ∀ l : List Membership,
    m.member ∉ l.map Membership.member → replaceOrPush l m = l ++ [m] := by
  intro l
  induction l with
  | nil => intro _; rfl
  | cons k l ih =>
    intro h
    rw [List.map_cons, List.mem_cons, not_or] at h
    rw [replaceOrPush, if_neg (fun hk => h.1 hk.symm), ih h.2]
    rfl

/-- A known member's certificate is replaced in place. -/
theorem replaceOrPush_known : ∀ l : List Membership,
    m.member ∈ l.map Membership.member →
      (replaceOrPush l m).map Membership.member = l.map Membership.member := by
  intro l
  induction l with
  | nil => intro h; exact absurd h List.not_mem_nil
  | cons k l ih =>
    intro h
    rw [replaceOrPush]
    split
    · rename_i hk
      rw [List.map_cons, List.map_cons, hk]
    · rename_i hk
      rw [List.map_cons, List.mem_cons] at h
      rw [List.map_cons, List.map_cons, ih (h.resolve_left fun he => hk he.symm)]

theorem replaceOrPush_nodup {l : List Membership} (h : (l.map Membership.member).Nodup) :
    ((replaceOrPush l m).map Membership.member).Nodup := by
  by_cases hm : m.member ∈ l.map Membership.member
  · rw [replaceOrPush_known l hm]
    exact h
  · rw [replaceOrPush_new l hm, List.map_append, List.nodup_append]
    refine ⟨h, List.nodup_singleton _, ?_⟩
    intro a ha b hb hab
    rw [List.map_singleton, List.mem_singleton] at hb
    rw [hab, hb] at ha
    exact hm ha

theorem replaceOrPush_length {l : List Membership}
    (h : (∃ known ∈ l, known.member = m.member) ∨ l.length < maxIssuedMemberships)
    (hl : l.length ≤ maxIssuedMemberships) : (replaceOrPush l m).length ≤ maxIssuedMemberships := by
  by_cases hm : m.member ∈ l.map Membership.member
  · have hlen := congrArg List.length (replaceOrPush_known l hm)
    rw [List.length_map, List.length_map] at hlen
    omega
  · rw [replaceOrPush_new l hm, List.length_append, List.length_singleton]
    rcases h with ⟨k, hk, hkm⟩ | h
    · exact absurd (List.mem_map.mpr ⟨k, hk, hkm⟩) hm
    · omega

/-! ### Runs of successful calls -/

inductive MembershipCall where
  | install (invitation : Invitation) (now : ℕ)
  | issue (networkId : String) (member : NodeId) (permissions : List String) (expiresAt : Option ℕ)
      (bootstrap : List String) (issuedAt checkedAt registeredAt : ℕ)

/-- One successful call. -/
def callStep (own : NodeIdentity P) (s : PeerlessNode) : MembershipCall → Option PeerlessNode
  | .install invitation now =>
    match s.installInvitation own invitation now true with
    | (s, .ok ()) => some s
    | (_, .error _) => none
  | .issue networkId member permissions expiresAt bootstrap issuedAt checkedAt registeredAt =>
    match s.issueInvitation own networkId member permissions expiresAt bootstrap issuedAt checkedAt
        registeredAt true with
    | (s, .ok _) => some s
    | (_, .error _) => none

/-- A fresh node: no files, an empty ledger. -/
def fresh : PeerlessNode := PeerlessNode.blank ⟨none, none, []⟩ ⟨[]⟩

/-- What holds of the stored files between calls. -/
structure Loadable (own : NodeIdentity P) (s : PeerlessNode) : Prop where
  invitationSize : ∀ i, s.disk.invitation = some i →
    (writePretty 0 i.toJson).length ≤ maxMembershipFileBytes
  issued : s.disk.issued.getD [] = s.issued
  issuedSize : ∀ l, s.disk.issued = some l →
    (writePretty 0 (membershipsJson l)).length ≤ maxMembershipFileBytes
  count : s.issued.length ≤ maxIssuedMemberships
  members : (s.issued.map Membership.member).Nodup
  local_ : ∀ m ∈ s.issued, m.issuer = own.nodeId ∧ m.Signed P

theorem loadable_fresh : Loadable own fresh where
  invitationSize := fun _ h => absurd h (by simp [fresh, PeerlessNode.blank])
  issued := rfl
  issuedSize := fun _ h => absurd h (by simp [fresh, PeerlessNode.blank])
  count := by decide
  members := List.nodup_nil
  local_ := fun _ h => absurd h List.not_mem_nil

variable {s : PeerlessNode}

theorem Loadable.withPolicy {p : Option MembershipPolicy} (h : Loadable own s) :
    Loadable own { s with policy := p } :=
  ⟨h.invitationSize, h.issued, h.issuedSize, h.count, h.members, h.local_⟩

theorem loadable_registered {now : ℕ} {active : MembershipPolicy} (h : Loadable own s)
    (hreg : Registrable own s m now true true active) :
    Loadable own (s.registered m true active) where
  invitationSize := h.invitationSize
  issued := rfl
  issuedSize := by
    intro l hl
    rw [← Option.some.inj hl]
    exact hreg.size rfl
  count := replaceOrPush_length hreg.room h.count
  members := replaceOrPush_nodup h.members
  local_ := by
    intro x hx
    rcases mem_replaceOrPush _ hx with rfl | hx
    · exact ⟨hreg.issuer, (Membership.verify_eq_true_iff.mp hreg.valid).2.1⟩
    · exact h.local_ x hx

/-- **One successful call keeps the files loadable.** -/
theorem loadable_step {s' : PeerlessNode} {call : MembershipCall} (h : Loadable own s)
    (hstep : callStep own s call = some s') : Loadable own s' := by
  cases call with
  | install i now =>
    rw [callStep] at hstep
    split at hstep
    · rename_i s₁ hinst
      obtain ⟨hsize, hactivate⟩ := installInvitation_ok hinst
      obtain ⟨_, permissions, hs₁, _⟩ := activateInvitation_ok hactivate
      rw [← Option.some.inj hstep, hs₁]
      refine Loadable.withPolicy ⟨?_, h.issued, h.issuedSize, h.count, h.members, h.local_⟩
      intro j hj
      rw [← Option.some.inj hj]
      exact hsize
    · cases hstep
  | issue networkId member permissions expiresAt bootstrap issuedAt checkedAt registeredAt =>
    rw [callStep] at hstep
    split at hstep
    · rename_i s₁ i hissue
      rw [← Option.some.inj hstep]
      rcases issueInvitation_ok hissue with rfl | ⟨c, active, hregistrable, rfl⟩
      · exact h
      · exact loadable_registered h hregistrable
    · cases hstep

/-- **Every run of successful calls keeps them loadable.** -/
theorem loadable_run {calls : List MembershipCall} (hrun : Runs.run (callStep own) fresh calls = some s) :
    Loadable own s :=
  Runs.run_invariant' (fun _ _ _ => loadable_step) loadable_fresh hrun

/-! ### Loading -/

/-- The stored certificate can be read at this time, under this network. -/
def Readable (networkId : String) (m : Membership) (now : ℕ) : Prop :=
  m.liveAt now = true ∧ m.networkId = networkId

theorem register_stored_iff (now : ℕ) {active : MembershipPolicy} (hrev : s.revoked = ∅)
    (hpolicy : s.policy = some active) (hm : m.issuer = own.nodeId ∧ m.Signed P)
    (hroom : s.issued.length < maxIssuedMemberships) :
    (s.registerIssuedMembership own m now false true).2 = .ok () ↔
      Readable active.networkId m now := by
  constructor
  · intro h
    obtain ⟨active', hreg, _⟩ := registerIssuedMembership_ok_iff.mp
      (show s.registerIssuedMembership own m now false true = (_, .ok ()) from Prod.ext rfl h)
    have heq : active = active' := Option.some.inj (hpolicy.symm.trans hreg.policy)
    rw [heq]
    exact ⟨(Membership.verify_eq_true_iff.mp hreg.valid).2.2, hreg.network.symm⟩
  · intro ⟨hlive, hnet⟩
    have hreg : Registrable own s m now false true active :=
      { notRevoked := by rw [hrev]; simp
        issuer := hm.1
        valid := Membership.verify_eq_true_iff.mpr ⟨by rw [hm.1]; simp, hm.2, hlive⟩
        room := Or.inr hroom
        size := fun h => absurd h (by simp)
        policy := hpolicy
        network := hnet.symm
        written := fun h => absurd h (by simp) }
    rw [registerIssuedMembership_ok_iff.mpr ⟨active, hreg, rfl⟩]

theorem registerAll_ok_iff (own : NodeIdentity P) (clock : ℕ → ℕ) : ∀ (ms : List Membership) (i : ℕ)
    (s : PeerlessNode) (active : MembershipPolicy), s.revoked = ∅ → s.policy = some active →
    ((s.issued ++ ms).map Membership.member).Nodup →
    s.issued.length + ms.length ≤ maxIssuedMemberships →
    (∀ m ∈ ms, m.issuer = own.nodeId ∧ m.Signed P) →
    ((PeerlessNode.registerAll own clock i ms s).2 = .ok () ↔
      ∀ j m, ms[j]? = some m → Readable active.networkId m (clock (i + j + 1))) := by
  intro ms
  induction ms with
  | nil =>
    intro i s active _ _ _ _ _
    simp [PeerlessNode.registerAll]
  | cons m ms ih =>
    intro i s active hrev hpolicy hnodup hcount hlocal
    rw [List.length_cons] at hcount
    have hone := register_stored_iff (clock (i + 1)) hrev hpolicy (hlocal m List.mem_cons_self)
      (by omega)
    have hsplit : (∀ j x, (m :: ms)[j]? = some x →
        Readable active.networkId x (clock (i + j + 1))) ↔
        Readable active.networkId m (clock (i + 1)) ∧
          ∀ j x, ms[j]? = some x → Readable active.networkId x (clock (i + 1 + j + 1)) := by
      constructor
      · intro h
        refine ⟨h 0 m rfl, fun j x hx => ?_⟩
        have hj := h (j + 1) x hx
        rwa [show i + (j + 1) + 1 = i + 1 + j + 1 by omega] at hj
      · intro ⟨h0, hs⟩ j x hx
        cases j with
        | zero => rw [← Option.some.inj hx]; exact h0
        | succ j =>
          rw [show i + (j + 1) + 1 = i + 1 + j + 1 by omega]
          exact hs j x hx
    rw [hsplit, PeerlessNode.registerAll]
    cases hreg : s.registerIssuedMembership own m (clock (i + 1)) false true with
    | mk s₁ r =>
      rw [hreg] at hone
      cases r with
      | error e =>
        simp only [reduceCtorEq, false_iff] at hone ⊢
        exact fun h => hone h.1
      | ok u =>
        obtain ⟨active', hregistrable, rfl⟩ := registerIssuedMembership_ok_iff.mp hreg
        obtain rfl : active = active' := Option.some.inj (hpolicy.symm.trans hregistrable.policy)
        -- the member is new, so the list grows at its end
        have hnew : m.member ∉ s.issued.map Membership.member := by
          intro hmem
          rw [List.map_append, List.nodup_append] at hnodup
          exact hnodup.2.2 _ hmem _ (List.mem_map_of_mem List.mem_cons_self) rfl
        have hissued : (s.registered m false active).issued = s.issued ++ [m] :=
          replaceOrPush_new s.issued hnew
        have hrest := ih (i + 1) (s.registered m false active)
          (active.grant m.member (accessOf m)) hrev rfl
          (by rw [hissued, List.append_assoc]; exact hnodup)
          (by rw [hissued, List.length_append, List.length_singleton]; omega)
          (fun x hx => hlocal x (List.mem_cons_of_mem _ hx))
        exact hrest.trans ⟨fun h => ⟨hone.mp rfl, h⟩, fun h => h.2⟩

theorem loadInvitation_ok {i : Invitation} {clock : ℕ → ℕ} (hi : s.disk.invitation = some i)
    (hsize : (writePretty 0 i.toJson).length ≤ maxMembershipFileBytes)
    (hver : i.verifyFor P own.nodeId (clock 0) = .ok true) :
    ∃ permissions, s.loadInvitation own clock =
      ({ s with policy := some ⟨i.membership.networkId, permissions⟩ }, .ok ()) := by
  obtain ⟨s', hs'⟩ := activateInvitation_of_verified (s := s) hver
  obtain ⟨_, permissions, hpolicy, _⟩ := activateInvitation_ok hs'
  refine ⟨permissions, ?_⟩
  rw [PeerlessNode.loadInvitation, hi]
  simp only
  rw [if_neg (not_lt.mpr hsize), hs', hpolicy]

/-- **When a node restarts.**  After any run of successful calls, at any later readings of the clock
at which the installed invitation verifies, the membership phase of `open` succeeds exactly when
every stored certificate is unexpired when it is read and belongs to the invitation's network. -/
theorem load_ok_iff {calls : List MembershipCall} {s : PeerlessNode}
    (hrun : Runs.run (callStep own) fresh calls = some s) {i : Invitation}
    (hi : s.disk.invitation = some i) (ledger : Ledger) {clock : ℕ → ℕ}
    (hver : i.verifyFor P own.nodeId (clock 0) = .ok true) :
    ((PeerlessNode.blank s.disk ledger).loadMemberships own clock).2 = .ok () ↔
      ∀ (j : ℕ) (m : Membership), (s.disk.issued.getD [])[j]? = some m →
        m.liveAt (clock (j + 1)) = true ∧ m.networkId = i.membership.networkId := by
  have h := loadable_run hrun
  obtain ⟨permissions, hload⟩ := loadInvitation_ok (s := PeerlessNode.blank s.disk ledger) hi
    (h.invitationSize i hi) hver
  rw [PeerlessNode.loadMemberships, hload]
  simp only [PeerlessNode.loadIssued, PeerlessNode.blank]
  cases hd : s.disk.issued with
  | none => simp
  | some l =>
    have hl : l = s.issued := by rw [← h.issued, hd]; rfl
    subst hl
    simp only [Option.getD_some]
    rw [if_neg (not_lt.mpr (h.issuedSize _ hd)), if_neg (not_lt.mpr h.count)]
    have hall := registerAll_ok_iff own clock s.issued 0
      { disk := s.disk, ledger := ledger, policy := some ⟨i.membership.networkId, permissions⟩,
        issued := [], revoked := ∅ } ⟨i.membership.networkId, permissions⟩ rfl rfl
      (by rw [List.nil_append]; exact h.members) (by simpa using h.count) h.local_
    simp only [Nat.zero_add] at hall
    exact hall

/-! ### A certificate that runs out -/

/-- The sample node's own invitation, without expiry. -/
def genesis : Invitation :=
  let m : Membership := ⟨"mesh", member [1], member [1], ["*"], none, [1], []⟩
  ⟨1, { m with signature := 1 :: m.payload }, [], 0⟩

/-- The sample node joins its own network and admits one member until `expiry`. -/
def admitUntil (expiry : Option ℕ) : List MembershipCall :=
  [.install genesis 0, .issue "mesh" (member [2]) ["*"] expiry [] 5 5 5]

/-- Before the expiry the node restarts. -/
theorem load_before_expiry : ∃ s,
    Runs.run (callStep (identity [1])) fresh (admitUntil (some 10)) = some s ∧
    ((PeerlessNode.blank s.disk ⟨[]⟩).loadMemberships (identity [1]) fun _ => 7).2 = .ok () := by
  have hfacts : (Runs.run (callStep (identity [1])) fresh (admitUntil (some 10))).map (fun s =>
      decide (s.disk.invitation = some genesis ∧
        ∀ m ∈ s.disk.issued.getD [], m.liveAt 7 = true ∧ m.networkId = "mesh")) = some true := by
    decide +kernel
  obtain ⟨s, hrun, hs⟩ := Option.map_eq_some_iff.mp hfacts
  obtain ⟨hi, hstored⟩ := of_decide_eq_true hs
  refine ⟨s, hrun, (load_ok_iff hrun hi ⟨[]⟩ (by decide +kernel)).mpr fun j m hm => ?_⟩
  exact hstored m (List.mem_of_getElem? hm)

/-- **After the expiry of one issued certificate the node cannot start**, although its own
invitation never expires. -/
theorem load_after_expiry_fails :
    genesis.verifyFor primitives (member [1]) 20 = .ok true ∧
    (Runs.run (callStep (identity [1])) fresh (admitUntil (some 10))).map (fun s =>
      ((PeerlessNode.blank s.disk ⟨[]⟩).loadMemberships (identity [1]) fun _ => 20).2) =
        some (.error (.rejected "issued membership is not a valid local certificate")) := by
  refine ⟨by decide +kernel, by decide +kernel⟩

end Peerless.Node
