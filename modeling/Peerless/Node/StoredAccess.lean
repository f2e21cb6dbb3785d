import Peerless.Node.Restart
import Peerless.Node.Revocation

/-!
# What the files of a node grant

A restart rebuilds the permission map from the invitation file, the file of issued certificates and
the ledger.
-/

namespace Peerless.Node

open Text JsonText HashMap Peerless.Core Identity Protocol Chain

variable {P : Primitives} {own : NodeIdentity P} {parse : Bytes → Option Block}

/-! ### Decisions -/

/-- The membership test of `handle` and of the gossip loops: without a policy everyone is let in. -/
def PeerlessNode.authorises (s : PeerlessNode) (signer : NodeId) (permission : String) (now : ℕ) :
    Bool :=
  match s.policy with
  | none => true
  | some p => (p.permissions.lookup signer).any fun access => access.allows permission now

variable {s : PeerlessNode}

/-- `handle` lets a message in exactly when its budget and the membership test do. -/
theorem admission_eq_none_iff {withinBudget : Bool} {message : Message} {signer : NodeId} {now : ℕ} :
    s.admission withinBudget message signer now = none ↔
      withinBudget = true ∧ s.authorises signer (permissionFor message) now = true := by
  unfold PeerlessNode.admission PeerlessNode.authorises
  cases withinBudget with
  | false => simp
  | true =>
    cases s.policy with
    | none => simp
    | some p => simp

/-- What an access grants while it is live. -/
def grants (access : Option MemberAccess) (permission : String) : Bool :=
  access.any fun a => decide ("*" ∈ a.permissions) || decide (permission ∈ a.permissions)

theorem any_allows_of_live {access : Option MemberAccess} {permission : String} {now : ℕ}
    (h : ∀ a, access = some a → a.liveAt now = true) :
    (access.any fun a => a.allows permission now) = grants access permission := by
  cases access with
  | none => rfl
  | some a =>
    show (a.liveAt now && _) = _
    rw [h a rfl, Bool.true_and]
    rfl

/-! ### What the files give -/

/-- The access an installed invitation gives. -/
def invited (i : Invitation) (member : NodeId) : Option MemberAccess :=
  if member = i.membership.issuer then some ⟨{"*"}, i.membership.expiresAt⟩
  else if member = i.membership.member then some (accessOf i.membership)
  else none

/-- The access the certificate of a member gives. -/
def issuedTo (l : List Membership) (member : NodeId) : Option MemberAccess :=
  (l.find? fun c => c.member = member).map accessOf

/-- The access the node's files give a member: a certificate goes before the invitation. -/
def stored (s : PeerlessNode) (member : NodeId) : Option MemberAccess :=
  (issuedTo s.issued member).or (s.disk.invitation.bind fun i => invited i member)

variable {m : NodeId} {a : MemberAccess}

theorem invited_live {i : Invitation} {t : ℕ} (hlive : i.membership.liveAt t = true)
    (h : invited i m = some a) : a.liveAt t = true := by
  unfold invited at h
  split at h
  · rw [← Option.some.inj h]
    exact hlive
  · split at h
    · rw [← Option.some.inj h]
      exact hlive
    · cases h

variable {s' : PeerlessNode}

/-- **Activating an invitation** replaces the policy by what the invitation gives. -/
theorem activateInvitation_lookup {i : Invitation} {now : ℕ}
    (h : s.activateInvitation own i now = (s', .ok ())) :
    ∃ p : MembershipPolicy, s' = { s with policy := some p } ∧
      ∀ m, p.permissions.lookup m = invited i m := by
  obtain ⟨hver, _⟩ := activateInvitation_ok h
  have hmember := (Invitation.verifyFor_eq_true_iff.mp hver).2.2.2
  unfold PeerlessNode.activateInvitation PeerlessNode.enforceMembership at h
  rw [hver] at h
  simp only [collectPermissions, if_true, hmember] at h
  refine ⟨_, (Prod.mk.inj h).1.symm, ?_⟩
  intro m
  unfold invited MembershipPolicy.grant
  by_cases hi : m = i.membership.issuer
  · rw [if_pos hi, hi, AList.lookup_insert]
  · rw [if_neg hi, AList.lookup_insert_ne hi]
    by_cases hm : m = i.membership.member
    · rw [if_pos hm, hm, AList.lookup_insert]
    · rw [if_neg hm, AList.lookup_insert_ne hm, AList.lookup_empty]

/-- Replacing or adding a certificate changes the access of its member only. -/
theorem issuedTo_replaceOrPush (c : Membership) (m : NodeId) : ∀ l : List Membership,
    issuedTo (replaceOrPush l c) m = if m = c.member then some (accessOf c) else issuedTo l m := by
  intro l
  induction l with
  | nil =>
    by_cases hm : m = c.member
    · simp [issuedTo, replaceOrPush, hm]
    · have hm' : ¬ c.member = m := fun h => hm h.symm
      simp [issuedTo, replaceOrPush, hm, hm']
  | cons k l ih =>
    rw [replaceOrPush]
    by_cases hk : k.member = c.member
    · rw [if_pos hk]
      by_cases hm : m = c.member
      · simp [issuedTo, hm]
      · have hm' : ¬ c.member = m := fun h => hm h.symm
        simp [issuedTo, hm, hm', hk]
    · rw [if_neg hk]
      by_cases hkm : k.member = m
      · have hm : ¬ m = c.member := fun h => hk (hkm.trans h)
        simp [issuedTo, hkm, hm]
      · have hskip : ∀ l' : List Membership, issuedTo (k :: l') m = issuedTo l' m := by
          intro l'
          simp [issuedTo, hkm]
        rw [hskip, hskip, ih]

theorem issuedTo_of_mem {l : List Membership} (hnd : (l.map Membership.member).Nodup)
    {c : Membership} (hc : c ∈ l) : issuedTo l c.member = some (accessOf c) := by
  induction l with
  | nil => exact absurd hc List.not_mem_nil
  | cons k l ih =>
    rw [List.map_cons, List.nodup_cons] at hnd
    rcases List.mem_cons.mp hc with rfl | hc
    · simp [issuedTo]
    · have hne : ¬ k.member = c.member := fun h => hnd.1 (h ▸ List.mem_map_of_mem hc)
      have htail := ih hnd.2 hc
      simp only [issuedTo, List.find?_cons, hne, decide_false] at htail ⊢
      exact htail

theorem mem_of_issuedTo {l : List Membership} (h : issuedTo l m = some a) :
    ∃ c ∈ l, c.member = m ∧ a = accessOf c := by
  obtain ⟨c, hfind, ha⟩ := Option.map_eq_some_iff.mp h
  exact ⟨c, List.mem_of_find?_eq_some hfind, by simpa using List.find?_some hfind, ha.symm⟩

theorem foldl_replaceOrPush : ∀ (l acc : List Membership), ((acc ++ l).map Membership.member).Nodup →
    l.foldl replaceOrPush acc = acc ++ l := by
  intro l
  induction l with
  | nil => intro acc _; rw [List.append_nil]; rfl
  | cons c l ih =>
    intro acc hnd
    have hnew : c.member ∉ acc.map Membership.member := by
      intro hmem
      rw [List.map_append, List.nodup_append] at hnd
      exact hnd.2.2 _ hmem _ (List.mem_map_of_mem List.mem_cons_self) rfl
    have hshift : acc ++ [c] ++ l = acc ++ c :: l := by rw [List.append_assoc, List.singleton_append]
    rw [List.foldl_cons, replaceOrPush_new acc hnew, ih (acc ++ [c]) (by rw [hshift]; exact hnd), hshift]

theorem nodup_foldl_replaceOrPush : ∀ (l acc : List Membership), (acc.map Membership.member).Nodup →
    ((l.foldl replaceOrPush acc).map Membership.member).Nodup := by
  intro l
  induction l with
  | nil => intro acc h; exact h
  | cons c l ih => intro acc h; exact ih _ (replaceOrPush_nodup h)

theorem mem_foldl_replaceOrPush {x : Membership} : ∀ l acc : List Membership,
    x ∈ l.foldl replaceOrPush acc → x ∈ l ∨ x ∈ acc := by
  intro l
  induction l with
  | nil => intro acc h; exact Or.inr h
  | cons c l ih =>
    intro acc h
    rcases ih _ h with h | h
    · exact Or.inl (List.mem_cons_of_mem _ h)
    · rcases mem_replaceOrPush acc h with rfl | h
      · exact Or.inl List.mem_cons_self
      · exact Or.inr h

/-! ### Opening -/

variable {clock : ℕ → ℕ}

/-- The loop over the stored certificates puts each of them over what was there before. -/
theorem registerAll_lookup {base : NodeId → Option MemberAccess} :
    ∀ (ms : List Membership) (k : ℕ) (s s' : PeerlessNode) (p : MembershipPolicy),
      s.policy = some p →
      (∀ m, p.permissions.lookup m = (issuedTo s.issued m).or (base m)) →
      PeerlessNode.registerAll own clock k ms s = (s', .ok ()) →
      ∃ p', s' = { s with policy := some p', issued := ms.foldl replaceOrPush s.issued } ∧
        (∀ m, p'.permissions.lookup m = (issuedTo (ms.foldl replaceOrPush s.issued) m).or (base m)) ∧
        ∀ c ∈ ms, ∃ j, c.liveAt (clock j) = true := by
  intro ms
  induction ms with
  | nil =>
    intro k s s' p hp hlookup h
    refine ⟨p, ?_, hlookup, fun c hc => absurd hc List.not_mem_nil⟩
    rw [← (Prod.mk.inj h).1, List.foldl_nil, ← hp]
  | cons c ms ih =>
    intro k s s' p hp hlookup h
    rw [PeerlessNode.registerAll] at h
    split at h
    · cases h
    rename_i s₁ hreg
    obtain ⟨active, hr, rfl⟩ := registerIssuedMembership_ok_iff.mp hreg
    obtain rfl : p = active := Option.some.inj (hp.symm.trans hr.policy)
    have hnext : ∀ m, (p.grant c.member (accessOf c)).permissions.lookup m =
        (issuedTo (replaceOrPush s.issued c) m).or (base m) := by
      intro m
      rw [issuedTo_replaceOrPush]
      unfold MembershipPolicy.grant
      by_cases hm : m = c.member
      · rw [if_pos hm, hm, AList.lookup_insert]
        rfl
      · rw [if_neg hm, AList.lookup_insert_ne hm, hlookup]
    obtain ⟨p', hs', hlookup', hlive⟩ := ih (k + 1) (s.registered c false p) s' _ rfl hnext h
    refine ⟨p', hs', hlookup', ?_⟩
    intro x hx
    rcases List.mem_cons.mp hx with rfl | hx
    · exact ⟨_, (Membership.verify_eq_true_iff.mp hr.valid).2.2⟩
    · exact hlive x hx

/-- Without a policy no certificate is registered. -/
theorem registerAll_uninvited {ms : List Membership} {k : ℕ} (hp : s.policy = none)
    (h : PeerlessNode.registerAll own clock k ms s = (s', .ok ())) : ms = [] ∧ s' = s := by
  cases ms with
  | nil => exact ⟨rfl, (Prod.mk.inj h).1.symm⟩
  | cons c ms =>
    rw [PeerlessNode.registerAll] at h
    split at h
    · cases h
    rename_i s₁ hreg
    obtain ⟨active, hr, _⟩ := registerIssuedMembership_ok_iff.mp hreg
    exact absurd (hp.symm.trans hr.policy) (by simp)

/-- What a successful `open` built from the files. -/
structure Reopened (P : Primitives) (parse : Bytes → Option Block) (disk : Disk) (listing : Dir)
    (clock : ℕ → ℕ) (r : PeerlessNode) : Prop where
  disk_eq : r.disk = disk
  ledger : Ledger.open P parse listing = .ok r.ledger
  issued : r.issued = (disk.issued.getD []).foldl replaceOrPush []
  uninvited : disk.invitation = none → r.policy = none ∧ r.issued = []
  policy : ∀ i, disk.invitation = some i → i.membership.liveAt (clock 0) = true ∧
    ∃ p, r.policy = some p ∧
      ∀ m, p.permissions.lookup m = if m ∈ r.revoked then none else stored r m
  live : ∀ c ∈ disk.issued.getD [], ∃ j, c.liveAt (clock j) = true

/-- What the certificates of a directory that opens at time `t` give is live then. -/
theorem Reopened.issued_live {disk : Disk} {listing : Dir} {t : ℕ} {r : PeerlessNode}
    (h : Reopened P parse disk listing (fun _ => t) r) (ha : issuedTo r.issued m = some a) :
    a.liveAt t = true := by
  obtain ⟨c, hc, _, rfl⟩ := mem_of_issuedTo ha
  rw [h.issued] at hc
  rcases mem_foldl_replaceOrPush _ _ hc with hc | hc
  · obtain ⟨_, hc⟩ := h.live c hc
    exact hc
  · exact absurd hc List.not_mem_nil

theorem loadIssued_ok (h : s.loadIssued own clock = (s', .ok ())) :
    PeerlessNode.registerAll own clock 0 (s.disk.issued.getD []) s = (s', .ok ()) := by
  unfold PeerlessNode.loadIssued at h
  cases hd : s.disk.issued with
  | none => rw [hd] at h; exact h
  | some l =>
    rw [hd] at h
    simp only at h
    split at h
    · cases h
    split at h
    · cases h
    exact h

theorem lookup_applyRevocations {p : MembershipPolicy} (hp : s.policy = some p)
    (changes : List (NodeId × Bool)) : ∃ p', (s.applyRevocations changes).policy = some p' ∧
      ∀ m, p'.permissions.lookup m =
        if m ∈ applyChanges s.revoked changes then none else p.permissions.lookup m := by
  refine ⟨_, by rw [PeerlessNode.applyRevocations, hp]; rfl, ?_⟩
  intro m
  show (retain _ p.permissions).lookup m = _
  rw [lookup_retain]
  by_cases hm : m ∈ applyChanges s.revoked changes
  · rw [if_pos hm]
    cases p.permissions.lookup m <;> simp [hm]
  · rw [if_neg hm]
    cases p.permissions.lookup m <;> simp [hm]

/-- **A reopened node grants what its files give**, revoked members apart. -/
theorem open_policy {disk : Disk} {listing : Dir} {r : PeerlessNode}
    (h : PeerlessNode.open own parse disk listing clock = .ok r) :
    Reopened P parse disk listing clock r := by
  unfold PeerlessNode.open at h
  split at h
  · cases h
  rename_i ledger hledger
  split at h
  · cases h
  rename_i s₂ hload
  rw [← Except.ok.inj h]
  unfold PeerlessNode.loadMemberships at hload
  split at hload
  · cases hload
  rename_i s₁ hinv
  have hissued := loadIssued_ok hload
  unfold PeerlessNode.loadInvitation at hinv
  cases hi : disk.invitation with
  | none =>
    rw [show (PeerlessNode.blank disk ledger).disk.invitation = none from hi] at hinv
    rw [← (Prod.mk.inj hinv).1] at hissued
    obtain ⟨hnil, rfl⟩ := registerAll_uninvited rfl hissued
    have hnone : disk.issued.getD [] = [] := hnil
    exact
      { disk_eq := rfl
        ledger := hledger
        issued := by rw [hnone]; rfl
        uninvited := fun _ => ⟨rfl, rfl⟩
        policy := fun i h' => absurd (hi.symm.trans h') (by simp)
        live := fun c hc => by rw [hnone] at hc; exact absurd hc List.not_mem_nil }
  | some i =>
    rw [show (PeerlessNode.blank disk ledger).disk.invitation = some i from hi] at hinv
    simp only at hinv
    split at hinv
    · cases hinv
    obtain ⟨hver, _⟩ := activateInvitation_ok hinv
    obtain ⟨p, rfl, hlookup⟩ := activateInvitation_lookup hinv
    obtain ⟨p', rfl, hlookup', hlive⟩ := registerAll_lookup _ 0
      { PeerlessNode.blank disk ledger with policy := some p } s₂ p rfl hlookup hissued
    let loaded : PeerlessNode :=
      ⟨disk, ledger, some p', (disk.issued.getD []).foldl replaceOrPush [], ∅⟩
    obtain ⟨p'', hp'', hrevoked⟩ := lookup_applyRevocations (s := loaded) rfl
      (changesOf (ledger.blocks.flatMap Block.events))
    refine
      { disk_eq := rfl
        ledger := hledger
        issued := rfl
        uninvited := fun h' => absurd (hi.symm.trans h') (by simp)
        policy := ?_
        live := hlive }
    intro j hj
    obtain rfl : i = j := Option.some.inj (hi.symm.trans hj)
    have hmember := (Invitation.verifyFor_eq_true_iff.mp hver).2.2.2
    refine ⟨(Membership.verify_eq_true_iff.mp hmember).2.2, p'', hp'', ?_⟩
    intro m
    rw [hrevoked m, hlookup' m]
    show (if m ∈ _ then none else _) = if m ∈ _ then none else (issuedTo _ m).or (disk.invitation.bind _)
    rw [hi]
    rfl

end Peerless.Node
