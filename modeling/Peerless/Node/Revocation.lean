import Peerless.Node.Policy
import Peerless.Ledger.Reopen

/-!
# Revocation along the life of a node

Runs of `open`, `install_invitation`, `issue_invitation`, `enforce_membership` and
`append_ledger_block` in any order, failed calls included.

* `revoked_run` — in every run whose rebuilding calls grant no revoked member, the
  revoked set follows the ledger, no revoked member has an entry, and `handle` refuses all its
  messages.
-/

namespace Peerless.Node

open Text HashMap Peerless.Core Identity Protocol Chain Sample

variable {P : Primitives} {own : NodeIdentity P} {parse : Bytes → Option Block}

/-- A call on a node, with the readings of the clock and the answers of the file system it meets. -/
inductive NodeOp (P : Primitives) where
  | reopen (listing : Dir) (clock : ℕ → ℕ)
  | install (invitation : Invitation) (now : ℕ) (writable : Bool)
  | issue (networkId : String) (member : NodeId) (permissions : List String) (expiresAt : Option ℕ)
      (bootstrap : List String) (issuedAt checkedAt registeredAt : ℕ) (writable : Bool)
  | enforce (networkId : String) (certificates : List Membership) (trusted : Finset NodeId) (now : ℕ)
  | append (block : Block) (consensus : ConsensusEngine P)

/-- The node after a call.  A restart reads the block files in any order and needs a successful
`open`. -/
def nodeStep (own : NodeIdentity P) (parse : Bytes → Option Block) (s : PeerlessNode) :
    NodeOp P → Option PeerlessNode
  | .reopen listing clock =>
    if listing.Perm s.disk.blocks then
      match PeerlessNode.open own parse s.disk listing clock with
      | .error _ => none
      | .ok s => some s
    else none
  | .install invitation now writable => some (s.installInvitation own invitation now writable).1
  | .issue networkId member permissions expiresAt bootstrap issuedAt checkedAt registeredAt writable =>
    some (s.issueInvitation own networkId member permissions expiresAt bootstrap issuedAt checkedAt
      registeredAt writable).1
  | .enforce networkId certificates trusted now =>
    some (s.enforceMembership P networkId certificates trusted now).1
  | .append block consensus => some (s.appendLedgerBlock P block consensus).1

/-- A rebuilding call grants no member that is revoked now. -/
def Respects (own : NodeIdentity P) (s : PeerlessNode) : NodeOp P → Prop
  | .install i now writable => i.verifyFor P own.nodeId now = .ok true →
      (JsonText.writePretty 0 i.toJson).length ≤ maxMembershipFileBytes → writable = true →
        i.membership.member ∉ s.revoked ∧ i.membership.issuer ∉ s.revoked
  | .enforce networkId certificates trusted now => ∀ c ∈ certificates, c.networkId = networkId →
      c.verify P trusted now = .ok true → c.member ∉ s.revoked
  | _ => True

/-- No revoked member has an entry in the permission map. -/
def Excluded (s : PeerlessNode) : Prop :=
  ∀ p, s.policy = some p → ∀ m ∈ s.revoked, p.permissions.lookup m = none

/-- The revoked set is the one the ledger gives. -/
def Follows (s : PeerlessNode) : Prop :=
  s.revoked = applyChanges ∅ (changesOf (s.ledger.blocks.flatMap Block.events))

/-! ### Appending and opening -/

theorem excluded_applyRevocations (s : PeerlessNode) (changes : List (NodeId × Bool)) :
    Excluded (s.applyRevocations changes) := by
  intro p hp m hm
  obtain ⟨p₀, _, rfl⟩ := Option.map_eq_some_iff.mp hp
  show (retain _ p₀.permissions).lookup m = none
  rw [lookup_retain]
  cases p₀.permissions.lookup m with
  | none => rfl
  | some access =>
    have hmem : m ∈ applyChanges s.revoked changes := hm
    exact Option.filter_some_neg (by simpa using hmem)

theorem applyChanges_append (revoked : Finset NodeId) (c₁ c₂ : List (NodeId × Bool)) :
    applyChanges revoked (c₁ ++ c₂) = applyChanges (applyChanges revoked c₁) c₂ :=
  List.foldl_append

theorem changesOf_append (e₁ e₂ : List SignedEvent) :
    changesOf (e₁ ++ e₂) = changesOf e₁ ++ changesOf e₂ :=
  List.filterMap_append

variable {s : PeerlessNode}

theorem appendLedgerBlock_sound (hx : Excluded s) (hf : Follows s) (block : Block)
    (consensus : ConsensusEngine P) :
    Excluded (s.appendLedgerBlock P block consensus).1 ∧
      Follows (s.appendLedgerBlock P block consensus).1 := by
  unfold PeerlessNode.appendLedgerBlock
  cases h : s.ledger.append P s.disk.blocks block consensus with
  | error err => exact ⟨hx, hf⟩
  | ok r =>
    obtain ⟨_, _, rfl⟩ := Ledger.append_eq_ok_iff.mp h
    refine ⟨excluded_applyRevocations _ _, ?_⟩
    show applyChanges s.revoked (changesOf block.events) =
      applyChanges ∅ (changesOf ((s.ledger.blocks ++ [block]).flatMap Block.events))
    rw [List.flatMap_append, changesOf_append, applyChanges_append, hf, List.flatMap_singleton]

variable {clock : ℕ → ℕ}

/-- The membership phase of `open` does not touch the ledger, and leaves the revoked set empty. -/
theorem registerAll_frame : ∀ (ms : List Membership) (i : ℕ) (s s' : PeerlessNode),
    PeerlessNode.registerAll own clock i ms s = (s', .ok ()) →
      s'.ledger = s.ledger ∧ s'.revoked = s.revoked := by
  intro ms
  induction ms with
  | nil =>
    intro i s s' h
    rw [← (Prod.mk.inj h).1]
    exact ⟨rfl, rfl⟩
  | cons m ms ih =>
    intro i s s' h
    rw [PeerlessNode.registerAll] at h
    split at h
    · cases h
    · rename_i s₁ hreg
      obtain ⟨active, _, hs₁⟩ := registerIssuedMembership_ok_iff.mp hreg
      rw [hs₁] at h
      exact ih (i + 1) (s.registered m false active) s' h

theorem loadMemberships_frame {s' : PeerlessNode} (h : s.loadMemberships own clock = (s', .ok ())) :
    s'.ledger = s.ledger ∧ s'.revoked = s.revoked := by
  have hissued : ∀ t t' : PeerlessNode, t.loadIssued own clock = (t', .ok ()) →
      t'.ledger = t.ledger ∧ t'.revoked = t.revoked := by
    intro t t' ht
    unfold PeerlessNode.loadIssued at ht
    split at ht
    · rw [← (Prod.mk.inj ht).1]
      exact ⟨rfl, rfl⟩
    · split at ht
      · cases ht
      · split at ht
        · cases ht
        · exact registerAll_frame _ _ _ _ ht
  have hinvitation : ∀ t t' : PeerlessNode, t.loadInvitation own clock = (t', .ok ()) →
      t'.ledger = t.ledger ∧ t'.revoked = t.revoked := by
    intro t t' ht
    unfold PeerlessNode.loadInvitation at ht
    split at ht
    · rw [← (Prod.mk.inj ht).1]
      exact ⟨rfl, rfl⟩
    · split at ht
      · cases ht
      · obtain ⟨_, _, rfl, _⟩ := activateInvitation_ok ht
        exact ⟨rfl, rfl⟩
  unfold PeerlessNode.loadMemberships at h
  split at h
  · cases h
  · rename_i s₁ hinv
    obtain ⟨hl, hr⟩ := hinvitation _ _ hinv
    obtain ⟨hl', hr'⟩ := hissued _ _ h
    exact ⟨hl'.trans hl, hr'.trans hr⟩

/-- **An opened node has applied the revocations of its ledger.** -/
theorem sound_open {disk : Disk} {listing : Dir}
    (h : PeerlessNode.open own parse disk listing clock = .ok s) : Excluded s ∧ Follows s := by
  unfold PeerlessNode.open at h
  split at h
  · cases h
  · split at h
    · cases h
    · rename_i s₁ hload
      obtain ⟨_, hrevoked⟩ := loadMemberships_frame hload
      rw [← Except.ok.inj h]
      refine ⟨excluded_applyRevocations _ _, ?_⟩
      show applyChanges s₁.revoked _ = applyChanges ∅ _
      rw [hrevoked]
      rfl

/-! ### Granting -/

/-- Granting a member that is not revoked keeps the revoked members out. -/
theorem lookup_grant_none {p : MembershipPolicy} {revoked : Finset NodeId} {member : NodeId}
    {access : MemberAccess} (h : ∀ m ∈ revoked, p.permissions.lookup m = none)
    (hm : member ∉ revoked) : ∀ m ∈ revoked, (p.grant member access).permissions.lookup m = none := by
  intro m hmem
  have hne : m ≠ member := fun he => hm (he ▸ hmem)
  show (p.permissions.insert member access).lookup m = none
  rw [AList.lookup_insert_ne hne]
  exact h m hmem

theorem registerIssuedMembership_sound (hx : Excluded s) (hf : Follows s) (m : Membership) (now : ℕ)
    (persist writable : Bool) :
    Excluded (s.registerIssuedMembership own m now persist writable).1 ∧
      Follows (s.registerIssuedMembership own m now persist writable).1 := by
  cases h : s.registerIssuedMembership own m now persist writable with
  | mk s' r =>
    cases r with
    | ok u =>
      obtain ⟨active, hreg, rfl⟩ := registerIssuedMembership_ok_iff.mp h
      refine ⟨?_, hf⟩
      intro p hp
      rw [← Option.some.inj hp]
      exact lookup_grant_none (hx active hreg.policy) hreg.notRevoked
    | error e =>
      have hsame := registerIssuedMembership_error h
      rw [hsame]
      exact ⟨hx, hf⟩

theorem issueInvitation_sound (hx : Excluded s) (hf : Follows s) (networkId : String) (member : NodeId)
    (permissions : List String) (expiresAt : Option ℕ) (bootstrap : List String)
    (issuedAt checkedAt registeredAt : ℕ) (writable : Bool) :
    Excluded (s.issueInvitation own networkId member permissions expiresAt bootstrap issuedAt checkedAt
        registeredAt writable).1 ∧
      Follows (s.issueInvitation own networkId member permissions expiresAt bootstrap issuedAt checkedAt
        registeredAt writable).1 := by
  unfold PeerlessNode.issueInvitation
  split
  · exact ⟨hx, hf⟩
  · rename_i invitation _
    have hreg : Excluded (s.registerIssuedMembership own invitation.membership registeredAt true
          writable).1 ∧
        Follows (s.registerIssuedMembership own invitation.membership registeredAt true writable).1 :=
      registerIssuedMembership_sound hx hf _ _ _ _
    split
    · split
      · rename_i s₁ err h
        rw [h] at hreg
        exact hreg
      · rename_i s₁ h
        rw [h] at hreg
        exact hreg
    · exact ⟨hx, hf⟩

theorem enforceMembership_sound (hx : Excluded s) (hf : Follows s) {networkId : String}
    {cs : List Membership} {trusted : Finset NodeId} {now : ℕ}
    (hok : ∀ c ∈ cs, c.networkId = networkId → c.verify P trusted now = .ok true →
      c.member ∉ s.revoked) :
    Excluded (s.enforceMembership P networkId cs trusted now).1 ∧
      Follows (s.enforceMembership P networkId cs trusted now).1 := by
  cases h : s.enforceMembership P networkId cs trusted now with
  | mk s' r =>
    cases r with
    | error err =>
      rw [enforceMembership_error h]
      exact ⟨hx, hf⟩
    | ok u =>
      obtain ⟨permissions, rfl, hperm⟩ := enforceMembership_ok h
      refine ⟨?_, hf⟩
      intro p hp m hm
      rw [← Option.some.inj hp]
      by_contra hne
      obtain ⟨c, hc, hcm, hnet, hver⟩ := hperm m (Option.isSome_iff_ne_none.mpr hne)
      exact hok c hc hnet hver (hcm ▸ hm)

theorem installInvitation_sound (hx : Excluded s) (hf : Follows s) {i : Invitation} {now : ℕ}
    {writable : Bool}
    (hok : i.verifyFor P own.nodeId now = .ok true →
      (JsonText.writePretty 0 i.toJson).length ≤ maxMembershipFileBytes → writable = true →
        i.membership.member ∉ s.revoked ∧ i.membership.issuer ∉ s.revoked) :
    Excluded (s.installInvitation own i now writable).1 ∧
      Follows (s.installInvitation own i now writable).1 := by
  unfold PeerlessNode.installInvitation
  split
  · exact ⟨hx, hf⟩
  · exact ⟨hx, hf⟩
  · rename_i hver
    split
    · exact ⟨hx, hf⟩
    · rename_i hsize
      split
      · exact ⟨hx, hf⟩
      · rename_i hwrite
        obtain ⟨hmember, hissuer⟩ := hok hver (not_lt.mp hsize) (by simpa using hwrite)
        obtain ⟨s', hs'⟩ := activateInvitation_of_verified
          (s := { s with disk := { s.disk with invitation := some i } }) hver
        obtain ⟨_, permissions, hpolicy, hperm⟩ := activateInvitation_ok hs'
        rw [hs', hpolicy]
        refine ⟨?_, hf⟩
        intro p hp m hm
        rw [← Option.some.inj hp]
        by_contra hne
        rcases hperm m (Option.isSome_iff_ne_none.mpr hne) with he | he
        · exact hmember (he ▸ hm)
        · exact hissuer (he ▸ hm)

/-! ### Runs -/

/-- **One call that respects the revoked set keeps it in force.** -/
theorem sound_step {s' : PeerlessNode} {op : NodeOp P} (h : Excluded s ∧ Follows s)
    (hok : Respects own s op) (hstep : nodeStep own parse s op = some s') : Excluded s' ∧ Follows s' := by
  obtain ⟨hx, hf⟩ := h
  cases op with
  | reopen listing clock =>
    rw [nodeStep] at hstep
    split at hstep
    · split at hstep
      · cases hstep
      · rename_i s₁ hopen
        rw [← Option.some.inj hstep]
        exact sound_open hopen
    · cases hstep
  | install i now writable =>
    rw [← Option.some.inj hstep]
    exact installInvitation_sound hx hf hok
  | issue networkId member permissions expiresAt bootstrap issuedAt checkedAt registeredAt writable =>
    rw [← Option.some.inj hstep]
    exact issueInvitation_sound hx hf _ _ _ _ _ _ _ _ _
  | enforce networkId certificates trusted now =>
    rw [← Option.some.inj hstep]
    exact enforceMembership_sound hx hf hok
  | append block consensus =>
    rw [← Option.some.inj hstep]
    exact appendLedgerBlock_sound hx hf block consensus

/-- A member without an entry is refused whatever it sends. -/
theorem admission_refuses {p : MembershipPolicy} (hp : s.policy = some p) {signer : NodeId}
    (h : p.permissions.lookup signer = none) (withinBudget : Bool) (message : Message) (now : ℕ) :
    ∃ reason, s.admission withinBudget message signer now = some (.taskReject "" reason) := by
  unfold PeerlessNode.admission
  cases withinBudget with
  | false => exact ⟨_, rfl⟩
  | true =>
    rw [hp]
    simp only [Bool.not_true, Bool.false_eq_true, if_false, h, Option.any_none]
    exact ⟨_, rfl⟩

/-- **Revocation stays in force.**  From any successful `open`, in every run whose rebuilding calls
grant no member that is revoked at that moment: a member is revoked exactly when its latest
finalized change is a revocation, no revoked member has an entry in the active policy, and every
message of a revoked signer is refused while a policy is active. -/
theorem revoked_run {disk : Disk} {listing : Dir} {clock : ℕ → ℕ} {s₀ s : PeerlessNode}
    {ops : List (NodeOp P)} (hopen : PeerlessNode.open own parse disk listing clock = .ok s₀)
    (hmeets : Runs.Meets (nodeStep own parse) (Respects own) s₀ ops)
    (hrun : Runs.run (nodeStep own parse) s₀ ops = some s) :
    (∀ m, m ∈ s.revoked ↔
      latestChange m (changesOf (s.ledger.blocks.flatMap Block.events)) = some true) ∧
    (∀ p, s.policy = some p → ∀ m ∈ s.revoked, p.permissions.lookup m = none) ∧
    (s.policy.isSome → ∀ m ∈ s.revoked, ∀ withinBudget message now,
      ∃ reason, s.admission withinBudget message m now = some (.taskReject "" reason)) := by
  obtain ⟨hx, hf⟩ := Runs.run_invariant (fun _ _ _ => sound_step) ops s₀ s (sound_open hopen) hmeets hrun
  refine ⟨?_, hx, ?_⟩
  · intro m
    rw [hf, applyChanges_mem_iff]
    simp
  · intro hsome m hm withinBudget message now
    obtain ⟨p, hp⟩ := Option.isSome_iff_exists.mp hsome
    exact admission_refuses hp (hx p hp m hm) withinBudget message now

/-! ### A revoked issuer comes back -/

/-- An invitation of the sample node `[1]`, issued by the sample node `[2]`. -/
def invitedBySecond : Invitation :=
  let m : Membership := ⟨"mesh", member [1], member [2], ["*"], none, [2], []⟩
  ⟨1, { m with signature := 2 :: m.payload }, [], 0⟩

/-- The sample node after a start with that invitation on disk. -/
def startInvited : Except NodeError PeerlessNode :=
  PeerlessNode.open (identity [1]) (fun _ => none) ⟨some invitedBySecond, none, []⟩ [] fun _ => 0

/-- The block that revokes the issuer, finalized by the sample node. -/
def revokingBlock : Block :=
  let e : LedgerEvent := .nodeRevoked (member [2])
  ((soloEngine "mesh").finalize (Ledger.nextBlock primitives ⟨[]⟩
    [⟨e, member [1], [1], 1 :: JsonText.write e.toJson⟩] 0 "mesh") [identity [1]]).1

def revoke : NodeOp primitives := .append revokingBlock ((soloEngine "mesh").engine primitives)

/-- The node after the revocation, and after the invitation is installed again, evaluated at once: they
share the start and the block. -/
theorem revoke_eval :
    startInvited.toOption.bind (fun s₀ =>
      (Runs.run (nodeStep (identity [1]) fun _ => none) s₀ [revoke]).map fun s =>
        decide (member [2] ∈ s.revoked ∧ s.policy.isSome = true)) = some true ∧
    startInvited.toOption.bind (fun s₀ =>
      (Runs.run (nodeStep (identity [1]) fun _ => none) s₀
        [revoke, .install invitedBySecond 0 true]).map fun s =>
          (decide (member [2] ∈ s.revoked), s.policy.map fun p => p.permissions.lookup (member [2]),
            s.admission true .getCapability (member [2]) 0)) =
      some (true, some (some ⟨{"*"}, none⟩), none) := by
  decide +kernel

/-- After the revocation the issuer's requests are refused. -/
theorem revoked_issuer_refused : ∃ s₀ s, startInvited = .ok s₀ ∧
    Runs.run (nodeStep (identity [1]) fun _ => none) s₀ [revoke] = some s ∧
    ∃ reason, s.admission true .getCapability (member [2]) 0 = some (.taskReject "" reason) := by
  obtain ⟨s₀, hopt, hmap⟩ := Option.bind_eq_some_iff.mp revoke_eval.1
  obtain ⟨s, hrun, hs⟩ := Option.map_eq_some_iff.mp hmap
  obtain ⟨hm, hp⟩ := of_decide_eq_true hs
  have hopen : startInvited = .ok s₀ := by
    cases h : startInvited with
    | error e => rw [h] at hopt; exact absurd hopt (by simp [Except.toOption])
    | ok t => rw [h] at hopt; rw [Option.some.inj hopt]
  have hmeets : Runs.Meets (nodeStep (identity [1]) fun _ => none) (Respects (identity [1])) s₀
      [revoke] := ⟨trivial, fun _ _ => trivial⟩
  have hsound := revoked_run hopen hmeets hrun
  exact ⟨s₀, s, hopen, hrun, hsound.2.2 hp _ hm true .getCapability 0⟩

/-- **Installing the invitation again undoes the revocation of its issuer.** -/
theorem reinstall_readmits : startInvited.toOption.bind (fun s₀ =>
    (Runs.run (nodeStep (identity [1]) fun _ => none) s₀
      [revoke, .install invitedBySecond 0 true]).map fun s =>
        (decide (member [2] ∈ s.revoked), s.policy.map fun p => p.permissions.lookup (member [2]),
          s.admission true .getCapability (member [2]) 0)) =
      some (true, some (some ⟨{"*"}, none⟩), none) :=
  revoke_eval.2

end Peerless.Node
