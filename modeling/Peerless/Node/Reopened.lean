import Peerless.Node.StoredAccess

/-!
# Who is authorised after a restart

The running policy is built call by call; a restart rebuilds it from the files.  This module compares
the two decisions after any run of successful `install_invitation`, `issue_invitation` and
`append_ledger_block` calls.

* `reopened_authorises_run` — along runs of steady calls a restart changes no decision,
  and the first call of another kind shows as soon as the node restarts.
-/

namespace Peerless.Node

open Text JsonText HashMap Peerless.Core Identity Protocol Chain Sample

variable {P : Primitives} {own : NodeIdentity P} {parse : Bytes → Option Block}

/-! ### Runs of successful calls -/

/-- A call that can change who is authorised. -/
inductive PolicyCall (P : Primitives) where
  | membership (call : MembershipCall)
  | append (block : Block) (consensus : ConsensusEngine P)

/-- One successful call. -/
def policyStep (own : NodeIdentity P) (s : PeerlessNode) : PolicyCall P → Option PeerlessNode
  | .membership call => callStep own s call
  | .append block consensus =>
    match s.appendLedgerBlock P block consensus with
    | (s, .ok ()) => some s
    | (_, .error _) => none

/-- The parser reads back the block a call writes. -/
def Written (parse : Bytes → Option Block) : PolicyCall P → Prop
  | .membership _ => True
  | .append block _ => parse block.encodePretty = some block

variable {s s' : PeerlessNode}

theorem callStep_install {i : Invitation} {now : ℕ} (h : callStep own s (.install i now) = some s') :
    ∃ p : MembershipPolicy,
      s' = { s with disk := { s.disk with invitation := some i }, policy := some p } ∧
      ∀ m, p.permissions.lookup m = invited i m := by
  rw [callStep] at h
  split at h
  · rename_i s₁ hinst
    obtain ⟨p, rfl, hlookup⟩ := activateInvitation_lookup (installInvitation_ok hinst).2
    exact ⟨p, (Option.some.inj h).symm, hlookup⟩
  · cases h

/-- A successful `issue_invitation`: a node without a live membership only signs. -/
theorem callStep_issue {networkId : String} {member : NodeId} {permissions : List String}
    {expiresAt : Option ℕ} {bootstrap : List String} {issuedAt checkedAt registeredAt : ℕ}
    (h : callStep own s (.issue networkId member permissions expiresAt bootstrap issuedAt checkedAt
      registeredAt) = some s') :
    s' = s ∨ ∃ c active, Registrable own s c registeredAt true true active ∧
      s' = s.registered c true active := by
  rw [callStep] at h
  split at h
  · rename_i s₁ i hissue
    rw [← Option.some.inj h]
    exact issueInvitation_ok hissue
  · cases h

/-- The node with a block appended, before its revocations are applied. -/
def PeerlessNode.extended (P : Primitives) (s : PeerlessNode) (block : Block) : PeerlessNode :=
  { s with
    ledger := ⟨s.ledger.blocks ++ [block]⟩
    disk := { s.disk with blocks := s.disk.blocks ++ [block.file P] } }

theorem policyStep_append {block : Block} {consensus : ConsensusEngine P}
    (h : policyStep own s (.append block consensus) = some s') :
    s.ledger.Accepts P consensus block ∧ block.fileName P ∉ s.disk.blocks.map Prod.fst ∧
      s' = (s.extended P block).applyRevocations (changesOf block.events) := by
  rw [policyStep] at h
  split at h
  · rename_i s₁ happ
    rw [← Option.some.inj h]
    exact appendLedgerBlock_ok happ
  · cases h

/-- What relates a running node to its files between calls, decisions apart. -/
structure Backed (P : Primitives) (parse : Bytes → Option Block) (s : PeerlessNode) : Prop where
  blocks : Reads P parse s.disk.blocks s.ledger.blocks
  follows : Follows s
  issued : (s.disk.issued.getD []).foldl replaceOrPush [] = s.issued
  members : (s.issued.map Membership.member).Nodup
  policy : s.policy.isSome = s.disk.invitation.isSome
  uninvited : s.disk.invitation = none → s.issued = []
  entries : ∀ p, s.policy = some p → ∀ m a, p.permissions.lookup m = some a →
    issuedTo s.issued m = some a ∨ ∃ i, s.disk.invitation = some i ∧ invited i m = some a

/-- The running policy grants what the files give, revoked members apart. -/
def Mirror (s : PeerlessNode) : Prop :=
  ∀ p, s.policy = some p → ∀ m permission, grants (p.permissions.lookup m) permission =
    (decide (m ∉ s.revoked) && grants (stored s m) permission)

/-- The calls that keep the running policy and the files in step: an installed invitation grants no
revoked member and gives every certified member what its certificate gives; a block readmits no
revoked member to which the files grant anything. -/
def Steady (s : PeerlessNode) : PolicyCall P → Prop
  | .membership (.install i _) =>
    (∀ m ∈ s.revoked, ∀ permission, grants (invited i m) permission = false) ∧
    ∀ c ∈ s.issued, c.member ∉ s.revoked → ∀ permission,
      grants (some (accessOf c)) permission = grants (invited i c.member) permission
  | .membership (.issue ..) => True
  | .append block _ => ∀ m ∈ s.revoked, m ∉ applyChanges s.revoked (changesOf block.events) →
    ∀ permission, grants (stored s m) permission = false

theorem backed_open {disk : Disk} {listing : Dir} {clock : ℕ → ℕ}
    (hnames : (disk.blocks.map Prod.fst).Nodup) (hlisting : listing.Perm disk.blocks)
    (h : PeerlessNode.open own parse disk listing clock = .ok s) : Backed P parse s ∧ Mirror s := by
  have hopen := open_policy h
  obtain ⟨_, hfollows⟩ := sound_open h
  have hpolicy : s.policy.isSome = s.disk.invitation.isSome := by
    rw [hopen.disk_eq]
    cases hi : disk.invitation with
    | none => rw [(hopen.uninvited hi).1]; rfl
    | some i =>
      obtain ⟨_, p, hp, _⟩ := hopen.policy i hi
      rw [hp]
      rfl
  refine ⟨⟨?_, hfollows, ?_, ?_, hpolicy, ?_, ?_⟩, ?_⟩
  · rw [hopen.disk_eq]
    exact reads_of_open hnames hlisting hopen.ledger
  · rw [hopen.disk_eq, hopen.issued]
  · rw [hopen.issued]
    exact nodup_foldl_replaceOrPush _ _ List.nodup_nil
  · intro hi
    rw [hopen.disk_eq] at hi
    exact (hopen.uninvited hi).2
  · intro p hp m a ha
    rw [hp, Option.isSome_some, eq_comm, Option.isSome_iff_exists, hopen.disk_eq] at hpolicy
    obtain ⟨i, hi⟩ := hpolicy
    obtain ⟨_, q, hq, hlookup⟩ := hopen.policy i hi
    obtain rfl : p = q := Option.some.inj (hp.symm.trans hq)
    rw [hlookup m] at ha
    split at ha
    · cases ha
    · rcases Option.or_eq_some_iff.mp ha with ha | ⟨_, ha⟩
      · exact Or.inl ha
      · obtain ⟨j, hj, hinv⟩ := Option.bind_eq_some_iff.mp ha
        exact Or.inr ⟨j, hj, hinv⟩
  · intro p hp m permission
    rw [hp, Option.isSome_some, eq_comm, Option.isSome_iff_exists, hopen.disk_eq] at hpolicy
    obtain ⟨i, hi⟩ := hpolicy
    obtain ⟨_, q, hq, hlookup⟩ := hopen.policy i hi
    obtain rfl : p = q := Option.some.inj (hp.symm.trans hq)
    rw [hlookup m]
    by_cases hm : m ∈ s.revoked
    · simp [hm, grants]
    · simp [hm]

/-- **One successful call keeps the files behind the node.** -/
theorem backed_step {call : PolicyCall P} (h : Backed P parse s) (hwritten : Written parse call)
    (hstep : policyStep own s call = some s') : Backed P parse s' := by
  match call with
  | .membership (.install i now) =>
    obtain ⟨p, rfl, hlookup⟩ := callStep_install hstep
    refine ⟨h.blocks, h.follows, h.issued, h.members, rfl, fun hi => absurd hi (by simp), ?_⟩
    intro q hq m a ha
    rw [← Option.some.inj hq, hlookup] at ha
    exact Or.inr ⟨i, rfl, ha⟩
  | .membership (.issue ..) =>
    rcases callStep_issue hstep with rfl | ⟨c, active, hr, rfl⟩
    · exact h
    have hmembers := replaceOrPush_nodup (m := c) h.members
    have hinvited : s.disk.invitation.isSome = true := by rw [← h.policy, hr.policy]; rfl
    refine ⟨h.blocks, h.follows, ?_, hmembers, hinvited.symm, ?_, ?_⟩
    · show (replaceOrPush s.issued c).foldl replaceOrPush [] = replaceOrPush s.issued c
      rw [foldl_replaceOrPush _ _ hmembers, List.nil_append]
    · intro hi
      rw [show s.disk.invitation = none from hi] at hinvited
      cases hinvited
    · intro q hq m a ha
      rw [← Option.some.inj hq] at ha
      show issuedTo (replaceOrPush s.issued c) m = some a ∨ _
      rw [issuedTo_replaceOrPush]
      unfold MembershipPolicy.grant at ha
      by_cases hm : m = c.member
      · rw [hm, AList.lookup_insert] at ha
        exact Or.inl (by rw [if_pos hm, ha])
      · rw [AList.lookup_insert_ne hm] at ha
        rw [if_neg hm]
        exact h.entries active hr.policy m a ha
  | .append block consensus =>
    obtain ⟨ha, hname, rfl⟩ := policyStep_append hstep
    refine ⟨?_, ?_, h.issued, h.members, ?_, h.uninvited, ?_⟩
    · exact h.blocks.append hname ha.height ha.size hwritten
    · show applyChanges s.revoked (changesOf block.events) =
        applyChanges ∅ (changesOf ((s.ledger.blocks ++ [block]).flatMap Block.events))
      rw [List.flatMap_append, changesOf_append, applyChanges_append, h.follows,
        List.flatMap_singleton]
    · show (s.policy.map _).isSome = s.disk.invitation.isSome
      rw [Option.isSome_map, h.policy]
    · intro q hq m a hlookup
      obtain ⟨p, hp, rfl⟩ := Option.map_eq_some_iff.mp hq
      exact h.entries p hp m a (lookup_of_retain hlookup).1

/-- Installing an invitation: the new policy is the invitation's, the files keep the certificates. -/
theorem mirror_install_iff {i : Invitation} {now : ℕ} (h : Backed P parse s)
    (hstep : callStep own s (.install i now) = some s') :
    Mirror s' ↔ Steady s (.membership (.install i now) : PolicyCall P) := by
  obtain ⟨p, rfl, hlookup⟩ := callStep_install hstep
  have hstored : ∀ m, stored { s with disk := { s.disk with invitation := some i }, policy := some p } m =
      (issuedTo s.issued m).or (invited i m) := fun _ => rfl
  constructor
  · intro hm
    refine ⟨?_, ?_⟩
    · intro m hrevoked permission
      have hgrants := hm p rfl m permission
      rw [hlookup] at hgrants
      simpa [show m ∈ s.revoked from hrevoked] using hgrants
    · intro c hc hrevoked permission
      have hgrants := hm p rfl c.member permission
      rw [hlookup, hstored, issuedTo_of_mem h.members hc] at hgrants
      simpa [show c.member ∉ s.revoked from hrevoked] using hgrants.symm
  · intro ⟨hrevoked, hissued⟩ q hq m permission
    rw [← Option.some.inj hq, hlookup, hstored]
    by_cases hm : m ∈ s.revoked
    · simp [hm, hrevoked m hm permission]
    · simp only [hm, not_false_eq_true, decide_true, Bool.true_and]
      cases hc : issuedTo s.issued m with
      | none => rfl
      | some a =>
        obtain ⟨c, hmem, rfl, rfl⟩ := mem_of_issuedTo hc
        exact (hissued c hmem hm permission).symm

/-- Issuing a certificate writes the policy and the file alike. -/
theorem mirror_registered {c : Membership} {now : ℕ} {active : MembershipPolicy} (hmirror : Mirror s)
    (hr : Registrable own s c now true true active) : Mirror (s.registered c true active) := by
  intro q hq m permission
  rw [← Option.some.inj hq]
  show grants ((active.permissions.insert c.member (accessOf c)).lookup m) permission =
    (decide (m ∉ s.revoked) && grants ((issuedTo (replaceOrPush s.issued c) m).or _) permission)
  rw [issuedTo_replaceOrPush]
  by_cases hm : m = c.member
  · subst hm
    rw [AList.lookup_insert, if_pos rfl]
    simp [hr.notRevoked]
  · rw [AList.lookup_insert_ne hm, if_neg hm]
    exact hmirror active hr.policy m permission

/-- Appending a block: a readmitted member has lost its entry, not its files. -/
theorem mirror_append_iff {block : Block} {consensus : ConsensusEngine P} (h : Backed P parse s)
    (hmirror : Mirror s) :
    Mirror ((s.extended P block).applyRevocations (changesOf block.events)) ↔
      Steady s (.append block consensus) := by
  rcases Option.eq_none_or_eq_some s.policy with hp | ⟨p, hp⟩
  · -- without an invitation there is no policy, and the files grant nothing
    have hi : s.disk.invitation = none := by
      have hpolicy := h.policy
      rw [hp] at hpolicy
      exact Option.isNone_iff_eq_none.mp (by simpa using hpolicy.symm)
    have hstored : ∀ m, stored s m = none := by
      intro m
      rw [stored, h.uninvited hi, hi]
      rfl
    refine ⟨fun _ m _ _ permission => by rw [hstored]; rfl, fun _ q hq => ?_⟩
    obtain ⟨p, hp', _⟩ := Option.map_eq_some_iff.mp hq
    exact absurd (hp.symm.trans hp') (by simp)
  · obtain ⟨p', hp', hlookup⟩ := lookup_applyRevocations (s := s.extended P block) hp
      (changesOf block.events)
    change ∀ m, p'.permissions.lookup m =
      if m ∈ applyChanges s.revoked (changesOf block.events) then none
      else p.permissions.lookup m at hlookup
    constructor
    · intro hm m hrevoked hreadmitted permission
      have hgrants : grants (p'.permissions.lookup m) permission =
          (decide (m ∉ applyChanges s.revoked (changesOf block.events)) &&
            grants (stored s m) permission) := hm p' hp' m permission
      rw [hlookup m, if_neg hreadmitted, hmirror p hp m permission] at hgrants
      simpa [hrevoked, hreadmitted] using hgrants.symm
    · intro hsteady q hq m permission
      obtain rfl : p' = q := Option.some.inj (hp'.symm.trans hq)
      rw [hlookup m]
      show grants (if m ∈ applyChanges s.revoked (changesOf block.events) then none else _) permission =
        (decide (m ∉ applyChanges s.revoked (changesOf block.events)) &&
          grants (stored s m) permission)
      by_cases hm : m ∈ applyChanges s.revoked (changesOf block.events)
      · simp [hm, grants]
      · rw [if_neg hm, hmirror p hp m permission]
        by_cases hrevoked : m ∈ s.revoked
        · simp [hsteady m hrevoked hm permission]
        · simp [hm, hrevoked]

/-- **What keeps the decisions and the files in step**, call by call. -/
theorem mirror_step_iff {call : PolicyCall P} (h : Backed P parse s) (hmirror : Mirror s)
    (hstep : policyStep own s call = some s') : Mirror s' ↔ Steady s call := by
  match call with
  | .membership (.install i now) => exact mirror_install_iff h hstep
  | .membership (.issue ..) =>
    refine ⟨fun _ => trivial, fun _ => ?_⟩
    rcases callStep_issue hstep with rfl | ⟨c, active, hr, rfl⟩
    · exact hmirror
    · exact mirror_registered hmirror hr
  | .append block consensus =>
    obtain ⟨_, _, rfl⟩ := policyStep_append hstep
    exact mirror_append_iff h hmirror

/-- **What a restart shows.**  If the directory of a running node opens at time `t`, the reopened
node decides like the running one exactly when the running policy matches the files. -/
theorem reopened_authorises_iff {r : PeerlessNode} (h : Backed P parse s) {listing : Dir}
    (hlisting : listing.Perm s.disk.blocks) {t : ℕ}
    (hopen : PeerlessNode.open own parse s.disk listing (fun _ => t) = .ok r) :
    (∀ signer permission, r.authorises signer permission t = s.authorises signer permission t) ↔
      Mirror s := by
  have hr := open_policy hopen
  obtain ⟨_, hfollows⟩ := sound_open hopen
  have hissued : r.issued = s.issued := by rw [hr.issued, h.issued]
  have hledger : r.ledger.blocks = s.ledger.blocks := by
    have := hr.ledger
    rw [h.blocks.open hlisting] at this
    rw [(validate_ok this).1]
  have hrevoked : r.revoked = s.revoked := by rw [hfollows, h.follows, hledger]
  have hstored : ∀ m, stored r m = stored s m := by
    intro m
    rw [stored, stored, hissued, hr.disk_eq]
  cases hi : s.disk.invitation with
  | none =>
    have hp : s.policy = none := by
      have := h.policy
      rw [hi] at this
      exact Option.isNone_iff_eq_none.mp (by simpa using this)
    refine ⟨fun _ q hq => absurd (hp.symm.trans hq) (by simp), fun _ signer permission => ?_⟩
    rw [PeerlessNode.authorises, PeerlessNode.authorises, (hr.uninvited hi).1, hp]
  | some i =>
    obtain ⟨hlive, q, hq, hlookup⟩ := hr.policy i hi
    have hsome := h.policy
    rw [hi] at hsome
    obtain ⟨p, hp⟩ := Option.isSome_iff_exists.mp hsome
    -- at a time at which the directory opens, everything the files give is live
    have hissuedLive : ∀ m a, issuedTo s.issued m = some a → a.liveAt t = true :=
      fun m a ha => hr.issued_live (hissued ▸ ha)
    have hinvitedLive : ∀ m a, invited i m = some a → a.liveAt t = true :=
      fun m a ha => invited_live hlive ha
    have hafter : ∀ signer permission, r.authorises signer permission t =
        (decide (signer ∉ s.revoked) && grants (stored s signer) permission) := by
      intro signer permission
      rw [PeerlessNode.authorises, hq]
      simp only
      rw [hlookup, hrevoked, hstored]
      by_cases hm : signer ∈ s.revoked
      · simp [hm]
      · simp only [hm, if_false, not_false_eq_true, decide_true, Bool.true_and]
        refine any_allows_of_live fun a ha => ?_
        rcases Option.or_eq_some_iff.mp ha with ha | ⟨_, ha⟩
        · exact hissuedLive signer a ha
        · rw [hi] at ha
          exact hinvitedLive signer a ha
    have hbefore : ∀ signer permission, s.authorises signer permission t =
        grants (p.permissions.lookup signer) permission := by
      intro signer permission
      rw [PeerlessNode.authorises, hp]
      refine any_allows_of_live fun a ha => ?_
      rcases h.entries p hp signer a ha with ha | ⟨j, hj, ha⟩
      · exact hissuedLive signer a ha
      · obtain rfl : i = j := Option.some.inj (hi.symm.trans hj)
        exact hinvitedLive signer a ha
    constructor
    · intro hsame p' hp' m permission
      obtain rfl : p = p' := Option.some.inj (hp.symm.trans hp')
      rw [← hbefore, ← hsame, hafter]
    · intro hmirror signer permission
      rw [hafter, hbefore, hmirror p hp signer permission]

/-- **Restarts along a run.**  From any successful `open`, after any run of successful calls that
were all steady, a restart at any time at which the directory opens changes no decision; and after
one more successful call, it changes none exactly when that call is steady too. -/
theorem reopened_authorises_run {disk : Disk} {listing₀ : Dir} {clock₀ : ℕ → ℕ} {s₀ s : PeerlessNode}
    (hnames : (disk.blocks.map Prod.fst).Nodup) (hlisting₀ : listing₀.Perm disk.blocks)
    (hopen₀ : PeerlessNode.open own parse disk listing₀ clock₀ = .ok s₀)
    {calls : List (PolicyCall P)} (hwritten : ∀ call ∈ calls, Written parse call)
    (hmeets : Runs.Meets (policyStep own) Steady s₀ calls)
    (hrun : Runs.run (policyStep own) s₀ calls = some s) :
    (∀ (listing : Dir) (t : ℕ) (r : PeerlessNode), listing.Perm s.disk.blocks →
      PeerlessNode.open own parse s.disk listing (fun _ => t) = .ok r →
        ∀ signer permission, r.authorises signer permission t = s.authorises signer permission t) ∧
    ∀ (call : PolicyCall P) (s' : PeerlessNode), Written parse call →
      policyStep own s call = some s' →
      ∀ (listing : Dir) (t : ℕ) (r : PeerlessNode), listing.Perm s'.disk.blocks →
        PeerlessNode.open own parse s'.disk listing (fun _ => t) = .ok r →
          ((∀ signer permission,
            r.authorises signer permission t = s'.authorises signer permission t) ↔
              Steady s call) := by
  obtain ⟨hbacked, hmirror⟩ := Runs.run_invariant (I := fun s => Backed P parse s ∧ Mirror s)
    (fun _ _ _ h hok hstep =>
      ⟨backed_step h.1 hok.2 hstep, (mirror_step_iff h.1 h.2 hstep).mpr hok.1⟩)
    calls s₀ s (backed_open hnames hlisting₀ hopen₀)
    (Runs.Meets.and_forall calls s₀ hmeets hwritten) hrun
  refine ⟨fun listing t r hlisting hopen => ?_, fun call s' hcall hstep listing t r hlisting hopen => ?_⟩
  · exact (reopened_authorises_iff hbacked hlisting hopen).mpr hmirror
  · rw [← mirror_step_iff hbacked hmirror hstep]
    exact reopened_authorises_iff (backed_step hbacked hcall hstep) hlisting hopen

/-! ### An invitation installed twice -/

/-- The sample node started on an empty directory. -/
def startEmpty : Except NodeError PeerlessNode :=
  PeerlessNode.open (identity [1]) (fun _ => none) ⟨none, none, []⟩ [] fun _ => 0

/-- The sample node joins its own network and admits one member. -/
def admitCalls : List (PolicyCall primitives) := (admitUntil (some 10)).map .membership

/-- The sample node restarted at time 7. -/
def restartAtSeven (s : PeerlessNode) : Except NodeError PeerlessNode :=
  PeerlessNode.open (identity [1]) (fun _ => none) s.disk [] fun _ => 7

/-- After admitting a member, a restart changes no decision. -/
theorem admitted_survives_restart : ∃ s r, startEmpty = .ok fresh ∧
    Runs.run (policyStep (identity [1])) fresh admitCalls = some s ∧ restartAtSeven s = .ok r ∧
    ∀ signer permission, r.authorises signer permission 7 = s.authorises signer permission 7 := by
  have hfacts : (Runs.run (policyStep (identity [1])) fresh admitCalls).bind (fun s =>
      (restartAtSeven s).toOption.map fun _ => decide (s.disk.blocks = [])) = some true := by
    decide +kernel
  obtain ⟨s, hrun, hmap⟩ := Option.bind_eq_some_iff.mp hfacts
  obtain ⟨r, hopt, hdisk⟩ := Option.map_eq_some_iff.mp hmap
  have hopen : restartAtSeven s = .ok r := by
    cases h : restartAtSeven s with
    | error e => rw [h] at hopt; exact absurd hopt (by simp [Except.toOption])
    | ok t => rw [h] at hopt; rw [Option.some.inj hopt]
  have hmeets : Runs.Meets (policyStep (identity [1])) Steady fresh admitCalls := by
    refine ⟨⟨?_, ?_⟩, fun _ _ => ⟨trivial, fun _ _ => trivial⟩⟩
    · exact fun m hm => absurd hm (Finset.notMem_empty m)
    · exact fun c hc => absurd hc List.not_mem_nil
  have hnames : ((⟨none, none, []⟩ : Disk).blocks.map Prod.fst).Nodup := List.nodup_nil
  have hstart : PeerlessNode.open (identity [1]) (fun _ => none) ⟨none, none, []⟩ [] (fun _ => 0) =
      .ok fresh := rfl
  have hwritten : ∀ call ∈ admitCalls, Written (fun _ => none) call := by
    simp [admitCalls, admitUntil, Written]
  have hsame := reopened_authorises_run hnames (List.Perm.refl _) hstart hwritten hmeets hrun
  refine ⟨s, r, rfl, hrun, hopen, hsame.1 [] 7 r ?_ hopen⟩
  rw [of_decide_eq_true hdisk]

/-- **Installing the invitation again shuts the admitted member out until the next restart.** -/
theorem reinstall_differs_until_restart : startEmpty = .ok fresh ∧
    (Runs.run (policyStep (identity [1])) fresh
      (admitCalls ++ [.membership (.install genesis 6)])).bind (fun s =>
        (restartAtSeven s).toOption.map fun r =>
          (s.authorises (member [2]) "observe" 7, r.authorises (member [2]) "observe" 7)) =
      some (false, true) := by
  refine ⟨rfl, by decide +kernel⟩

end Peerless.Node
