import Peerless.Ledger.Membership
import Peerless.Ledger.Store
import Peerless.Lib.HashMap

/-!
# The membership policy of a node

The part of `PeerlessNode` that decides who may talk to it: the installed invitation, the
certificates the node issued, the revocations of its ledger and the permission map built from
them.  Every call takes the readings of the clock it makes as arguments and returns the node after
the call with its result.

The two metadata files hold the value whose JSON was written; `writable` says whether the file
system took the write.
-/

namespace Peerless.Node

open Text JsonText HashMap Peerless.Core Identity Protocol Chain

/-- `NodeError`, without the variants of the parts left out; the texts of the wrapped errors are left
out, those of the node's own rejections are kept. -/
inductive NodeError where
  | io
  | protocol (e : IdentityError)
  | storage
  | wasm (reason : String)
  | rejected (reason : String)
  | unexpectedResponse
  | membershipRequired
  | ledger (e : LedgerError)
  | metadata
  deriving DecidableEq

def maxMembershipFileBytes : ℕ := 1024 * 1024

def maxIssuedMemberships : ℕ := 4096

structure MemberAccess where
  permissions : Finset String
  expiresAt : Option ℕ
  deriving DecidableEq

def MemberAccess.liveAt (a : MemberAccess) (now : ℕ) : Bool := a.expiresAt.all (· > now)

def MemberAccess.allows (a : MemberAccess) (permission : String) (now : ℕ) : Bool :=
  a.liveAt now && (decide ("*" ∈ a.permissions) || decide (permission ∈ a.permissions))

structure MembershipPolicy where
  networkId : String
  permissions : Map NodeId MemberAccess

/-- One entry of the permission map set. -/
def MembershipPolicy.grant (p : MembershipPolicy) (member : NodeId) (access : MemberAccess) :
    MembershipPolicy :=
  { p with permissions := p.permissions.insert member access }

/-- The files a node keeps. -/
structure Disk where
  invitation : Option Invitation
  issued : Option (List Membership)
  blocks : Dir

/-- The fields of `PeerlessNode` behind the policy. -/
structure PeerlessNode where
  disk : Disk
  ledger : Ledger
  policy : Option MembershipPolicy
  issued : List Membership
  revoked : Finset NodeId

/-! ### Revocations -/

/-- The membership changes of an event list, in order. -/
def changesOf (events : List SignedEvent) : List (NodeId × Bool) :=
  events.filterMap fun e =>
    match e.event with
    | .nodeRevoked member => some (member, true)
    | .nodeJoined member => some (member, false)
    | _ => none

/-- The loop of `apply_revocations`. -/
def applyChanges (revoked : Finset NodeId) (changes : List (NodeId × Bool)) : Finset NodeId :=
  changes.foldl (fun acc c => if c.2 then insert c.1 acc else acc.erase c.1) revoked

/-- The latest change of a member. -/
def latestChange (member : NodeId) (changes : List (NodeId × Bool)) : Option Bool :=
  ((changes.filter fun c => c.1 = member).map Prod.snd).getLast?

/-- **The revoked set follows the latest change.** -/
theorem applyChanges_mem_iff (member : NodeId) : ∀ (changes : List (NodeId × Bool))
    (revoked : Finset NodeId), member ∈ applyChanges revoked changes ↔
      latestChange member changes = some true ∨
        (latestChange member changes = none ∧ member ∈ revoked) := by
  intro changes
  induction changes using List.reverseRecOn with
  | nil => intro revoked; simp [applyChanges, latestChange]
  | append_singleton cs c ih =>
    intro revoked
    have hfold : applyChanges revoked (cs ++ [c]) =
        if c.2 then insert c.1 (applyChanges revoked cs)
        else (applyChanges revoked cs).erase c.1 := by
      simp only [applyChanges, List.foldl_append, List.foldl_cons, List.foldl_nil]
    rw [hfold]
    by_cases hm : c.1 = member
    · have hlatest : latestChange member (cs ++ [c]) = some c.2 := by
        simp [latestChange, List.filter_append, hm]
      rw [hlatest]
      cases c.2 <;> simp [hm]
    · have hlatest : latestChange member (cs ++ [c]) = latestChange member cs := by
        simp [latestChange, List.filter_append, hm]
      rw [hlatest, ← ih revoked]
      have hm' : ¬ member = c.1 := fun h => hm h.symm
      cases c.2 <;> simp [hm']

/-- `apply_revocations`: the revoked set moves, then the policy drops every revoked member. -/
def PeerlessNode.applyRevocations (s : PeerlessNode) (changes : List (NodeId × Bool)) :
    PeerlessNode :=
  let revoked := applyChanges s.revoked changes
  { s with
    revoked
    policy := s.policy.map fun p =>
      { p with permissions := retain (fun member _ => decide (member ∉ revoked)) p.permissions } }

def PeerlessNode.refreshRevocationsFromLedger (s : PeerlessNode) : PeerlessNode :=
  s.applyRevocations (changesOf (s.ledger.blocks.flatMap Block.events))

variable (P : Primitives)

def PeerlessNode.appendLedgerBlock (s : PeerlessNode) (block : Block) (consensus : ConsensusEngine P) :
    PeerlessNode × Except NodeError Unit :=
  match s.ledger.append P s.disk.blocks block consensus with
  | .error err => (s, .error (.ledger err))
  | .ok (blocks, ledger, _) =>
    ({ s with ledger, disk := { s.disk with blocks } }.applyRevocations (changesOf block.events),
      .ok ())

/-! ### Building the policy -/

/-- The access a certificate grants. -/
def accessOf (m : Membership) : MemberAccess := ⟨m.permissions.toFinset, m.expiresAt⟩

/-- The loop of `enforce_membership`. -/
def collectPermissions (networkId : String) (trusted : Finset NodeId) (now : ℕ) :
    Map NodeId MemberAccess → List Membership → Except LedgerError (Map NodeId MemberAccess)
  | permissions, [] => .ok permissions
  | permissions, c :: cs =>
    if c.networkId = networkId then
      match c.verify P trusted now with
      | .error err => .error err
      | .ok true => collectPermissions networkId trusted now (permissions.insert c.member (accessOf c)) cs
      | .ok false => collectPermissions networkId trusted now permissions cs
    else collectPermissions networkId trusted now permissions cs

/-- `enforce_membership`: the map is rebuilt from the certificates alone. -/
def PeerlessNode.enforceMembership (s : PeerlessNode) (networkId : String)
    (certificates : List Membership) (trusted : Finset NodeId) (now : ℕ) :
    PeerlessNode × Except NodeError Unit :=
  match collectPermissions P networkId trusted now ∅ certificates with
  | .error err => (s, .error (.ledger err))
  | .ok permissions => ({ s with policy := some ⟨networkId, permissions⟩ }, .ok ())

variable {P} (own : NodeIdentity P)

def PeerlessNode.activateInvitation (s : PeerlessNode) (invitation : Invitation) (now : ℕ) :
    PeerlessNode × Except NodeError Unit :=
  match invitation.verifyFor P own.nodeId now with
  | .error err => (s, .error (.ledger err))
  | .ok false => (s, .error (.rejected "persisted invitation is invalid or expired"))
  | .ok true =>
    match s.enforceMembership P invitation.membership.networkId [invitation.membership]
        {invitation.membership.issuer} now with
    | (s, .error err) => (s, .error err)
    | (s, .ok ()) =>
      let access : MemberAccess := ⟨{"*"}, invitation.membership.expiresAt⟩
      ({ s with policy := s.policy.map fun p => p.grant invitation.membership.issuer access }, .ok ())

def PeerlessNode.installInvitation (s : PeerlessNode) (invitation : Invitation) (now : ℕ)
    (writable : Bool) : PeerlessNode × Except NodeError Unit :=
  match invitation.verifyFor P own.nodeId now with
  | .error err => (s, .error (.ledger err))
  | .ok false =>
    (s, .error (.rejected "invitation is invalid, expired, or addressed to another node"))
  | .ok true =>
    if (writePretty 0 invitation.toJson).length > maxMembershipFileBytes then
      (s, .error (.rejected "invitation exceeds size limit"))
    else if !writable then (s, .error .io)
    else { s with disk := { s.disk with invitation := some invitation } }.activateInvitation own
      invitation now

/-- The first certificate of the same member replaced, or the new one added at the end. -/
def replaceOrPush : List Membership → Membership → List Membership
  | [], m => [m]
  | known :: rest, m => if known.member = m.member then m :: rest else known :: replaceOrPush rest m

def membershipsJson (l : List Membership) : Json := .arr (l.map Membership.toJson)

def PeerlessNode.registerIssuedMembership (s : PeerlessNode) (membership : Membership) (now : ℕ)
    (persist writable : Bool) : PeerlessNode × Except NodeError Unit :=
  if membership.member ∈ s.revoked then (s, .error (.rejected "member has been revoked"))
  else if membership.issuer ≠ own.nodeId then
    (s, .error (.rejected "issued membership is not a valid local certificate"))
  else
    match membership.verify P {own.nodeId} now with
    | .error err => (s, .error (.ledger err))
    | .ok false => (s, .error (.rejected "issued membership is not a valid local certificate"))
    | .ok true =>
      if (s.issued.all fun known => known.member ≠ membership.member) &&
          s.issued.length ≥ maxIssuedMemberships then
        (s, .error (.rejected "issued membership limit exceeded"))
      else
        let candidate := replaceOrPush s.issued membership
        if persist && (writePretty 0 (membershipsJson candidate)).length > maxMembershipFileBytes then
          (s, .error (.rejected "issued memberships exceed size limit"))
        else
          match s.policy with
          | none => (s, .error .membershipRequired)
          | some active =>
            if active.networkId ≠ membership.networkId then
              (s, .error (.rejected "issued membership belongs to another network"))
            else if persist && !writable then (s, .error .io)
            else
              ({ s with
                  disk := if persist then { s.disk with issued := some candidate } else s.disk
                  policy := some (active.grant membership.member (accessOf membership))
                  issued := candidate }, .ok ())

def PeerlessNode.hasMembershipAt (s : PeerlessNode) (now : ℕ) : Bool :=
  match s.policy with
  | none => false
  | some p => (p.permissions.lookup own.nodeId).any fun access => access.liveAt now

/-- `issue_invitation`, with its three readings of the clock. -/
def PeerlessNode.issueInvitation (s : PeerlessNode) (networkId : String) (member : NodeId)
    (permissions : List String) (expiresAt : Option ℕ) (bootstrap : List String)
    (issuedAt checkedAt registeredAt : ℕ) (writable : Bool) :
    PeerlessNode × Except NodeError Invitation :=
  match Invitation.issue networkId member permissions expiresAt bootstrap issuedAt own with
  | .error err => (s, .error (.ledger err))
  | .ok invitation =>
    if s.hasMembershipAt own checkedAt then
      match s.registerIssuedMembership own invitation.membership registeredAt true writable with
      | (s, .error err) => (s, .error err)
      | (s, .ok ()) => (s, .ok invitation)
    else (s, .ok invitation)

/-! ### Opening -/

/-- The error of `read_bounded_file` on a file that is too large. -/
def tooLarge : NodeError :=
  .rejected "persisted metadata exceeds 1048576 byte limit"

/-- The loop over the stored certificates; reading `i + 1` of the clock belongs to certificate `i`. -/
def PeerlessNode.registerAll (clock : ℕ → ℕ) :
    ℕ → List Membership → PeerlessNode → PeerlessNode × Except NodeError Unit
  | _, [], s => (s, .ok ())
  | i, m :: ms, s =>
    match s.registerIssuedMembership own m (clock (i + 1)) false true with
    | (s, .error err) => (s, .error err)
    | (s, .ok ()) => PeerlessNode.registerAll clock (i + 1) ms s

/-- The invitation file of `open`. -/
def PeerlessNode.loadInvitation (clock : ℕ → ℕ) (s : PeerlessNode) :
    PeerlessNode × Except NodeError Unit :=
  match s.disk.invitation with
  | none => (s, .ok ())
  | some invitation =>
    if (writePretty 0 invitation.toJson).length > maxMembershipFileBytes then (s, .error tooLarge)
    else s.activateInvitation own invitation (clock 0)

/-- The file of issued certificates of `open`. -/
def PeerlessNode.loadIssued (clock : ℕ → ℕ) (s : PeerlessNode) :
    PeerlessNode × Except NodeError Unit :=
  match s.disk.issued with
  | none => (s, .ok ())
  | some memberships =>
    if (writePretty 0 (membershipsJson memberships)).length > maxMembershipFileBytes then
      (s, .error tooLarge)
    else if memberships.length > maxIssuedMemberships then
      (s, .error (.rejected "issued membership limit exceeded"))
    else PeerlessNode.registerAll own clock 0 memberships s

/-- The membership phase of `PeerlessNode::open`. -/
def PeerlessNode.loadMemberships (clock : ℕ → ℕ) (s : PeerlessNode) :
    PeerlessNode × Except NodeError Unit :=
  match s.loadInvitation own clock with
  | (s, .error err) => (s, .error err)
  | (s, .ok ()) => s.loadIssued own clock

/-- A node before its files are read. -/
def PeerlessNode.blank (disk : Disk) (ledger : Ledger) : PeerlessNode :=
  ⟨disk, ledger, none, [], ∅⟩

/-- `PeerlessNode::open` on a directory whose block files are listed as `listing`. -/
def PeerlessNode.open (parse : Bytes → Option Block) (disk : Disk) (listing : Dir) (clock : ℕ → ℕ) :
    Except NodeError PeerlessNode :=
  match Ledger.open P parse listing with
  | .error err => .error (.ledger err)
  | .ok ledger =>
    match (PeerlessNode.blank disk ledger).loadMemberships own clock with
    | (_, .error err) => .error err
    | (s, .ok ()) => .ok s.refreshRevocationsFromLedger

/-! ### Admission -/

def permissionFor : Message → String
  | .getCapability | .capability _ => "observe"
  | .hasContent _ | .checkContent _ | .getContent _ | .content _ _ | .contentStart _ _ _
  | .contentChunk _ _ _ _ | .contentComplete _ => "content"
  | .taskOffer _ _ _ | .taskAccept _ | .taskReject _ _ | .taskCommit _ | .taskStarted _ _
  | .taskError _ _ | .taskCancel _ | .taskResult _ => "execute"
  | .stateSnapshot _ _ => "state"
  | .ledgerBlock _ => "ledger"

/-- The checks at the top of `handle`: the refusal, or none when the message is let in. -/
def PeerlessNode.admission (s : PeerlessNode) (withinBudget : Bool) (message : Message)
    (signer : NodeId) (now : ℕ) : Option Message :=
  if !withinBudget then some (.taskReject "" "request rate limit exceeded")
  else
    match s.policy with
    | none => none
    | some p =>
      let required := permissionFor message
      if (p.permissions.lookup signer).any fun access => access.allows required now then none
      else some (.taskReject ""
        ("signer is not authorized for " ++ required ++ " in " ++ p.networkId))

/-! ### What a successful call did -/

variable {own}

/-- What `register_issued_membership` checks, against the active policy. -/
structure Registrable (own : NodeIdentity P) (s : PeerlessNode) (m : Membership) (now : ℕ)
    (persist writable : Bool) (active : MembershipPolicy) : Prop where
  notRevoked : m.member ∉ s.revoked
  issuer : m.issuer = own.nodeId
  valid : m.verify P {own.nodeId} now = .ok true
  room : (∃ known ∈ s.issued, known.member = m.member) ∨ s.issued.length < maxIssuedMemberships
  size : persist = true →
    (writePretty 0 (membershipsJson (replaceOrPush s.issued m))).length ≤ maxMembershipFileBytes
  policy : s.policy = some active
  network : active.networkId = m.networkId
  written : persist = true → writable = true

/-- The node with a certificate registered. -/
def PeerlessNode.registered (s : PeerlessNode) (m : Membership) (persist : Bool)
    (active : MembershipPolicy) : PeerlessNode :=
  { s with
    disk := if persist then { s.disk with issued := some (replaceOrPush s.issued m) } else s.disk
    policy := some (active.grant m.member (accessOf m))
    issued := replaceOrPush s.issued m }

variable {s s' : PeerlessNode} {writable : Bool}

theorem registerIssuedMembership_ok_iff {m : Membership} {now : ℕ} {persist : Bool} :
    s.registerIssuedMembership own m now persist writable = (s', .ok ()) ↔
      ∃ active, Registrable own s m now persist writable active ∧
        s' = s.registered m persist active := by
  have hroom : (¬ ((s.issued.all fun known => known.member ≠ m.member) &&
      decide (s.issued.length ≥ maxIssuedMemberships)) = true) ↔
      (∃ known ∈ s.issued, known.member = m.member) ∨ s.issued.length < maxIssuedMemberships := by
    rw [Bool.and_eq_true, not_and_or]
    simp
  unfold PeerlessNode.registerIssuedMembership
  constructor
  · intro h
    split at h
    · cases h
    rename_i hrev
    split at h
    · cases h
    rename_i hissuer
    split at h
    · cases h
    · cases h
    rename_i hvalid
    split at h
    · cases h
    rename_i hlimit
    dsimp only at h
    split at h
    · cases h
    rename_i hsize
    split at h
    · cases h
    rename_i active hpolicy
    split at h
    · cases h
    rename_i hnet
    split at h
    · cases h
    rename_i hwrite
    refine ⟨active, ⟨hrev, not_not.mp hissuer, hvalid, hroom.mp hlimit, ?_, hpolicy, not_not.mp hnet,
      ?_⟩, (Prod.mk.inj h).1.symm⟩
    · intro hp
      simpa [hp] using hsize
    · intro hp
      simpa [hp] using hwrite
  · intro ⟨active, hreg, hs'⟩
    rw [if_neg hreg.notRevoked, if_neg (not_not.mpr hreg.issuer), hreg.valid]
    simp only
    rw [if_neg (hroom.mpr hreg.room)]
    cases persist with
    | false =>
      rw [hreg.policy, hs']
      simp only [Bool.false_and, Bool.false_eq_true, if_false]
      rw [if_neg (not_not.mpr hreg.network)]
      rfl
    | true =>
      rw [hreg.policy, hs']
      simp only [Bool.true_and, decide_eq_true_eq]
      rw [if_neg (not_lt.mpr (hreg.size rfl)), if_neg (not_not.mpr hreg.network), hreg.written rfl]
      rfl

theorem registerIssuedMembership_error {m : Membership} {now : ℕ} {persist : Bool} {err : NodeError}
    (h : s.registerIssuedMembership own m now persist writable = (s', .error err)) : s' = s := by
  unfold PeerlessNode.registerIssuedMembership at h
  dsimp only at h
  repeat' split at h
  all_goals first
    | exact (Prod.mk.inj h).1.symm
    | cases h

variable {networkId : String} {trusted : Finset NodeId}

/-- A rebuilt map holds accesses of accepted certificates, and what it started with. -/
theorem collectPermissions_lookup {now : ℕ} :
    ∀ (cs : List Membership) (start permissions : Map NodeId MemberAccess),
      collectPermissions P networkId trusted now start cs = .ok permissions →
      ∀ member, (permissions.lookup member).isSome → (start.lookup member).isSome ∨
        ∃ c ∈ cs, c.member = member ∧ c.networkId = networkId ∧ c.verify P trusted now = .ok true := by
  intro cs
  induction cs with
  | nil =>
    intro start permissions h member hm
    rw [collectPermissions, Except.ok.injEq] at h
    rw [h]
    exact Or.inl hm
  | cons c cs ih =>
    intro start permissions h member hm
    have hlift : (∃ x ∈ cs, x.member = member ∧ x.networkId = networkId ∧
        x.verify P trusted now = .ok true) → ∃ x ∈ c :: cs, x.member = member ∧
        x.networkId = networkId ∧ x.verify P trusted now = .ok true :=
      fun ⟨x, hx, hrest⟩ => ⟨x, List.mem_cons_of_mem _ hx, hrest⟩
    rw [collectPermissions] at h
    split at h
    · rename_i hnet
      split at h
      · cases h
      · rename_i hver
        rcases ih _ _ h member hm with hstart | hcs
        · by_cases hc : member = c.member
          · exact Or.inr ⟨c, List.mem_cons_self, hc.symm, hnet, hver⟩
          · rw [AList.lookup_insert_ne hc] at hstart
            exact Or.inl hstart
        · exact Or.inr (hlift hcs)
      · rcases ih _ _ h member hm with hstart | hcs
        · exact Or.inl hstart
        · exact Or.inr (hlift hcs)
    · rcases ih _ _ h member hm with hstart | hcs
      · exact Or.inl hstart
      · exact Or.inr (hlift hcs)

/-- **A rebuilt policy** grants access to members of accepted certificates only. -/
theorem enforceMembership_ok {cs : List Membership} {now : ℕ}
    (h : s.enforceMembership P networkId cs trusted now = (s', .ok ())) :
    ∃ permissions, s' = { s with policy := some ⟨networkId, permissions⟩ } ∧
      ∀ member, (permissions.lookup member).isSome → ∃ c ∈ cs, c.member = member ∧
        c.networkId = networkId ∧ c.verify P trusted now = .ok true := by
  unfold PeerlessNode.enforceMembership at h
  split at h
  · cases h
  · rename_i permissions hc
    refine ⟨permissions, (Prod.mk.inj h).1.symm, ?_⟩
    intro member hm
    rcases collectPermissions_lookup _ _ _ hc member hm with hstart | hcs
    · rw [AList.lookup_empty] at hstart
      cases hstart
    · exact hcs

theorem enforceMembership_error {cs : List Membership} {now : ℕ} {err : NodeError}
    (h : s.enforceMembership P networkId cs trusted now = (s', .error err)) : s' = s := by
  unfold PeerlessNode.enforceMembership at h
  split at h
  · exact (Prod.mk.inj h).1.symm
  · cases h

variable {i : Invitation}

/-- **An activated invitation** installs its own member and its issuer, and no one else. -/
theorem activateInvitation_ok {now : ℕ} (h : s.activateInvitation own i now = (s', .ok ())) :
    i.verifyFor P own.nodeId now = .ok true ∧
    ∃ permissions, s' = { s with policy := some ⟨i.membership.networkId, permissions⟩ } ∧
      ∀ member, (permissions.lookup member).isSome →
        member = i.membership.member ∨ member = i.membership.issuer := by
  unfold PeerlessNode.activateInvitation at h
  split at h
  · cases h
  · cases h
  · rename_i hver
    refine ⟨hver, ?_⟩
    split at h
    · cases h
    · rename_i s₁ henf
      obtain ⟨permissions, rfl, hperm⟩ := enforceMembership_ok henf
      refine ⟨permissions.insert i.membership.issuer ⟨{"*"}, i.membership.expiresAt⟩,
        (Prod.mk.inj h).1.symm, ?_⟩
      intro member hm
      by_cases hi : member = i.membership.issuer
      · exact Or.inr hi
      · rw [AList.lookup_insert_ne hi] at hm
        obtain ⟨c, hc, hmem, _⟩ := hperm member hm
        rw [List.mem_singleton.mp hc] at hmem
        exact Or.inl hmem.symm

theorem activateInvitation_of_verified {now : ℕ} (h : i.verifyFor P own.nodeId now = .ok true) :
    ∃ s', s.activateInvitation own i now = (s', .ok ()) := by
  have hver := (Invitation.verifyFor_eq_true_iff.mp h).2.2.2
  unfold PeerlessNode.activateInvitation PeerlessNode.enforceMembership
  rw [h]
  simp only [collectPermissions, if_true, hver]
  exact ⟨_, rfl⟩

/-! ### Whole calls -/

/-- **An installed invitation** is verified, fits its file, and is on disk when it is activated. -/
theorem installInvitation_ok {now : ℕ} (h : s.installInvitation own i now writable = (s', .ok ())) :
    (writePretty 0 i.toJson).length ≤ maxMembershipFileBytes ∧
      { s with disk := { s.disk with invitation := some i } }.activateInvitation own i now =
        (s', .ok ()) := by
  unfold PeerlessNode.installInvitation at h
  split at h
  · cases h
  · cases h
  split at h
  · cases h
  rename_i hsize
  split at h
  · cases h
  exact ⟨not_lt.mp hsize, h⟩

/-- **An issued invitation** is registered; a node without a live membership only signs it. -/
theorem issueInvitation_ok {member : NodeId} {permissions : List String} {expiresAt : Option ℕ}
    {bootstrap : List String} {issuedAt checkedAt registeredAt : ℕ}
    (h : s.issueInvitation own networkId member permissions expiresAt bootstrap issuedAt checkedAt
      registeredAt writable = (s', .ok i)) :
    s' = s ∨ ∃ c active, Registrable own s c registeredAt true writable active ∧
      s' = s.registered c true active := by
  unfold PeerlessNode.issueInvitation at h
  split at h
  · cases h
  split at h
  · split at h
    · cases h
    · rename_i s₁ hreg
      obtain ⟨active, hr, hs₁⟩ := registerIssuedMembership_ok_iff.mp hreg
      exact Or.inr ⟨_, active, hr, by rw [← (Prod.mk.inj h).1, hs₁]⟩
  · exact Or.inl (Prod.mk.inj h).1.symm

/-- **An appended block** is accepted, has a file of its own, and its revocations are applied. -/
theorem appendLedgerBlock_ok {block : Block} {consensus : ConsensusEngine P}
    (h : s.appendLedgerBlock P block consensus = (s', .ok ())) :
    s.ledger.Accepts P consensus block ∧ block.fileName P ∉ s.disk.blocks.map Prod.fst ∧
      s' = { s with
        ledger := ⟨s.ledger.blocks ++ [block]⟩
        disk := { s.disk with
          blocks := s.disk.blocks ++ [(block.fileName P, block.encodePretty)] } }.applyRevocations
            (changesOf block.events) := by
  unfold PeerlessNode.appendLedgerBlock at h
  split at h
  · cases h
  rename_i dir ledger hash hok
  obtain ⟨ha, hname, hr⟩ := Ledger.append_eq_ok_iff.mp hok
  refine ⟨ha, hname, ?_⟩
  rw [← (Prod.mk.inj h).1, (Prod.mk.inj hr).1, (Prod.mk.inj (Prod.mk.inj hr).2).1]

end Peerless.Node
