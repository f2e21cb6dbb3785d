import Peerless.Auth.Charged
import Peerless.Lib.Mealy

/-!
# Bounds of an issuer

Any sequence of `challenge`, `issue` and `prune` calls under a clock that does not go back.  Counters are
kept per member and epoch and dropped by two of the calls once a later epoch has begun; the private keys
are filed by one byte of their id, apart from the descriptors they belong to.

* `issuance_bounded` — the issuances of a member in an epoch, the stored descriptors, and
  the key of every response.
-/

namespace Peerless.Auth

open Text HashMap Wire Peerless.Core Identity Chain AnonymousIssuer

variable {T : GeneratorPrimitives} {P : Primitives}

/-! ### Calls -/

inductive IssuerCall (T : GeneratorPrimitives) (P : Primitives) where
  | challenge (issuer : NodeIdentity P) (networkId permission : String) (now : ℕ)
      (draws : ℕ → Option T.PrivateKey)
  | issue (membership : Membership) (trustedIssuers revokedMembers : Finset NodeId)
      (request : BlindCredentialRequest) (now : ℕ)
  | prune (now : ℕ)

inductive IssuerAnswer where
  | challenged (result : Except AnonymousAuthError AnonymousChallenge)
  | issued (result : Except AnonymousAuthError Bytes)
  | pruned

def IssuerCall.now : IssuerCall T P → ℕ
  | .challenge _ _ _ now _ => now
  | .issue _ _ _ _ now => now
  | .prune now => now

def issuerStep (s : AnonymousIssuer T.toIssuerPrimitives) :
    IssuerCall T P → AnonymousIssuer T.toIssuerPrimitives × IssuerAnswer
  | .challenge issuer networkId permission now draws =>
    ((s.challenge issuer networkId permission now draws).1,
      .challenged (s.challenge issuer networkId permission now draws).2)
  | .issue membership trustedIssuers revokedMembers request now =>
    ((s.issue P membership trustedIssuers revokedMembers request now).1,
      .issued (s.issue P membership trustedIssuers revokedMembers request now).2)
  | .prune now => (s.prune now, .pruned)

/-- An issuance to a member in an epoch of the policy that was granted. -/
def granted (policy : CredentialPolicy) (member : NodeId) (epoch : ℕ) :
    IssuerCall T P × IssuerAnswer → Bool
  | (.issue membership _ _ _ now, .issued (.ok _)) =>
    membership.member = member ∧ now / policy.epochSeconds = epoch
  | _ => false

variable {policy : CredentialPolicy}

theorem granted_true {member : NodeId} {epoch : ℕ} {call : IssuerCall T P} {answer : IssuerAnswer}
    (h : granted policy member epoch (call, answer) = true) :
    call.now / policy.epochSeconds = epoch ∧
      ∀ m trusted revoked request now, call = .issue m trusted revoked request now →
        m.member = member := by
  unfold granted at h
  split at h
  · rename_i m trusted revoked request now response heq
    obtain ⟨rfl, _⟩ := Prod.mk.inj heq
    obtain ⟨hmember, hepoch⟩ := of_decide_eq_true h
    refine ⟨hepoch, ?_⟩
    intro m' trusted' revoked' request' now' hcall
    rw [← (IssuerCall.issue.inj hcall).1]
    exact hmember
  · cases h

/-! ### Keys and descriptors -/

/-- Every stored descriptor has its own private key in the key map, under its own id. -/
structure Filed (s : AnonymousIssuer T.toIssuerPrimitives) : Prop where
  scope : ∀ scope d, s.descriptors.lookup scope = some d → d.scope = scope
  matched : Matched s ∅ ∅

variable {s : AnonymousIssuer T.toIssuerPrimitives}

theorem Filed.congr {s' : AnonymousIssuer T.toIssuerPrimitives} (h : Filed s) (hkeys : s'.keys = s.keys)
    (hdescriptors : s'.descriptors = s.descriptors) : Filed s' := by
  refine ⟨?_, h.matched.congr hkeys hdescriptors⟩
  rw [hdescriptors]
  exact h.scope

theorem dropScope_descriptors (s : AnonymousIssuer T.toIssuerPrimitives) (e : AuthorizationScope × Bytes) :
    (s.dropScope e).descriptors = s.descriptors.erase e.1 := by
  show (s.dropKey e.2).descriptors.erase e.1 = _
  rw [(dropKey_descriptors s e.2).1]

/-- **One round of `prune`** takes a descriptor and its key, and no other's. -/
theorem filed_dropScope (hs : Filed s) {scope : AuthorizationScope} {d : ScopeKeyDescriptor}
    (hd : s.descriptors.lookup scope = some d) : Filed (s.dropScope (scope, d.publicKey)) := by
  have hmarked : Matched s {(scope, d.publicKey)} ∅ := by
    refine Slots.Safe.collect hs.matched (Set.empty_subset _) fun x hx => Or.inr ⟨d, ?_, ?_⟩
    · rw [Set.mem_singleton_iff.mp hx]
      exact hd
    · rw [Set.mem_singleton_iff.mp hx]
  refine ⟨?_, (hmarked.dropKey (Set.mem_singleton _)).dropDescriptor (Set.empty_subset _) ?_⟩
  · intro scope' d' h
    rw [dropScope_descriptors] at h
    exact hs.scope scope' d' (lookup_of_erase h)
  · intro e he hne
    exact absurd (Set.mem_singleton_iff.mp he) hne

theorem filed_prune (hs : Filed s) (now : ℕ) : Filed (s.prune now) := by
  have hdropped := foldl_erase_invariant AnonymousIssuer.descriptors ScopeKeyDescriptor.publicKey
    dropScope_descriptors (fun s k v hs hd => filed_dropScope hs hd) _ s hs
    (nodup_expired s.descriptors now) fun e he => (mem_expired.mp he).2
  obtain ⟨hkeys, hdescriptors, _⟩ := dropCounts_fields ((expired s.descriptors now).foldl dropScope s) now
  exact hdropped.congr hkeys hdescriptors

theorem claimed_insert (hs : Filed s) {id : UInt8} {key : T.PrivateKey} {der : Bytes}
    (hfree : s.keys.lookup id = none) (hid : truncatedOf T.toTokenPrimitives der = some id)
    (hder : publicDer key = some der) : Matched { s with keys := s.keys.insert id key } ∅ {der} := by
  refine Slots.Safe.claim hs.matched hid hder hfree ?_ ?_
  · intro x hx
    cases hx
  · intro b hb
    exact Or.inl hb

theorem filed_insert (hs : Filed s) {id : UInt8} {key : T.PrivateKey} {d : ScopeKeyDescriptor}
    (hfree : s.keys.lookup id = none) (hid : truncatedOf T.toTokenPrimitives d.publicKey = some id)
    (hder : publicDer key = some d.publicKey) :
    Filed { s with
      keys := s.keys.insert id key
      descriptors := s.descriptors.insert d.scope d } := by
  refine ⟨?_, Slots.Safe.publish (claimed_insert hs hfree hid hder) (Set.mem_singleton _)
    (Set.empty_subset _) (fun b hb => by cases hb)⟩
  intro scope d' h
  replace h : (s.descriptors.insert d.scope d).lookup scope = some d' := h
  by_cases hscope : scope = d.scope
  · rw [hscope, AList.lookup_insert] at h
    rw [hscope, Option.some.inj h]
  · rw [AList.lookup_insert_ne hscope] at h
    exact hs.scope scope d' h

/-- **What `challenge` does to the issuer**: nothing, a `prune`, or a `prune` and a new key, with its
descriptor unless that cannot be signed. -/
theorem challenge_cases (hT : T.Lawful) (s : AnonymousIssuer T.toIssuerPrimitives)
    (issuer : NodeIdentity P) (networkId permission : String) (now : ℕ)
    (draws : ℕ → Option T.PrivateKey) :
    (s.challenge issuer networkId permission now draws).1 = s ∨
    (s.challenge issuer networkId permission now draws).1 = s.prune now ∨
    (size (s.prune now).descriptors < (s.prune now).policy.maxActiveScopeKeys ∧
      ∃ id der key, (s.prune now).keys.lookup id = none ∧ publicDer key = some der ∧
        truncatedOf T.toTokenPrimitives der = some id ∧
        ((s.challenge issuer networkId permission now draws).1 =
            { s.prune now with keys := (s.prune now).keys.insert id key } ∨
          ∃ d : ScopeKeyDescriptor, d.publicKey = der ∧ d.Described P ∧
            (s.challenge issuer networkId permission now draws).1 =
              { s.prune now with
                keys := (s.prune now).keys.insert id key
                descriptors := (s.prune now).descriptors.insert d.scope d })) := by
  unfold AnonymousIssuer.challenge
  cases validatePublicClass networkId permission with
  | error err => exact Or.inl rfl
  | ok u =>
    right
    dsimp only
    cases (s.prune now).policy.epoch now with
    | error err => exact Or.inl rfl
    | ok period =>
      obtain ⟨epoch, expiresAt⟩ := period
      dsimp only
      cases (s.prune now).existing networkId permission epoch expiresAt with
      | some d => exact Or.inl rfl
      | none =>
        dsimp only
        by_cases hfull : size (s.prune now).descriptors ≥ (s.prune now).policy.maxActiveScopeKeys
        · rw [if_pos hfull]
          exact Or.inl rfl
        · rw [if_neg hfull]
          rcases generate_cases hT (s.prune now) ((List.range 100).map draws) with
            ⟨err, hnone⟩ | ⟨id, der, key, hfree, hder, hid, hsome⟩
          · rw [hnone]
            exact Or.inl rfl
          · rw [hsome]
            refine Or.inr ⟨not_le.mp hfull, id, der, key, hfree, hder, hid, ?_⟩
            dsimp only
            cases hdescribe : describe issuer networkId permission epoch expiresAt der with
            | error err => exact Or.inl rfl
            | ok d =>
              obtain ⟨_, hpublic, hdescribed⟩ := describe_ok hdescribe
              exact Or.inr ⟨d, hpublic, hdescribed, rfl⟩

theorem filed_challenge (hT : T.Lawful) (hs : Filed s) (issuer : NodeIdentity P)
    (networkId permission : String) (now : ℕ) (draws : ℕ → Option T.PrivateKey) :
    Filed (s.challenge issuer networkId permission now draws).1 := by
  rcases challenge_cases hT s issuer networkId permission now draws with
    hsame | hpruned | ⟨_, id, der, key, hfree, hder, hid, hkey | ⟨d, rfl, _, hdescribed⟩⟩
  · rw [hsame]
    exact hs
  · rw [hpruned]
    exact filed_prune hs now
  · rw [hkey]
    have hpruned := filed_prune hs now
    exact ⟨hpruned.scope, Slots.Safe.abandon (claimed_insert hpruned hfree hid hder) (Set.empty_subset _)⟩
  · rw [hdescribed]
    exact filed_insert (filed_prune hs now) hfree hid hder

/-! ### Sizes and policies -/

theorem dropScopes_fields : ∀ (entries : List (AuthorizationScope × Bytes))
    (s : AnonymousIssuer T.toIssuerPrimitives),
      size (entries.foldl dropScope s).descriptors ≤ size s.descriptors ∧
        (entries.foldl dropScope s).issuance = s.issuance ∧
        (entries.foldl dropScope s).policy = s.policy := by
  intro entries
  induction entries with
  | nil => intro s; exact ⟨le_refl _, rfl, rfl⟩
  | cons e entries ih =>
    intro s
    obtain ⟨hsize, hissuance, hpolicy⟩ := ih (s.dropScope e)
    obtain ⟨hdescriptors, hissuance', hpolicy'⟩ := dropKey_descriptors s e.2
    rw [List.foldl_cons]
    refine ⟨hsize.trans ?_, hissuance.trans hissuance', hpolicy.trans hpolicy'⟩
    show size ((s.dropKey e.2).descriptors.erase e.1) ≤ _
    rw [hdescriptors]
    exact size_erase_le _ _

theorem prune_fields (s : AnonymousIssuer T.toIssuerPrimitives) (now : ℕ) :
    size (s.prune now).descriptors ≤ size s.descriptors ∧ (s.prune now).policy = s.policy := by
  obtain ⟨hsize, _, hpolicy⟩ := dropScopes_fields (expired s.descriptors now) s
  obtain ⟨_, hdescriptors, hpolicy'⟩ :=
    dropCounts_fields ((expired s.descriptors now).foldl dropScope s) now
  refine ⟨?_, hpolicy'.trans hpolicy⟩
  rw [AnonymousIssuer.prune, hdescriptors]
  exact hsize

theorem size_insert_le {κ ν : Type*} [DecidableEq κ] (m : Map κ ν) (k : κ) (v : ν) :
    size (m.insert k v) ≤ size m + 1 := by
  cases hlookup : m.lookup k with
  | none => exact (size_insert_of_none v hlookup).le
  | some w => exact (size_insert_of_some v hlookup).le.trans (Nat.le_succ _)

/-- What every call keeps: the policy, the filing of the keys, and the bound on the descriptors. -/
structure Kept (policy : CredentialPolicy) (s : AnonymousIssuer T.toIssuerPrimitives) : Prop where
  same : s.policy = policy
  filed : Filed s
  bound : size s.descriptors ≤ policy.maxActiveScopeKeys

theorem kept_prune (h : Kept policy s) (now : ℕ) : Kept policy (s.prune now) := by
  obtain ⟨hsize, hpolicy⟩ := prune_fields s now
  exact ⟨hpolicy.trans h.same, filed_prune h.filed now, hsize.trans h.bound⟩

theorem issue_fields (s : AnonymousIssuer T.toIssuerPrimitives) (m : Membership)
    (trusted revoked : Finset NodeId) (request : BlindCredentialRequest) (now : ℕ) :
    (s.issue P m trusted revoked request now).1.keys = s.keys ∧
      (s.issue P m trusted revoked request now).1.descriptors = s.descriptors ∧
      (s.issue P m trusted revoked request now).1.policy = s.policy := by
  rcases issue_cases (P := P) s m trusted revoked request now with
    ⟨_, _, hissue⟩ | ⟨_, _, ⟨_, hissue⟩ | ⟨_, hissue⟩⟩
  all_goals
    rw [hissue]
    exact ⟨rfl, rfl, rfl⟩

theorem kept_step (hT : T.Lawful) (h : Kept policy s) (call : IssuerCall T P) :
    Kept policy (issuerStep s call).1 := by
  cases call with
  | challenge issuer networkId permission now draws =>
    have hpruned := kept_prune h now
    have hfiled := filed_challenge hT h.filed issuer networkId permission now draws
    show Kept policy (s.challenge issuer networkId permission now draws).1
    rcases challenge_cases hT s issuer networkId permission now draws with
      hsame | hprune | ⟨hroom, id, der, key, hfree, hder, hid, hkey | ⟨d, rfl, _, hdescribed⟩⟩
    · rw [hsame]
      exact h
    · rw [hprune]
      exact hpruned
    · refine ⟨?_, hfiled, ?_⟩
      · rw [hkey]
        exact hpruned.same
      · rw [hkey]
        exact hpruned.bound
    · refine ⟨?_, hfiled, ?_⟩
      · rw [hdescribed]
        exact hpruned.same
      · rw [hdescribed]
        rw [hpruned.same] at hroom
        exact (size_insert_le _ _ _).trans hroom
  | issue m trusted revoked request now =>
    obtain ⟨hkeys, hdescriptors, hpolicy⟩ := issue_fields (P := P) s m trusted revoked request now
    refine ⟨hpolicy.trans h.same, h.filed.congr hkeys hdescriptors, ?_⟩
    show size (s.issue P m trusted revoked request now).1.descriptors ≤ _
    rw [hdescriptors]
    exact h.bound
  | prune now => exact kept_prune h now

theorem kept_after (hT : T.Lawful) :
    ∀ (calls : List (IssuerCall T P)) (s : AnonymousIssuer T.toIssuerPrimitives), Kept policy s →
      Kept policy (Mealy.after issuerStep s calls) :=
  Mealy.after_invariant fun _ call h => kept_step hT h call

theorem new_ok (h : AnonymousIssuer.new policy = .ok s) : s = ⟨policy, ∅, ∅, ∅⟩ := by
  unfold AnonymousIssuer.new CredentialPolicy.validate at h
  split at h
  · cases h
  · rename_i policy' hvalid
    split at hvalid
    · cases hvalid
    · rw [← Except.ok.inj h, Except.ok.inj hvalid]

theorem kept_new (h : AnonymousIssuer.new policy = .ok s) : Kept policy s := by
  obtain rfl := new_ok h
  refine ⟨rfl, ⟨?_, Slots.safe_empty⟩, Nat.zero_le _⟩
  intro scope d hd
  cases hd

/-! ### Counters -/

/-- The counter of a member in an epoch. -/
def AnonymousIssuer.issuedIn (s : AnonymousIssuer T.toIssuerPrimitives) (member : NodeId) (epoch : ℕ) :
    ℕ := (s.issuance.lookup (member, epoch)).getD 0

/-- The counters of epochs that are not over stay; the others may go. -/
theorem dropCounts_issuedIn (s : AnonymousIssuer T.toIssuerPrimitives) (now : ℕ) (member : NodeId)
    (epoch : ℕ) :
    (s.dropCounts now).issuedIn member epoch ≤ s.issuedIn member epoch ∧
      (now / s.policy.epochSeconds ≤ epoch →
        (s.dropCounts now).issuedIn member epoch = s.issuedIn member epoch) := by
  unfold dropCounts
  split
  · exact ⟨le_refl _, fun _ => rfl⟩
  · rename_i current expiresAt hepoch
    obtain ⟨_, rfl, _⟩ := CredentialPolicy.epoch_ok hepoch
    unfold issuedIn
    rw [lookup_retain]
    cases s.issuance.lookup (member, epoch) with
    | none => simp
    | some count =>
      by_cases hlive : now / s.policy.epochSeconds ≤ epoch
      · rw [Option.filter_some_pos (by simpa using hlive)]
        exact ⟨le_refl _, fun _ => rfl⟩
      · rw [Option.filter_some_neg (by simpa using hlive)]
        exact ⟨Nat.zero_le _, fun h => absurd h hlive⟩

theorem prune_issuedIn (s : AnonymousIssuer T.toIssuerPrimitives) (now : ℕ) (member : NodeId)
    (epoch : ℕ) :
    (s.prune now).issuedIn member epoch ≤ s.issuedIn member epoch ∧
      (now / s.policy.epochSeconds ≤ epoch →
        (s.prune now).issuedIn member epoch = s.issuedIn member epoch) := by
  obtain ⟨_, hissuance, hpolicy⟩ := dropScopes_fields (expired s.descriptors now) s
  have hcounts := dropCounts_issuedIn ((expired s.descriptors now).foldl dropScope s) now member epoch
  rw [hpolicy] at hcounts
  have hsame : ((expired s.descriptors now).foldl dropScope s).issuedIn member epoch =
      s.issuedIn member epoch := by
    unfold issuedIn
    rw [hissuance]
  rw [hsame] at hcounts
  exact hcounts

theorem challenge_issuedIn (hT : T.Lawful) (s : AnonymousIssuer T.toIssuerPrimitives)
    (issuer : NodeIdentity P) (networkId permission : String) (now : ℕ)
    (draws : ℕ → Option T.PrivateKey) (member : NodeId) (epoch : ℕ) :
    (s.challenge issuer networkId permission now draws).1.issuedIn member epoch ≤
        s.issuedIn member epoch ∧
      (now / s.policy.epochSeconds ≤ epoch →
        (s.challenge issuer networkId permission now draws).1.issuedIn member epoch =
          s.issuedIn member epoch) := by
  rcases challenge_cases hT s issuer networkId permission now draws with
    hsame | hpruned | ⟨_, id, der, key, _, _, _, hkey | ⟨d, _, _, hdescribed⟩⟩
  · rw [hsame]
    exact ⟨le_refl _, fun _ => rfl⟩
  · rw [hpruned]
    exact prune_issuedIn s now member epoch
  · rw [hkey]
    exact prune_issuedIn s now member epoch
  · rw [hdescribed]
    exact prune_issuedIn s now member epoch

theorem recount_issuedIn (s : AnonymousIssuer T.toIssuerPrimitives) (member member' : NodeId)
    (epoch epoch' count : ℕ) :
    (s.recount member' epoch' count).issuedIn member epoch =
      if (member, epoch) = (member', epoch') then count
      else if epoch' ≤ epoch then s.issuedIn member epoch else 0 :=
  recount_lookup s member' epoch' count (member, epoch)

/-- No counter exceeds the limit of the policy. -/
def WithinLimit (policy : CredentialPolicy) (s : AnonymousIssuer T.toIssuerPrimitives) : Prop :=
  ∀ member epoch, s.issuedIn member epoch ≤ policy.maxIssuesPerMemberEpoch

theorem withinLimit_recount (h : WithinLimit policy s) {member : NodeId} {epoch count : ℕ}
    (hcount : count ≤ policy.maxIssuesPerMemberEpoch) :
    WithinLimit policy (s.recount member epoch count) := by
  intro member' epoch'
  rw [recount_issuedIn]
  split
  · exact hcount
  · split
    · exact h member' epoch'
    · exact Nat.zero_le _

theorem withinLimit_step (hT : T.Lawful) (hkept : Kept policy s) (h : WithinLimit policy s)
    (call : IssuerCall T P) : WithinLimit policy (issuerStep s call).1 := by
  cases call with
  | challenge issuer networkId permission now draws =>
    intro member epoch
    exact (challenge_issuedIn hT s issuer networkId permission now draws member epoch).1.trans
      (h member epoch)
  | issue m trusted revoked request now =>
    show WithinLimit policy (s.issue P m trusted revoked request now).1
    rcases issue_cases (P := P) s m trusted revoked request now with
      ⟨_, _, hissue⟩ | ⟨_, _, ⟨_, hissue⟩ | ⟨hroom, hissue⟩⟩
    · rw [hissue]
      exact h
    · rw [hissue]
      exact withinLimit_recount h (h m.member _)
    · rw [hissue]
      rw [hkept.same] at hroom
      exact withinLimit_recount h hroom
  | prune now =>
    intro member epoch
    exact (prune_issuedIn s now member epoch).1.trans (h member epoch)

/-- **A call that is not late charges what it grants.** -/
theorem charged_step (hT : T.Lawful) (hkept : Kept policy s) (call : IssuerCall T P) {member : NodeId}
    {epoch : ℕ} (hlate : ¬epoch < call.now / policy.epochSeconds) :
    s.issuedIn member epoch + (if granted policy member epoch (call, (issuerStep s call).2) then 1 else 0) ≤
      (issuerStep s call).1.issuedIn member epoch := by
  have hcurrent : call.now / s.policy.epochSeconds ≤ epoch := by
    rw [hkept.same]
    exact not_lt.mp hlate
  cases call with
  | challenge issuer networkId permission now draws =>
    exact ((challenge_issuedIn hT s issuer networkId permission now draws member epoch).2 hcurrent).ge
  | prune now => exact ((prune_issuedIn s now member epoch).2 hcurrent).ge
  | issue m trusted revoked request now =>
    have hpolicy := hkept.same
    show s.issuedIn member epoch + (if granted policy member epoch
        (.issue m trusted revoked request now, .issued (s.issue P m trusted revoked request now).2)
          then 1 else 0) ≤ (s.issue P m trusted revoked request now).1.issuedIn member epoch
    replace hcurrent : now / s.policy.epochSeconds ≤ epoch := hcurrent
    rcases issue_cases (P := P) s m trusted revoked request now with
      ⟨_, _, hissue⟩ | ⟨_, _, ⟨_, hissue⟩ | ⟨_, hissue⟩⟩
    · rw [hissue]
      exact le_refl _
    · rw [hissue, recount_issuedIn]
      show s.issuedIn member epoch + 0 ≤ _
      by_cases hkey : (member, epoch) = (m.member, now / s.policy.epochSeconds)
      · rw [if_pos hkey]
        obtain ⟨rfl, rfl⟩ := Prod.mk.inj hkey
        exact le_refl _
      · rw [if_neg hkey, if_pos hcurrent]
        exact le_refl _
    · rw [hissue, recount_issuedIn]
      dsimp only
      by_cases hkey : (member, epoch) = (m.member, now / s.policy.epochSeconds)
      · rw [if_pos hkey]
        obtain ⟨rfl, rfl⟩ := Prod.mk.inj hkey
        show s.issuedIn m.member _ + _ ≤ s.issuedIn m.member _ + 1
        split <;> omega
      · rw [if_neg hkey, if_pos hcurrent]
        rw [if_neg]
        · exact le_refl _
        · intro hgranted
          obtain ⟨hepoch, hmember⟩ := granted_true hgranted
          apply hkey
          rw [hmember m trusted revoked request now rfl, hpolicy, ← hepoch]
          rfl

/-! ### Runs -/

/-- **Whose key signs**: a response is the private operation with the key of the scope's descriptor, on a
scope of the current epoch. -/
theorem issue_key (hkept : Kept policy s) {m : Membership} {trusted revoked : Finset NodeId}
    {request : BlindCredentialRequest} {now : ℕ} {response : Bytes}
    (h : (s.issue P m trusted revoked request now).2 = .ok response) :
    ∃ d key, s.descriptors.lookup request.scope = some d ∧ d.scope = request.scope ∧
      policy.epoch now = .ok (d.scope.epoch, d.scope.expiresAt) ∧ publicDer key = some d.publicKey ∧
      T.privateDecrypt key (request.request.drop 3) = some response := by
  rcases issue_cases (P := P) s m trusted revoked request now with
    ⟨_, _, hissue⟩ | ⟨truncated, hchecked, ⟨_, hissue⟩ | ⟨_, hissue⟩⟩
  · rw [hissue] at h
    cases h
  · rw [hissue] at h
    cases h
  · rw [hissue] at h
    obtain ⟨hepoch, hscope, _, d, hd, htruncated⟩ := envelope_ok (checked_ok hchecked)
    obtain ⟨id, key, hid, hkey, hder⟩ := Slots.Safe.owned hkept.filed.matched hd (Set.notMem_empty _)
    obtain rfl := Option.some.inj (htruncated.symm.trans hid)
    have hown := hkept.filed.scope request.scope d hd
    refine ⟨d, key, hd, hown, ?_, hder, ?_⟩
    · rw [hown, hscope, ← hkept.same]
      exact hepoch
    · have hsign : s.blindSign truncated (request.request.drop 3) = .ok response := h
      unfold AnonymousIssuer.blindSign at hsign
      rw [hkey] at hsign
      dsimp only at hsign
      split at hsign
      · cases hsign
      · rename_i signed hdecrypt
        split at hsign
        · cases hsign
        · rw [hdecrypt, Except.ok.inj hsign]

/-- **Bounds of an issuer.**  Whatever is called, in whatever order, under a clock that does not go back:
a member is granted at most the policy's number of issuances in an epoch, no more descriptors are stored
than the policy allows, and every response comes from the key of the scope it was asked for. -/
theorem issuance_bounded (hT : T.Lawful) {policy : CredentialPolicy}
    {s₀ : AnonymousIssuer T.toIssuerPrimitives} (hnew : AnonymousIssuer.new policy = .ok s₀)
    (calls : List (IssuerCall T P)) (hclock : (calls.map IssuerCall.now).Pairwise (· ≤ ·)) :
    (∀ member epoch, (Mealy.trace issuerStep s₀ calls).countP (granted policy member epoch) ≤
      policy.maxIssuesPerMemberEpoch) ∧
    size (Mealy.after issuerStep s₀ calls).descriptors ≤ policy.maxActiveScopeKeys ∧
    ∀ m trusted revoked request now response before later,
      calls = before ++ .issue m trusted revoked request now :: later →
      ((Mealy.after issuerStep s₀ before).issue P m trusted revoked request now).2 = .ok response →
      ∃ d key, (Mealy.after issuerStep s₀ before).descriptors.lookup request.scope = some d ∧
        d.scope = request.scope ∧ policy.epoch now = .ok (d.scope.epoch, d.scope.expiresAt) ∧
        publicDer key = some d.publicKey ∧
        T.privateDecrypt key (request.request.drop 3) = some response := by
  have hkept : Kept policy s₀ := kept_new hnew
  refine ⟨fun member epoch => ?_, (kept_after hT calls s₀ hkept).bound, ?_⟩
  · have hlimit : WithinLimit policy s₀ := by
      intro member' epoch'
      rw [new_ok hnew]
      exact Nat.zero_le _
    -- late: a later epoch has begun, and the clock does not go back
    have hsorted : calls.Pairwise fun a b =>
        epoch < a.now / policy.epochSeconds → epoch < b.now / policy.epochSeconds := by
      refine (List.pairwise_map.mp hclock).imp fun hle hlate => ?_
      exact lt_of_lt_of_le hlate (Nat.div_le_div_right hle)
    have hbudget := Mealy.countP_trace_le (granted policy member epoch)
      (fun s => s.issuedIn member epoch) (fun call => epoch < call.now / policy.epochSeconds)
      (I := fun s => Kept policy s ∧ WithinLimit policy s)
      (fun s a h => ⟨kept_step hT h.1 a, withinLimit_step hT h.1 h.2 a⟩)
      (fun s h => h.2 member epoch)
      (fun s a h hnot => charged_step hT h.1 a hnot)
      (fun s a hlate => Bool.eq_false_iff.mpr fun h => absurd (granted_true h).1 (ne_of_gt hlate))
      calls s₀ ⟨hkept, hlimit⟩ hsorted
    omega
  · intro m trusted revoked request now response before later _ hok
    exact issue_key (kept_after hT before s₀ hkept) hok

/-! ### A sample run -/

open Sample

def onePolicy : CredentialPolicy := ⟨300, 1, 4, 8⟩

def emptyIssuer : AnonymousIssuer sampleKeys.toIssuerPrimitives := ⟨onePolicy, ∅, ∅, ∅⟩

/-- A challenge, two requests of one member, and a `prune` in the next epoch. -/
def twoRequests : List (IssuerCall sampleKeys primitives) :=
  [.challenge (identity [1]) "net" "storage" 5 fun _ => some (6 : UInt8),
    .issue (storageCertificate ["storage"]) {member [1]} ∅ (uniformRequest 1) 6,
    .issue (storageCertificate ["storage"]) {member [1]} ∅ (uniformRequest 2) 7, .prune 300]

/-- Of two requests in an epoch with an allowance of one, one is granted. -/
theorem twoRequests_one_granted :
    AnonymousIssuer.new onePolicy = .ok emptyIssuer ∧
    (twoRequests.map IssuerCall.now).Pairwise (· ≤ ·) ∧
    (Mealy.trace issuerStep emptyIssuer twoRequests).countP (granted onePolicy (member [2]) 0) = 1 ∧
    ∀ m epoch, (Mealy.trace issuerStep emptyIssuer twoRequests).countP (granted onePolicy m epoch) ≤ 1 := by
  have hnew : (AnonymousIssuer.new onePolicy : Except _ (AnonymousIssuer sampleKeys.toIssuerPrimitives)) =
      .ok emptyIssuer := rfl
  have hclock : (twoRequests.map IssuerCall.now).Pairwise (· ≤ ·) := by
    show [5, 6, 7, 300].Pairwise (· ≤ ·)
    decide
  refine ⟨hnew, hclock, by decide +kernel, ?_⟩
  exact (issuance_bounded sampleKeys_lawful hnew twoRequests hclock).1

end Peerless.Auth
