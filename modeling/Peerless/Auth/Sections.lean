import Peerless.Auth.Charged
import Peerless.Lib.Threads

/-!
# Concurrent calls of an issuer

`challenge`, `issue` and `prune` run concurrently on one `AnonymousIssuer`.  Each of its maps has a lock
of its own, held for one statement at a time, so a call is a sequence of short sections with steps of
other calls between them.  The calls of `challenge` follow each other by the lock `key_generation`;
`prune` may run at any moment, by itself or as the first part of `challenge`.
-/

namespace Peerless.Auth

open Text HashMap Peerless.Core Identity Chain AnonymousIssuer

variable {T : GeneratorPrimitives} {P : Primitives}

/-! ### `prune` -/

/-- A running `prune`: before it collects, about to remove the key or the descriptor of an entry, or
about to drop counters. -/
inductive Sweep where
  | collect
  | key (entry : AuthorizationScope × Bytes) (rest : List (AuthorizationScope × Bytes))
  | descriptor (entry : AuthorizationScope × Bytes) (rest : List (AuthorizationScope × Bytes))
  | counts

def Sweep.over : List (AuthorizationScope × Bytes) → Sweep
  | [] => .counts
  | entry :: rest => .key entry rest

/-- The collected entries that are not wholly removed. -/
def Sweep.pending : Sweep → List (AuthorizationScope × Bytes)
  | .collect => []
  | .key entry rest => entry :: rest
  | .descriptor entry rest => entry :: rest
  | .counts => []

/-- One section of `prune`; `none` when it returns. -/
def Sweep.next (now : ℕ) (s : AnonymousIssuer T.toIssuerPrimitives) :
    Sweep → AnonymousIssuer T.toIssuerPrimitives × Option Sweep
  | .collect => (s, some (.over (expired s.descriptors now)))
  | .key entry rest => (s.dropKey entry.2, some (.descriptor entry rest))
  | .descriptor entry rest => (s.dropDescriptor entry.1, some (.over rest))
  | .counts => (s.dropCounts now, none)

/-! ### `challenge` -/

structure ChallengeCall (P : Primitives) where
  issuer : NodeIdentity P
  networkId : String
  permission : String

/-- `challenge` under `key_generation`. -/
inductive Phase where
  | sweeping (sweep : Sweep)
  | searching
  | measuring (epoch expiresAt : ℕ)
  | generating (epoch expiresAt left : ℕ)
  | describing (epoch expiresAt : ℕ) (publicKeyDer : Bytes)
  | releasing (result : Except AnonymousAuthError AnonymousChallenge)

/-- One section of `challenge`; `generated` is what `Rsa::generate` returns if it is called. -/
def Phase.next (generated : Option T.PrivateKey) (c : ChallengeCall P) (now : ℕ)
    (s : AnonymousIssuer T.toIssuerPrimitives) : Phase → AnonymousIssuer T.toIssuerPrimitives × Phase
  | .sweeping sweep =>
    match sweep.next now s with
    | (s', some sweep') => (s', .sweeping sweep')
    | (s', none) => (s', .searching)
  | .searching =>
    match s.policy.epoch now with
    | .error err => (s, .releasing (.error err))
    | .ok (epoch, expiresAt) =>
      match s.existing c.networkId c.permission epoch expiresAt with
      | some d => (s, .releasing (.ok d.asChallenge))
      | none => (s, .measuring epoch expiresAt)
  | .measuring epoch expiresAt =>
    if size s.descriptors ≥ s.policy.maxActiveScopeKeys then (s, .releasing (.error .keyLimit))
    else (s, .generating epoch expiresAt 100)
  | .generating _ _ 0 => (s, .releasing (.error .keyLimit))
  | .generating epoch expiresAt (left + 1) =>
    match draw generated with
    | .error err => (s, .releasing (.error err))
    | .ok (truncated, der, privateKey) =>
      match s.insertKey truncated privateKey with
      | (s', true) => (s', .describing epoch expiresAt der)
      | (s', false) => (s', .generating epoch expiresAt left)
  | .describing epoch expiresAt der =>
    match describe c.issuer c.networkId c.permission epoch expiresAt der with
    | .error err => (s, .releasing (.error err))
    | .ok d =>
      ({ s with descriptors := s.descriptors.insert d.scope d }, .releasing (.ok d.asChallenge))
  | .releasing result => (s, .releasing result)

/-! ### Calls -/

structure IssueCall where
  membership : Membership
  trustedIssuers : Finset NodeId
  revokedMembers : Finset NodeId
  request : BlindCredentialRequest

inductive IssuerRequest (P : Primitives) where
  | challenge (c : ChallengeCall P)
  | issue (c : IssueCall)
  | prune

inductive IssuerPoint (P : Primitives) where
  | arrived (request : IssuerRequest P)
  | pruning (now : ℕ) (sweep : Sweep)
  | pruned
  | waiting (c : ChallengeCall P) (now : ℕ)
  | inside (c : ChallengeCall P) (now : ℕ) (phase : Phase)
  | challenged (result : Except AnonymousAuthError AnonymousChallenge)
  | checking (c : IssueCall) (now : ℕ)
  | charging (c : IssueCall) (now : ℕ) (truncated : UInt8)
  | signing (c : IssueCall) (now : ℕ) (truncated : UInt8)
  | issued (c : IssueCall) (result : Except AnonymousAuthError Bytes)

/-- The issuer, the lock `key_generation`, and the latest reading of the clock. -/
structure IssuerShared (T : GeneratorPrimitives) where
  issuer : AnonymousIssuer T.toIssuerPrimitives
  locked : Bool
  clock : ℕ

/-- What a section may meet: the clock and a generated key. -/
structure IssuerEnv (T : GeneratorPrimitives) where
  time : ℕ
  generated : Option T.PrivateKey

/-- The start of a call, with its reading of the clock. -/
def IssuerRequest.begin (now : ℕ) : IssuerRequest P → IssuerPoint P
  | .challenge c =>
    match validatePublicClass c.networkId c.permission with
    | .error err => .challenged (.error err)
    | .ok () => .waiting c now
  | .issue c => .checking c now
  | .prune => .pruning now .collect

/-- One section of a call.  The checks of `issue` that read nothing but their arguments go with the
section that reads the descriptor. -/
def IssuerPoint.next (env : IssuerEnv T) (s : IssuerShared T) :
    IssuerPoint P → Option (IssuerShared T × IssuerPoint P)
  | .arrived request =>
    if env.time < s.clock then none else some ({ s with clock := env.time }, request.begin env.time)
  | .pruning now sweep =>
    match sweep.next now s.issuer with
    | (issuer, some sweep') => some ({ s with issuer }, .pruning now sweep')
    | (issuer, none) => some ({ s with issuer }, .pruned)
  | .waiting c now =>
    if s.locked then none else some ({ s with locked := true }, .inside c now (.sweeping .collect))
  | .inside _ _ (.releasing result) => some ({ s with locked := false }, .challenged result)
  | .inside c now phase =>
    some ({ s with issuer := (phase.next env.generated c now s.issuer).1 },
      .inside c now (phase.next env.generated c now s.issuer).2)
  | .checking c now =>
    match s.issuer.checked P c.membership c.trustedIssuers c.revokedMembers c.request now with
    | .error err => some (s, .issued c (.error err))
    | .ok (_, truncated) => some (s, .charging c now truncated)
  | .charging c now truncated =>
    match s.issuer.countIssue c.membership.member (now / s.issuer.policy.epochSeconds) with
    | (issuer, .error err) => some ({ s with issuer }, .issued c (.error err))
    | (issuer, .ok ()) => some ({ s with issuer }, .signing c now truncated)
  | .signing c _ truncated =>
    some (s, .issued c (s.issuer.blindSign truncated (c.request.request.drop 3)))
  | .pruned => none
  | .challenged _ => none
  | .issued _ _ => none

abbrev IssuerPool (T : GeneratorPrimitives) (P : Primitives) :=
  Threads.Pool (IssuerShared T) (IssuerPoint P)

abbrev IssuerAct (T : GeneratorPrimitives) (P : Primitives) :=
  Threads.Act (IssuerRequest P) (IssuerEnv T)

def issuerPoolStep : IssuerPool T P → IssuerAct T P → Option (IssuerPool T P) :=
  Threads.step IssuerPoint.arrived IssuerPoint.next

/-! ### What a section can do -/

/-- The entries a phase has collected and not wholly removed. -/
def Phase.pending : Phase → List (AuthorizationScope × Bytes)
  | .sweeping sweep => sweep.pending
  | _ => []

/-- One section under `key_generation`, by its outcome: the sections that end the search with a result
leave the issuer as it is. -/
inductive Phase.Moves (generated : Option T.PrivateKey) (c : ChallengeCall P) (now : ℕ)
    (s : AnonymousIssuer T.toIssuerPrimitives) :
    Phase → AnonymousIssuer T.toIssuerPrimitives → Phase → Prop where
  | sweeps {sweep sweep' : Sweep} (h : (sweep.next now s).2 = some sweep') :
      Moves generated c now s (.sweeping sweep) (sweep.next now s).1 (.sweeping sweep')
  | swept {sweep : Sweep} (h : (sweep.next now s).2 = none) :
      Moves generated c now s (.sweeping sweep) (sweep.next now s).1 .searching
  | settles {phase : Phase} {result : Except AnonymousAuthError AnonymousChallenge}
      (h : phase.pending = []) : Moves generated c now s phase s (.releasing result)
  | misses {epoch expiresAt : ℕ} (h : s.existing c.networkId c.permission epoch expiresAt = none) :
      Moves generated c now s .searching s (.measuring epoch expiresAt)
  | measures {epoch expiresAt : ℕ} :
      Moves generated c now s (.measuring epoch expiresAt) s (.generating epoch expiresAt 100)
  | collides {epoch expiresAt left : ℕ} :
      Moves generated c now s (.generating epoch expiresAt (left + 1)) s (.generating epoch expiresAt left)
  | files {epoch expiresAt left : ℕ} {id : UInt8} {der : Bytes} {key : T.PrivateKey}
      (hdraw : draw generated = .ok (id, der, key)) (hfree : s.keys.lookup id = none) :
      Moves generated c now s (.generating epoch expiresAt (left + 1))
        { s with keys := s.keys.insert id key } (.describing epoch expiresAt der)
  | describes {epoch expiresAt : ℕ} {der : Bytes} {d : ScopeKeyDescriptor}
      (h : describe c.issuer c.networkId c.permission epoch expiresAt der = .ok d) :
      Moves generated c now s (.describing epoch expiresAt der)
        { s with descriptors := s.descriptors.insert d.scope d } (.releasing (.ok d.asChallenge))

theorem Phase.next_moves (generated : Option T.PrivateKey) (c : ChallengeCall P) (now : ℕ)
    (s : AnonymousIssuer T.toIssuerPrimitives) (phase : Phase) :
    phase.Moves generated c now s (phase.next generated c now s).1 (phase.next generated c now s).2 := by
  cases phase with
  | sweeping sweep =>
    cases hnext : (sweep.next now s).2 with
    | none =>
      have heq : sweep.next now s = ((sweep.next now s).1, none) := Prod.ext rfl hnext
      rw [Phase.next, heq]
      exact .swept hnext
    | some sweep' =>
      have heq : sweep.next now s = ((sweep.next now s).1, some sweep') := Prod.ext rfl hnext
      rw [Phase.next, heq]
      exact .sweeps hnext
  | searching =>
    rw [Phase.next]
    split
    · exact .settles rfl
    · split
      · exact .settles rfl
      · exact .misses ‹_›
  | measuring epoch expiresAt =>
    rw [Phase.next]
    split
    · exact .settles rfl
    · exact .measures
  | generating epoch expiresAt left =>
    cases left with
    | zero => exact .settles rfl
    | succ left =>
      rw [Phase.next]
      split
      · exact .settles rfl
      · rename_i id der key hdraw
        rcases insertKey_cases s id key with ⟨_, hinsert⟩ | ⟨hfree, hinsert⟩
        · rw [hinsert]
          exact .collides
        · rw [hinsert]
          exact .files hdraw hfree
  | describing epoch expiresAt der =>
    rw [Phase.next]
    split
    · exact .settles rfl
    · exact .describes ‹_›
  | releasing result => exact .settles rfl

/-- One section of a call, by its outcome. -/
inductive IssuerPoint.Moves (env : IssuerEnv T) (s : IssuerShared T) :
    IssuerPoint P → IssuerShared T → IssuerPoint P → Prop where
  | begins (request : IssuerRequest P) (hclock : s.clock ≤ env.time) :
      Moves env s (.arrived request) { s with clock := env.time } (request.begin env.time)
  | sweeps {now : ℕ} {sweep sweep' : Sweep} (h : (sweep.next now s.issuer).2 = some sweep') :
      Moves env s (.pruning now sweep) { s with issuer := (sweep.next now s.issuer).1 }
        (.pruning now sweep')
  | swept {now : ℕ} {sweep : Sweep} (h : (sweep.next now s.issuer).2 = none) :
      Moves env s (.pruning now sweep) { s with issuer := (sweep.next now s.issuer).1 } .pruned
  | enters {c : ChallengeCall P} {now : ℕ} (hfree : s.locked = false) :
      Moves env s (.waiting c now) { s with locked := true } (.inside c now (.sweeping .collect))
  | works {c : ChallengeCall P} {now : ℕ} {phase phase' : Phase}
      {issuer : AnonymousIssuer T.toIssuerPrimitives}
      (h : phase.Moves env.generated c now s.issuer issuer phase') :
      Moves env s (.inside c now phase) { s with issuer } (.inside c now phase')
  | leaves {c : ChallengeCall P} {now : ℕ} {result : Except AnonymousAuthError AnonymousChallenge} :
      Moves env s (.inside c now (.releasing result)) { s with locked := false } (.challenged result)
  | refuses {c : IssueCall} {now : ℕ} {err : AnonymousAuthError} :
      Moves env s (.checking c now) s (.issued c (.error err))
  | checks {c : IssueCall} {now epoch : ℕ} {truncated : UInt8}
      (h : s.issuer.checked P c.membership c.trustedIssuers c.revokedMembers c.request now =
        .ok (epoch, truncated)) : Moves env s (.checking c now) s (.charging c now truncated)
  | charges {c : IssueCall} {now : ℕ} {truncated : UInt8} {t : IssuerPoint P}
      {issuer : AnonymousIssuer T.toIssuerPrimitives}
      (hcount : (s.issuer.countIssue c.membership.member (now / s.issuer.policy.epochSeconds)).1 = issuer)
      (h : (∃ err, t = .issued c (.error err)) ∨ t = .signing c now truncated) :
      Moves env s (.charging c now truncated) { s with issuer } t
  | signs {c : IssueCall} {now : ℕ} {truncated : UInt8} {result : Except AnonymousAuthError Bytes} :
      Moves env s (.signing c now truncated) s (.issued c result)

theorem IssuerPoint.next_moves {env : IssuerEnv T} {s s' : IssuerShared T} {t t' : IssuerPoint P}
    (h : t.next env s = some (s', t')) : t.Moves env s s' t' := by
  cases t with
  | arrived request =>
    rw [IssuerPoint.next] at h
    split at h
    · cases h
    · rename_i hclock
      cases h
      exact .begins request (not_lt.mp hclock)
  | pruning now sweep =>
    cases hnext : (sweep.next now s.issuer).2 with
    | none =>
      have heq : sweep.next now s.issuer = ((sweep.next now s.issuer).1, none) := Prod.ext rfl hnext
      rw [IssuerPoint.next, heq] at h
      cases h
      exact .swept hnext
    | some sweep' =>
      have heq : sweep.next now s.issuer = ((sweep.next now s.issuer).1, some sweep') :=
        Prod.ext rfl hnext
      rw [IssuerPoint.next, heq] at h
      cases h
      exact .sweeps hnext
  | waiting c now =>
    rw [IssuerPoint.next] at h
    split at h
    · cases h
    · rename_i hfree
      cases h
      exact .enters (Bool.eq_false_iff.mpr hfree)
  | inside c now phase =>
    cases phase with
    | releasing result =>
      cases h
      exact .leaves
    | _ =>
      cases h
      exact .works (Phase.next_moves env.generated c now s.issuer _)
  | checking c now =>
    rw [IssuerPoint.next] at h
    split at h
    · cases h
      exact .refuses
    · rename_i hchecked
      cases h
      exact .checks hchecked
  | charging c now truncated =>
    rw [IssuerPoint.next] at h
    split at h
    · rename_i issuer err hcount
      cases h
      exact .charges (congrArg Prod.fst hcount) (Or.inl ⟨err, rfl⟩)
    · rename_i issuer hcount
      cases h
      exact .charges (congrArg Prod.fst hcount) (Or.inr rfl)
  | signing c now truncated =>
    cases h
    exact .signs
  | pruned => cases h
  | challenged result => cases h
  | issued c result => cases h

end Peerless.Auth
