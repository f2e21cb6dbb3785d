import Peerless.Auth.Issuance
import Peerless.Auth.Sections

/-!
# What the concurrent calls of an issuer know

Between two sections of a call other calls move.  What a call found out stays true: a section leaves the
descriptors as they are, removes an expired one, or, under `key_generation`, adds one of a scope that
was not stored.
-/

namespace Peerless.Auth

open Text HashMap Threads Peerless.Core Identity Chain AnonymousIssuer

variable {T : GeneratorPrimitives} {P : Primitives}

/-! ### What the calls hold -/

/-- The epoch and expiry a challenge has found no descriptor for. -/
def Phase.period : Phase → Option (ℕ × ℕ)
  | .measuring epoch expiresAt => some (epoch, expiresAt)
  | .generating epoch expiresAt _ => some (epoch, expiresAt)
  | .describing epoch expiresAt _ => some (epoch, expiresAt)
  | _ => none

/-- The entries a call has collected and not wholly removed. -/
def IssuerPoint.pending : IssuerPoint P → List (AuthorizationScope × Bytes)
  | .pruning _ sweep => sweep.pending
  | .inside _ _ phase => phase.pending
  | _ => []

/-- The key a call has filed and not yet described. -/
def IssuerPoint.claimed : IssuerPoint P → List Bytes
  | .inside _ _ (.describing _ _ der) => [der]
  | _ => []

/-- The call is under `key_generation`. -/
def IssuerPoint.isInside : IssuerPoint P → Bool
  | .inside _ _ _ => true
  | _ => false

/-- No stored descriptor is of this permission and period. -/
def Unserved (s : AnonymousIssuer T.toIssuerPrimitives) (c : ChallengeCall P) (epoch expiresAt : ℕ) :
    Prop :=
  ∀ scope d, s.descriptors.lookup scope = some d →
    ¬(d.scope.networkId = c.networkId ∧ d.scope.permission = c.permission ∧ d.scope.epoch = epoch ∧
      d.scope.expiresAt = expiresAt)

/-- The descriptor of the request's scope is stored, and has the id the request names. -/
def Reads (s : AnonymousIssuer T.toIssuerPrimitives) (c : IssueCall) (truncated : UInt8) : Prop :=
  ∃ d, s.descriptors.lookup c.request.scope = some d ∧
    truncatedOf T.toTokenPrimitives d.publicKey = some truncated

/-- Every descriptor is stored under its scope. -/
def Scoped (s : IssuerShared T) : Prop :=
  ∀ scope d, s.issuer.descriptors.lookup scope = some d → d.scope = scope

/-- What a call knows at its point. -/
def Placed (s : IssuerShared T) : IssuerPoint P → Prop
  | .pruning now sweep => now ≤ s.clock ∧ ∀ e ∈ sweep.pending, e.1.expiresAt ≤ now
  | .waiting _ now => now ≤ s.clock
  | .inside c now phase => s.locked = true ∧ now ≤ s.clock ∧
      (∀ e ∈ phase.pending, e.1.expiresAt ≤ now) ∧
      ∀ epoch expiresAt, phase.period = some (epoch, expiresAt) → Unserved s.issuer c epoch expiresAt
  | .charging c _ truncated => s.clock < c.request.scope.expiresAt → Reads s.issuer c truncated
  | .signing c _ truncated => s.clock < c.request.scope.expiresAt → Reads s.issuer c truncated
  | _ => True

/-- At most one call is under `key_generation`. -/
def SoleHolder (t u : IssuerPoint P) : Prop := ¬(t.isInside = true ∧ u.isInside = true)

/-! ### What a section does to the descriptors -/

/-- The descriptors after a section: as before, without an expired one, or with a new one of a scope that
was not stored, which only a holder of `key_generation` adds. -/
inductive Touched (s : IssuerShared T) (t : IssuerPoint P) (descriptors :
    Map AuthorizationScope ScopeKeyDescriptor) : Prop where
  | same (h : descriptors = s.issuer.descriptors)
  | erased (scope : AuthorizationScope) (hexpired : scope.expiresAt ≤ s.clock)
      (h : descriptors = s.issuer.descriptors.erase scope)
  | added (hinside : t.isInside = true) (d : ScopeKeyDescriptor)
      (hnew : s.issuer.descriptors.lookup d.scope = none)
      (h : descriptors = s.issuer.descriptors.insert d.scope d)

variable {s : IssuerShared T}

theorem sweep_touched {t : IssuerPoint P} {now : ℕ} {sweep : Sweep} (hnow : now ≤ s.clock)
    (hexpired : ∀ e ∈ sweep.pending, e.1.expiresAt ≤ now) :
    Touched s t (sweep.next now s.issuer).1.descriptors := by
  cases sweep with
  | collect => exact .same rfl
  | key entry rest => exact .same (dropKey_descriptors s.issuer entry.2).1
  | descriptor entry rest =>
    exact .erased entry.1 ((hexpired entry List.mem_cons_self).trans hnow) rfl
  | counts => exact .same (dropCounts_fields s.issuer now).2.1

variable {c : ChallengeCall P}

/-- A scope of a permission and period that is not served is not stored. -/
theorem Unserved.lookup (hs : Scoped s) {epoch expiresAt : ℕ} (h : Unserved s.issuer c epoch expiresAt)
    {scope : AuthorizationScope}
    (hscope : scope.networkId = c.networkId ∧ scope.permission = c.permission ∧ scope.epoch = epoch ∧
      scope.expiresAt = expiresAt) : s.issuer.descriptors.lookup scope = none := by
  cases hlookup : s.issuer.descriptors.lookup scope with
  | none => rfl
  | some d =>
    apply absurd hscope
    rw [← hs scope d hlookup]
    exact h scope d hlookup

variable {phase : Phase} {issuer : AnonymousIssuer T.toIssuerPrimitives}

theorem phase_touched (hs : Scoped s) {now : ℕ} {phase' : Phase} {generated : Option T.PrivateKey}
    (h : Placed s (.inside c now phase)) (hmoves : phase.Moves generated c now s.issuer issuer phase') :
    Touched s (.inside c now phase) issuer.descriptors := by
  obtain ⟨_, hnow, hexpired, hperiod⟩ := h
  cases hmoves with
  | sweeps _ => exact sweep_touched hnow hexpired
  | swept _ => exact sweep_touched hnow hexpired
  | @describes epoch expiresAt der d hdescribe =>
    refine .added rfl d ((hperiod epoch expiresAt rfl).lookup hs ?_) rfl
    rw [(describe_ok hdescribe).1]
    exact ⟨rfl, rfl, rfl, rfl⟩
  | _ => exact .same rfl

theorem countIssue_fields (s : AnonymousIssuer T.toIssuerPrimitives) (member : NodeId) (epoch : ℕ) :
    (s.countIssue member epoch).1.keys = s.keys ∧
      (s.countIssue member epoch).1.descriptors = s.descriptors := by
  unfold countIssue
  dsimp only
  split <;> exact ⟨rfl, rfl⟩

variable {env : IssuerEnv T} {s s' : IssuerShared T} {t t' u : IssuerPoint P}

theorem moves_touched (hs : Scoped s) (ht : Placed s t) (h : t.Moves env s s' t') :
    Touched s t s'.issuer.descriptors ∧ s.clock ≤ s'.clock := by
  cases h with
  | begins request hclock => exact ⟨.same rfl, hclock⟩
  | sweeps _ => exact ⟨sweep_touched ht.1 ht.2, le_refl _⟩
  | swept _ => exact ⟨sweep_touched ht.1 ht.2, le_refl _⟩
  | works hmoves => exact ⟨phase_touched hs ht hmoves, le_refl _⟩
  | charges hcount _ =>
    obtain rfl := hcount
    exact ⟨.same (countIssue_fields _ _ _).2, le_refl _⟩
  | _ => exact ⟨.same rfl, le_refl _⟩

/-! ### What the other calls know stays true -/

theorem Touched.scoped (hs : Scoped s) (h : Touched s t s'.issuer.descriptors) : Scoped s' := by
  intro scope d hd
  cases h with
  | same h =>
    rw [h] at hd
    exact hs scope d hd
  | erased gone _ h =>
    rw [h] at hd
    exact hs scope d (lookup_of_erase hd)
  | added _ new _ h =>
    rw [h] at hd
    by_cases hscope : scope = new.scope
    · rw [hscope, AList.lookup_insert] at hd
      rw [hscope, Option.some.inj hd]
    · rw [AList.lookup_insert_ne hscope] at hd
      exact hs scope d hd

/-- A challenge that found nothing still finds nothing, as long as no other call is inside. -/
theorem Touched.unserved (h : Touched s t s'.issuer.descriptors) (halone : t.isInside ≠ true)
    {epoch expiresAt : ℕ} (hu : Unserved s.issuer c epoch expiresAt) :
    Unserved s'.issuer c epoch expiresAt := by
  intro scope d hd
  cases h with
  | same h =>
    rw [h] at hd
    exact hu scope d hd
  | erased gone _ h =>
    rw [h] at hd
    exact hu scope d (lookup_of_erase hd)
  | added hinside => exact absurd hinside halone

theorem Touched.reads (h : Touched s t s'.issuer.descriptors) {c : IssueCall} {truncated : UInt8}
    (hlive : s.clock < c.request.scope.expiresAt) (hr : Reads s.issuer c truncated) :
    Reads s'.issuer c truncated := by
  obtain ⟨d, hd, hid⟩ := hr
  refine ⟨d, ?_, hid⟩
  cases h with
  | same h =>
    rw [h]
    exact hd
  | erased gone hexpired h =>
    rw [h, AList.lookup_erase_ne, hd]
    rintro rfl
    exact absurd hexpired (not_le.mpr hlive)
  | added _ new hnew h =>
    rw [h, AList.lookup_insert_ne, hd]
    intro heq
    rw [← heq, hd] at hnew
    cases hnew

theorem Touched.placed (h : Touched s t s'.issuer.descriptors) (hclock : s.clock ≤ s'.clock)
    (halone : SoleHolder t u) (hlocked : u.isInside = true → s.locked = true → s'.locked = true)
    (hu : Placed s u) : Placed s' u := by
  cases u with
  | pruning now sweep => exact ⟨hu.1.trans hclock, hu.2⟩
  | waiting c now => exact Nat.le_trans hu hclock
  | inside c now phase =>
    obtain ⟨hlock, hnow, hexpired, hperiod⟩ := hu
    refine ⟨hlocked rfl hlock, hnow.trans hclock, hexpired, fun epoch expiresAt hphase => ?_⟩
    exact h.unserved (fun hinside => halone ⟨hinside, rfl⟩) (hperiod epoch expiresAt hphase)
  | charging c now truncated =>
    intro hlive
    have hlive' : s.clock < c.request.scope.expiresAt := lt_of_le_of_lt hclock hlive
    exact h.reads hlive' (hu hlive')
  | signing c now truncated =>
    intro hlive
    have hlive' : s.clock < c.request.scope.expiresAt := lt_of_le_of_lt hclock hlive
    exact h.reads hlive' (hu hlive')
  | arrived request => trivial
  | pruned => trivial
  | challenged result => trivial
  | checking c now => trivial
  | issued c result => trivial

/-! ### What the call that moves knows next -/

theorem pending_over (entries : List (AuthorizationScope × Bytes)) :
    (Sweep.over entries).pending = entries := by
  cases entries with
  | nil => rfl
  | cons entry rest => rfl

theorem sweep_expired {now : ℕ} {sweep sweep' : Sweep} (h : ∀ e ∈ sweep.pending, e.1.expiresAt ≤ now)
    (hsweep : (sweep.next now issuer).2 = some sweep') : ∀ e ∈ sweep'.pending, e.1.expiresAt ≤ now := by
  cases sweep with
  | collect =>
    cases hsweep
    rw [pending_over]
    intro e he
    exact (mem_expired.mp he).1
  | key entry rest =>
    cases hsweep
    exact h
  | descriptor entry rest =>
    cases hsweep
    rw [pending_over]
    intro e he
    exact h e (List.mem_cons_of_mem _ he)
  | counts => cases hsweep

/-- A phase that has collected nothing and found nothing missing. -/
theorem placed_quiet {now : ℕ} (hlock : s.locked = true) (hnow : now ≤ s.clock)
    (hpending : phase.pending = []) (hperiod : phase.period = none) : Placed s (.inside c now phase) := by
  refine ⟨hlock, hnow, ?_, ?_⟩
  · intro e he
    rw [hpending] at he
    cases he
  · intro epoch expiresAt h
    rw [hperiod] at h
    cases h

theorem phase_placed {now : ℕ} {phase' : Phase} {generated : Option T.PrivateKey}
    (h : Placed s (.inside c now phase)) (hmoves : phase.Moves generated c now s.issuer issuer phase') :
    Placed { s with issuer } (.inside c now phase') := by
  obtain ⟨hlock, hnow, hexpired, hperiod⟩ := h
  cases hmoves with
  | sweeps hnext =>
    refine ⟨hlock, hnow, sweep_expired hexpired hnext, ?_⟩
    intro epoch expiresAt hphase
    cases hphase
  | misses hnone =>
    refine ⟨hlock, hnow, ?_, ?_⟩
    · intro e he
      cases he
    · intro epoch expiresAt hphase
      cases hphase
      intro scope d hd
      exact existing_eq_none hnone hd
  | measures => exact ⟨hlock, hnow, hexpired, hperiod⟩
  | collides => exact ⟨hlock, hnow, hexpired, hperiod⟩
  | files _ _ => exact ⟨hlock, hnow, hexpired, hperiod⟩
  | _ => exact placed_quiet hlock hnow rfl rfl

/-- A call that starts knows its reading of the clock. -/
theorem begin_placed (request : IssuerRequest P) : Placed s (request.begin s.clock) := by
  cases request with
  | challenge c =>
    rw [IssuerRequest.begin]
    split
    · trivial
    · exact le_refl s.clock
  | issue c => trivial
  | prune => exact ⟨le_refl s.clock, fun e he => by cases he⟩

theorem moves_placed (ht : Placed s t) (h : t.Moves env s s' t') : Placed s' t' := by
  cases h with
  | begins request _ => exact begin_placed request
  | sweeps hnext => exact ⟨ht.1, sweep_expired ht.2 hnext⟩
  | enters _ => exact placed_quiet rfl ht rfl rfl
  | works hmoves => exact phase_placed ht hmoves
  | checks hchecked => exact fun _ => (envelope_ok (checked_ok hchecked)).2.2.2
  | charges hcount hend =>
    obtain rfl := hcount
    rcases hend with ⟨err, rfl⟩ | rfl
    · trivial
    · intro hlive
      obtain ⟨d, hd, hid⟩ := ht hlive
      refine ⟨d, ?_, hid⟩
      rw [(countIssue_fields s.issuer _ _).2]
      exact hd
  | _ => trivial

theorem begin_outside (now : ℕ) (request : IssuerRequest P) : (request.begin now).isInside = false := by
  cases request with
  | challenge c =>
    rw [IssuerRequest.begin]
    split
    · rfl
    · rfl
  | issue c => rfl
  | prune => rfl

/-- Who gets inside finds `key_generation` free, and only who is inside frees it. -/
theorem moves_lock (h : t.Moves env s s' t') :
    (t'.isInside = true → t.isInside = true ∨ s.locked = false) ∧
      (s.locked = true → s'.locked = true ∨ t.isInside = true) := by
  cases h with
  | begins request _ =>
    refine ⟨fun hinside => ?_, fun hlocked => Or.inl hlocked⟩
    rw [begin_outside] at hinside
    cases hinside
  | enters hfree => exact ⟨fun _ => Or.inr hfree, fun _ => Or.inl rfl⟩
  | works _ => exact ⟨fun _ => Or.inl rfl, fun _ => Or.inr rfl⟩
  | leaves => exact ⟨fun _ => Or.inl rfl, fun _ => Or.inr rfl⟩
  | charges _ hend =>
    refine ⟨fun hinside => ?_, fun hlocked => Or.inl hlocked⟩
    rcases hend with ⟨err, rfl⟩ | rfl
    · cases hinside
    · cases hinside
  | _ => exact ⟨fun hinside => (by cases hinside), fun hlocked => Or.inl hlocked⟩

/-- **Every step keeps what the calls know**, whatever the schedule. -/
theorem placed_step {p p' : IssuerPool T P} {a : IssuerAct T P} (hp : Inv Scoped Placed SoleHolder p)
    (hstep : issuerPoolStep p a = some p') : Inv Scoped Placed SoleHolder p' := by
  refine Threads.inv_step (fun _ _ => True) ?_ ?_ ?_ ?_ hp trivial hstep
  · intro t u h hboth
    exact h ⟨hboth.2, hboth.1⟩
  · intro s request _
    trivial
  · intro request u hboth
    cases hboth.1
  · intro p i env t s' t' hp _ ht hnext
    have hplaced := hp.each i t ht
    have hmoves := IssuerPoint.next_moves hnext
    obtain ⟨htouched, hclock⟩ := moves_touched hp.shared hplaced hmoves
    obtain ⟨hinside, hlocked⟩ := moves_lock hmoves
    refine ⟨htouched.scoped hp.shared, moves_placed hplaced hmoves, ?_⟩
    intro j u hj hu
    have halone : SoleHolder t u := hp.apart i j t u (Ne.symm hj) ht hu
    have huplaced := hp.each j u hu
    constructor
    · refine htouched.placed hclock halone (fun huinside hlock => ?_) huplaced
      rcases hlocked hlock with hkept | hmover
      · exact hkept
      · exact absurd ⟨hmover, huinside⟩ halone
    · intro hboth
      rcases hinside hboth.1 with hmover | hfree
      · exact halone ⟨hmover, hboth.2⟩
      · -- the other call is inside, so the lock was not free
        cases u with
        | inside c now phase =>
          rw [huplaced.1] at hfree
          cases hfree
        | _ => cases hboth.2

end Peerless.Auth
