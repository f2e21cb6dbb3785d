import Peerless.Auth.Descriptors

/-!
# Live issuer keys and running prunes

`prune` works from a snapshot of the expired descriptors and removes keys by their one-byte id, in
sections of its own.  Between the snapshot and the removal another call may have cleared the id and filed
a fresh key under it, which the first one then removes.

* `live_key_kept` — without such a race every live descriptor has its own key, and `issue`
  finds it.
-/

namespace Peerless.Auth

open Text HashMap Threads Peerless.Core Identity Chain AnonymousIssuer

variable {T : GeneratorPrimitives} {P : Primitives}

/-! ### Keys -/

/-- The keys of the issuer match its descriptors, up to what the calls have collected and claimed. -/
def KeysMatch (p : IssuerPool T P) : Prop :=
  Matched p.shared.issuer (Held IssuerPoint.pending p.threads) (Held IssuerPoint.claimed p.threads)

/-- **The condition.**  A key that is filed has an id that no running `prune` has still to clear. -/
def unmarked (p : IssuerPool T P) : IssuerAct T P → Bool
  | .arrive _ => true
  | .advance i env =>
    match p.threads[i]? with
    | some (.inside _ _ (.generating _ _ (_ + 1))) =>
      match draw env.generated with
      | .error _ => true
      | .ok (id, _, _) => (p.shared.issuer.keys.lookup id).isSome || p.threads.all fun t =>
          t.pending.all fun e => truncatedOf T.toTokenPrimitives e.2 ≠ some id
    | _ => true

variable {p : IssuerPool T P} {i : ℕ} {s' : IssuerShared T} {t t' : IssuerPoint P}

/-- A section that leaves the maps as they are may give up a key it claimed. -/
theorem matched_quiet (h : KeysMatch p) (ht : p.threads[i]? = some t)
    (hkeys : s'.issuer.keys = p.shared.issuer.keys)
    (hdescriptors : s'.issuer.descriptors = p.shared.issuer.descriptors)
    (hpending : t'.pending = t.pending) (hclaimed : t'.claimed ⊆ t.claimed) :
    KeysMatch ⟨s', p.threads.set i t'⟩ := by
  show Matched s'.issuer _ _
  rw [held_advance_eq ht hpending]
  refine Matched.congr (Slots.Safe.abandon h ?_) hkeys hdescriptors
  intro b hb
  rcases held_of_advance hb with hold | hnew
  · exact hold
  · exact mem_held ht (hclaimed hnew)

theorem matched_sweep (h : KeysMatch p) (ht : p.threads[i]? = some t) {now : ℕ} {sweep : Sweep}
    (hpending : t.pending = sweep.pending)
    (hpending' : t'.pending = (sweep.next now p.shared.issuer).2.elim [] Sweep.pending)
    (hclaimed : t'.claimed = t.claimed) :
    Matched (sweep.next now p.shared.issuer).1 (Held IssuerPoint.pending (p.threads.set i t'))
      (Held IssuerPoint.claimed (p.threads.set i t')) := by
  rw [held_advance_eq ht hclaimed]
  cases sweep with
  | collect =>
    replace hpending' : t'.pending = expired p.shared.issuer.descriptors now :=
      hpending'.trans (pending_over _)
    refine Slots.Safe.collect h ?_ ?_
    · intro e he
      have hkept : e ∈ Held IssuerPoint.pending (p.threads.set i t') ∨ e ∈ t.pending := held_advance ht he
      rcases hkept with hkept | hgone
      · exact hkept
      · rw [hpending] at hgone
        cases hgone
    · intro e he
      rcases held_of_advance he with hold | hnew
      · exact Or.inl hold
      · rw [hpending'] at hnew
        exact Or.inr (mem_expired.mp hnew).2
  | key entry rest =>
    rw [held_advance_eq ht (hpending'.trans hpending.symm)]
    exact h.dropKey (mem_held ht (hpending ▸ List.mem_cons_self))
  | descriptor entry rest =>
    replace hpending' : t'.pending = rest := hpending'.trans (pending_over _)
    refine h.dropDescriptor ?_ ?_
    · intro e he
      rcases held_of_advance he with hold | hnew
      · exact hold
      · rw [hpending'] at hnew
        exact mem_held ht (hpending ▸ List.mem_cons_of_mem _ hnew)
    · intro e he hne
      have hkept : e ∈ Held IssuerPoint.pending (p.threads.set i t') ∨ e ∈ t.pending := held_advance ht he
      rcases hkept with hkept | hgone
      · exact hkept
      · rw [hpending] at hgone
        rcases List.mem_cons.mp hgone with heq | hrest
        · exact absurd heq hne
        · exact held_advance_new ht (hpending' ▸ hrest)
  | counts =>
    rw [held_advance_eq ht (hpending'.trans hpending.symm)]
    obtain ⟨hkeys, hdescriptors, _⟩ := dropCounts_fields p.shared.issuer now
    exact h.congr hkeys hdescriptors

variable {c : ChallengeCall P}

/-- **A generated key** goes where nothing is left to clear. -/
theorem matched_files (hT : T.Lawful) (h : KeysMatch p) {now epoch expiresAt left : ℕ} {env : IssuerEnv T}
    {id : UInt8} {der : Bytes} {key : T.PrivateKey}
    (ht : p.threads[i]? = some (.inside c now (.generating epoch expiresAt (left + 1))))
    (hok : unmarked p (.advance i env) = true) (hdraw : draw env.generated = .ok (id, der, key))
    (hfree : p.shared.issuer.keys.lookup id = none) :
    KeysMatch ⟨{ p.shared with
        issuer := { p.shared.issuer with keys := p.shared.issuer.keys.insert id key } },
      p.threads.set i (.inside c now (.describing epoch expiresAt der))⟩ := by
  obtain ⟨hder, hid⟩ := draw_ok hT hdraw
  rw [unmarked, ht] at hok
  dsimp only at hok
  rw [hdraw] at hok
  dsimp only at hok
  rw [hfree, Option.isSome_none, Bool.false_or] at hok
  have hpending : Held IssuerPoint.pending (p.threads.set i
      (.inside c now (.describing epoch expiresAt der))) = Held IssuerPoint.pending p.threads :=
    held_advance_eq ht rfl
  show Matched { p.shared.issuer with keys := p.shared.issuer.keys.insert id key }
    (Held IssuerPoint.pending (p.threads.set i (.inside c now (.describing epoch expiresAt der))))
    (Held IssuerPoint.claimed (p.threads.set i (.inside c now (.describing epoch expiresAt der))))
  rw [hpending]
  refine Slots.Safe.claim h hid hder hfree ?_ ?_
  · rintro e ⟨u, hu, he⟩ hslot
    have hfar := List.all_eq_true.mp (List.all_eq_true.mp hok u hu) e he
    exact of_decide_eq_true hfar hslot
  · intro b hb
    rcases held_of_advance hb with hold | hnew
    · exact Set.mem_insert_of_mem _ hold
    · exact Or.inl (List.mem_singleton.mp hnew)

/-- **A descriptor for the key in place**; no other call has a key without descriptor. -/
theorem matched_describes (hp : Inv Scoped Placed SoleHolder p) (h : KeysMatch p)
    {now epoch expiresAt : ℕ} {der : Bytes} {d : ScopeKeyDescriptor}
    (ht : p.threads[i]? = some (.inside c now (.describing epoch expiresAt der)))
    (hdescribe : describe c.issuer c.networkId c.permission epoch expiresAt der = .ok d) :
    KeysMatch ⟨{ p.shared with
        issuer := { p.shared.issuer with
          descriptors := p.shared.issuer.descriptors.insert d.scope d } },
      p.threads.set i (.inside c now (.releasing (.ok d.asChallenge)))⟩ := by
  have hpending : Held IssuerPoint.pending (p.threads.set i
      (.inside c now (.releasing (.ok d.asChallenge)))) = Held IssuerPoint.pending p.threads :=
    held_advance_eq ht rfl
  have hnone : Held IssuerPoint.claimed
      (p.threads.set i (.inside c now (.releasing (.ok d.asChallenge)))) = ∅ := by
    refine Set.eq_empty_of_forall_notMem ?_
    rintro b ⟨u, hu, hb⟩
    obtain ⟨j, hj⟩ := List.mem_iff_getElem?.mp hu
    rcases getElem?_advance hj with ⟨_, rfl⟩ | ⟨hji, hj⟩
    · cases hb
    · have halone := hp.apart i j _ u (Ne.symm hji) ht hj
      cases u with
      | inside c' now' phase' => exact halone ⟨rfl, rfl⟩
      | _ => cases hb
  show Matched { p.shared.issuer with
      descriptors := p.shared.issuer.descriptors.insert d.scope d }
    (Held IssuerPoint.pending (p.threads.set i (.inside c now (.releasing (.ok d.asChallenge)))))
    (Held IssuerPoint.claimed (p.threads.set i (.inside c now (.releasing (.ok d.asChallenge)))))
  rw [hpending, hnone]
  refine Slots.Safe.publish h (mem_held ht ?_) (Set.empty_subset _) (fun b hb => by cases hb)
  rw [(describe_ok hdescribe).2.1]
  exact List.mem_singleton.mpr rfl

theorem matched_works (hT : T.Lawful) (hp : Inv Scoped Placed SoleHolder p) (h : KeysMatch p) {now : ℕ}
    {phase phase' : Phase} {env : IssuerEnv T} {issuer : AnonymousIssuer T.toIssuerPrimitives}
    (ht : p.threads[i]? = some (.inside c now phase)) (hok : unmarked p (.advance i env) = true)
    (hmoves : phase.Moves env.generated c now p.shared.issuer issuer phase') :
    KeysMatch ⟨{ p.shared with issuer }, p.threads.set i (.inside c now phase')⟩ := by
  cases hmoves with
  | sweeps hnext => exact matched_sweep h ht rfl (by rw [hnext]; rfl) rfl
  | swept hnext => exact matched_sweep h ht rfl (by rw [hnext]; rfl) rfl
  | settles hpending => exact matched_quiet h ht rfl rfl hpending.symm (List.nil_subset _)
  | files hdraw hfree => exact matched_files hT h ht hok hdraw hfree
  | describes hdescribe => exact matched_describes hp h ht hdescribe
  | _ => exact matched_quiet h ht rfl rfl rfl (List.nil_subset _)

theorem begin_holds (now : ℕ) (request : IssuerRequest P) :
    (request.begin now).pending = [] ∧ (request.begin now).claimed = [] := by
  cases request with
  | challenge c =>
    rw [IssuerRequest.begin]
    split
    · exact ⟨rfl, rfl⟩
    · exact ⟨rfl, rfl⟩
  | issue c => exact ⟨rfl, rfl⟩
  | prune => exact ⟨rfl, rfl⟩

/-- **Every step that meets the condition keeps the keys.** -/
theorem matched_step (hT : T.Lawful) {p' : IssuerPool T P} {a : IssuerAct T P}
    (hp : Inv Scoped Placed SoleHolder p) (h : KeysMatch p) (hok : unmarked p a = true)
    (hstep : issuerPoolStep p a = some p') : KeysMatch p' := by
  rcases Threads.step_cases hstep with ⟨request, rfl, rfl⟩ | ⟨i, env, t, s', t', rfl, ht, hnext, rfl⟩
  · show Matched p.shared.issuer (Held _ (p.threads ++ [_])) (Held _ (p.threads ++ [_]))
    rw [held_arrive rfl, held_arrive rfl]
    exact h
  · cases IssuerPoint.next_moves hnext with
    | begins request _ =>
      obtain ⟨hpending, hclaimed⟩ := begin_holds env.time request
      refine matched_quiet h ht rfl rfl hpending ?_
      rw [hclaimed]
      exact List.nil_subset _
    | sweeps hsweep => exact matched_sweep h ht rfl (by rw [hsweep]; rfl) rfl
    | swept hsweep => exact matched_sweep h ht rfl (by rw [hsweep]; rfl) rfl
    | works hmoves => exact matched_works hT hp h ht hok hmoves
    | charges hcount hend =>
      obtain rfl := hcount
      obtain ⟨hkeys, hdescriptors⟩ := countIssue_fields p.shared.issuer _ _
      rcases hend with ⟨err, rfl⟩ | rfl
      · exact matched_quiet h ht hkeys hdescriptors rfl (List.nil_subset _)
      · exact matched_quiet h ht hkeys hdescriptors rfl (List.nil_subset _)
    | _ => exact matched_quiet h ht rfl rfl rfl (List.nil_subset _)

theorem collected_expired (hp : Inv Scoped Placed SoleHolder p) {e : AuthorizationScope × Bytes}
    (he : e ∈ Held IssuerPoint.pending p.threads) : e.1.expiresAt ≤ p.shared.clock := by
  obtain ⟨t, ht, he⟩ := he
  obtain ⟨j, hj⟩ := List.mem_iff_getElem?.mp ht
  have hplaced := hp.each j t hj
  cases t with
  | pruning now sweep => exact (hplaced.2 e he).trans hplaced.1
  | inside c now phase => exact (hplaced.2.2.1 e he).trans hplaced.2.1
  | _ => cases he

/-- An issuer as it is opened, with no calls. -/
def freshPool (s : AnonymousIssuer T.toIssuerPrimitives) : IssuerPool T P := ⟨⟨s, false, 0⟩, []⟩

theorem matched_fresh {s : AnonymousIssuer T.toIssuerPrimitives} (h : Filed s) :
    Inv Scoped Placed SoleHolder (freshPool s : IssuerPool T P) ∧
      KeysMatch (freshPool s : IssuerPool T P) := by
  refine ⟨Threads.inv_nil h.scope, ?_⟩
  show Matched s (Held _ []) (Held _ [])
  rw [held_nil, held_nil]
  exact h.matched

/-- **Expiry never removes a live issuer key** in a run in which no key is filed under an id that a
running `prune` has still to clear: every stored descriptor that expires after every reading of the clock
has its own key under its id, and an `issue` on a live scope that is about to sign finds the key of the
scope's descriptor. -/
theorem live_key_kept (hT : T.Lawful) {policy : CredentialPolicy}
    {s₀ : AnonymousIssuer T.toIssuerPrimitives} (hnew : AnonymousIssuer.new policy = .ok s₀)
    {acts : List (IssuerAct T P)} {p : IssuerPool T P}
    (hmeets : Runs.Meets issuerPoolStep (fun p a => unmarked p a = true) (freshPool s₀) acts)
    (hrun : Runs.run issuerPoolStep (freshPool s₀) acts = some p) :
    (∀ scope d, p.shared.issuer.descriptors.lookup scope = some d → p.shared.clock < scope.expiresAt →
      ∃ id key, truncatedOf T.toTokenPrimitives d.publicKey = some id ∧
        p.shared.issuer.keys.lookup id = some key ∧ publicDer key = some d.publicKey) ∧
    ∀ c now truncated, .signing c now truncated ∈ p.threads →
      p.shared.clock < c.request.scope.expiresAt →
      ∃ d key, p.shared.issuer.descriptors.lookup c.request.scope = some d ∧
        publicDer key = some d.publicKey ∧ p.shared.issuer.keys.lookup truncated = some key := by
  obtain ⟨hp, hkeys⟩ := Runs.run_invariant
    (I := fun p => Inv Scoped Placed SoleHolder p ∧ KeysMatch p)
    (fun p a p' h hok hstep => ⟨placed_step h.1 hstep, matched_step hT h.1 h.2 hok hstep⟩)
    acts _ p (matched_fresh (kept_new hnew).filed) hmeets hrun
  have hlive : ∀ scope d, p.shared.issuer.descriptors.lookup scope = some d →
      p.shared.clock < scope.expiresAt → ∃ id key, truncatedOf T.toTokenPrimitives d.publicKey = some id ∧
        p.shared.issuer.keys.lookup id = some key ∧ publicDer key = some d.publicKey := by
    intro scope d hd hclock
    refine Slots.Safe.owned hkeys hd fun hpending => ?_
    exact absurd (collected_expired hp hpending) (not_le.mpr hclock)
  refine ⟨hlive, ?_⟩
  intro c now truncated hmem hclock
  obtain ⟨j, hj⟩ := List.mem_iff_getElem?.mp hmem
  obtain ⟨d, hd, hid⟩ := hp.each j _ hj hclock
  obtain ⟨id, key, hid', hkey, hder⟩ := hlive _ d hd hclock
  obtain rfl := Option.some.inj (hid.symm.trans hid')
  exact ⟨d, key, hd, hder, hkey⟩

/-! ### Two sample runs -/

open Sample

/-- One section of a call, at a time and with a key should it generate one. -/
def tick (i time : ℕ) (key : UInt8) : IssuerAct sampleKeys primitives := .advance i ⟨time, some key⟩

def netStorage : ChallengeCall primitives := ⟨identity [1], "net", "storage"⟩

/-- A challenge at 0 files the key 6, whose id is 2, until 300; a `prune` at 300 collects its scope. -/
def firstEpoch : List (IssuerAct sampleKeys primitives) :=
  [.arrive (.challenge netStorage)] ++ List.replicate 9 (tick 0 0 6) ++
    [.arrive .prune] ++ List.replicate 2 (tick 1 300 0)

/-- A challenge at 300, of so many sections, files the key 10, whose id is 2 as well. -/
def secondEpoch (sections : ℕ) : List (IssuerAct sampleKeys primitives) :=
  [.arrive (.challenge netStorage)] ++ List.replicate sections (tick 2 300 10)

/-- The scope of the key 10. -/
def secondScope : AuthorizationScope := ⟨1, "net", "storage", 1, 600, primitives.sha256 [10]⟩

def secondIssue : List (IssuerAct sampleKeys primitives) :=
  [.arrive (.issue ⟨storageCertificate ["storage"], {member [1]}, ∅,
    ⟨secondScope, [0, 2, 2] ++ List.replicate 256 1⟩⟩)] ++ List.replicate 4 (tick 3 301 0)

/-- The first `prune` ends before the second challenge starts. -/
def clearedOnce : List (IssuerAct sampleKeys primitives) :=
  firstEpoch ++ List.replicate 3 (tick 1 300 0) ++ secondEpoch 9 ++ secondIssue.dropLast

/-- The first `prune` goes on to remove the key it collected after the second challenge. -/
def clearedTwice : List (IssuerAct sampleKeys primitives) :=
  firstEpoch ++ secondEpoch 11 ++ [tick 1 300 0] ++ secondIssue

/-- What the `issue` ended in, if it ended in an error. -/
def issueError (p : IssuerPool sampleKeys primitives) : Option AnonymousAuthError :=
  p.threads.findSome? fun
    | .issued _ (.error err) => some err
    | _ => none

/-- With the first `prune` over before the second challenge, the key of the live scope stays. -/
theorem cleared_once :
    AnonymousIssuer.new onePolicy = .ok emptyIssuer ∧
    ∃ p, Runs.run issuerPoolStep (freshPool emptyIssuer) clearedOnce = some p ∧
      Runs.Meets issuerPoolStep (fun p a => unmarked p a = true) (freshPool emptyIssuer) clearedOnce ∧
      p.shared.clock < secondScope.expiresAt ∧
      ∃ d id key, p.shared.issuer.descriptors.lookup secondScope = some d ∧
        truncatedOf sampleKeys.toTokenPrimitives d.publicKey = some id ∧
        p.shared.issuer.keys.lookup id = some key ∧ publicDer key = some d.publicKey := by
  have heval : (Runs.run (Runs.guarded issuerPoolStep unmarked) (freshPool emptyIssuer) clearedOnce).map
      (fun p => (p.shared.clock, (p.shared.issuer.descriptors.lookup secondScope).isSome)) =
        some (301, true) := by
    decide +kernel
  obtain ⟨p, hrun, hp⟩ := Option.map_eq_some_iff.mp heval
  obtain ⟨hclock, hsome⟩ := Prod.mk.inj hp
  obtain ⟨hmeets, hrun⟩ := Runs.run_guarded _ _ p hrun
  obtain ⟨d, hd⟩ := Option.isSome_iff_exists.mp hsome
  have hlive : p.shared.clock < secondScope.expiresAt := by
    rw [hclock]
    decide
  have hnew : (AnonymousIssuer.new onePolicy : Except _ (AnonymousIssuer sampleKeys.toIssuerPrimitives)) =
      .ok emptyIssuer := rfl
  obtain ⟨id, key, hkey⟩ := (live_key_kept sampleKeys_lawful hnew hmeets hrun).1 secondScope d hd hlive
  exact ⟨hnew, p, hrun, hmeets, hlive, d, id, key, hd, hkey⟩

/-- **A key removed by the wrong `prune`.**  The key of the live scope is gone, and an `issue` on that
scope is counted and then fails for it. -/
theorem cleared_twice :
    AnonymousIssuer.new onePolicy = .ok emptyIssuer ∧
    ∃ p, Runs.run issuerPoolStep (freshPool emptyIssuer) clearedTwice = some p ∧
      p.shared.clock < secondScope.expiresAt ∧
      (∃ d, p.shared.issuer.descriptors.lookup secondScope = some d ∧
        truncatedOf sampleKeys.toTokenPrimitives d.publicKey = some 2 ∧
        p.shared.issuer.keys.lookup 2 = none) ∧
      issueError p = some .invalidScope := by
  have heval : (Runs.run issuerPoolStep (freshPool emptyIssuer) clearedTwice).map
      (fun p => (p.shared.clock, (p.shared.issuer.descriptors.lookup secondScope).map fun d =>
        truncatedOf sampleKeys.toTokenPrimitives d.publicKey, (p.shared.issuer.keys.lookup 2).isNone,
          issueError p)) = some (301, some (some 2), true, some .invalidScope) := by
    decide +kernel
  obtain ⟨p, hrun, hp⟩ := Option.map_eq_some_iff.mp heval
  obtain ⟨hclock, hp⟩ := Prod.mk.inj hp
  obtain ⟨hdescriptor, hp⟩ := Prod.mk.inj hp
  obtain ⟨hkey, herror⟩ := Prod.mk.inj hp
  obtain ⟨d, hd, hid⟩ := Option.map_eq_some_iff.mp hdescriptor
  refine ⟨rfl, p, hrun, ?_, ⟨d, hd, hid, Option.isNone_iff_eq_none.mp hkey⟩, herror⟩
  rw [hclock]
  decide

end Peerless.Auth
