import Peerless.Auth.Redemption

/-!
# One token, one redemption

A call holds a nonce from its reservation on.  The entry it made is there until its scope expires, so
no other call can reserve the nonce before that; after that the entry may be gone while the call still
runs.

* `redeemed_once` — if calls reserve and release before their scope expires, no two of them
  redeem one nonce in one scope.
-/

namespace Peerless.Auth

open Text HashMap Peerless.Core Identity Sample

variable {T : TokenPrimitives} {P : Primitives}

/-! ### Holding a nonce -/

/-- A call that holds a nonce: its scope, the nonce and when it locked the store. -/
structure Holding where
  scope : AuthorizationScope
  nonce : Digest
  lockedAt : ℕ

def RedeemPoint.holding : RedeemPoint → Option Holding
  | .verifying c token lockedAt => some ⟨c.presentation.scope, token.nonce, lockedAt⟩
  | .settling c token lockedAt _ => some ⟨c.presentation.scope, token.nonce, lockedAt⟩
  | .redeemed c token lockedAt => some ⟨c.presentation.scope, token.nonce, lockedAt⟩
  | _ => none

/-- A holding call locked the store before its scope expired, and until then its entry is there,
committed once it has redeemed. -/
structure Guarded (s : Shared T) (h : Holding) (settled : Bool) : Prop where
  past : h.lockedAt ≤ s.clock
  inTime : h.lockedAt < h.scope.expiresAt
  entry : s.clock < h.scope.expiresAt → ∃ state expiry,
    s.verifier.nonces.values.lookup h.nonce = some (state, expiry) ∧ h.scope.expiresAt ≤ expiry ∧
      (settled = true → state = .committed)

/-- What a call knows before it holds a nonce: its scope expires at most one epoch from now. -/
def Pending (s : Shared T) (scope : AuthorizationScope) (now : ℕ) : Prop :=
  now ≤ s.clock ∧ scope.expiresAt ≤ now + s.verifier.policy.epochSeconds ∧ scope.expiresAt < 2 ^ 64

/-- The local part of the invariant. -/
def Local (s : Shared T) : RedeemPoint → Prop
  | .entering _ => True
  | .called _ now => now ≤ s.clock
  | .scanning c now => Pending s c.presentation.scope now
  | .pruning c _ => Pending s c.presentation.scope s.clock
  | .unfiling c _ _ => Pending s c.presentation.scope s.clock
  | .stamping c _ => Pending s c.presentation.scope s.clock
  | .reserving c _ now => Pending s c.presentation.scope now
  | .verifying c token lockedAt => Guarded s ⟨c.presentation.scope, token.nonce, lockedAt⟩ false
  | .settling c token lockedAt _ => Guarded s ⟨c.presentation.scope, token.nonce, lockedAt⟩ false
  | .redeemed c token lockedAt => Guarded s ⟨c.presentation.scope, token.nonce, lockedAt⟩ true
  | .refused _ _ => True

/-- Two calls hold one nonce only one after the other: the scope of one had expired when the other
locked the store. -/
def Apart (t u : RedeemPoint) : Prop :=
  ∀ h k, t.holding = some h → u.holding = some k → h.nonce = k.nonce →
    h.scope.expiresAt ≤ k.lockedAt ∨ k.scope.expiresAt ≤ h.lockedAt

variable {t u : RedeemPoint}

theorem Apart.symm (h : Apart t u) : Apart u t :=
  fun a b ha hb hnonce => (h b a hb ha hnonce.symm).symm

/-- The nonce store is the policy's. -/
def Retains (s : Shared T) : Prop :=
  s.verifier.nonces.retentionSeconds = s.verifier.policy.epochSeconds

/-- **The condition.**  A call reserves its nonce, and releases it after a failed verification, before
its scope expires. -/
def inTime (time : ℕ) (_ : Shared T) : RedeemPoint → Bool
  | .reserving c _ _ => time < c.presentation.scope.expiresAt
  | .settling c _ _ false => time < c.presentation.scope.expiresAt
  | _ => true

/-! ### What a section does to the entries -/

variable {n n' : NonceStore}

theorem NonceStore.reserve_cases {nonce : Digest} {now : ℕ} {taken : Bool}
    (h : n.reserve nonce now = (n', taken)) :
    (taken = false ∧ n' = { n with values := retain (fun _ entry => entry.2 > now) n.values }) ∨
    (taken = true ∧ (retain (fun _ entry => entry.2 > now) n.values).lookup nonce = none ∧
      n' = { n with
        values := (retain (fun _ entry => entry.2 > now) n.values).insert nonce
          (.reserved, saturatingAdd now n.retentionSeconds) }) := by
  unfold NonceStore.reserve at h
  dsimp only at h
  split at h
  · simp only [Prod.mk.injEq] at h
    exact Or.inl ⟨h.2.symm, h.1.symm⟩
  · rename_i hfree
    simp only [Prod.mk.injEq] at h
    simp only [not_or, Option.not_isSome_iff_eq_none] at hfree
    exact Or.inr ⟨h.2.symm, hfree.1, h.1.symm⟩

/-- The entry of a holding call survives from `s` to `s'`, as long as its scope is live. -/
def Keeps (s s' : Shared T) (h : Holding) (settled : Bool) : Prop :=
  s'.clock < h.scope.expiresAt → ∀ state expiry,
    s.verifier.nonces.values.lookup h.nonce = some (state, expiry) → h.scope.expiresAt ≤ expiry →
    (settled = true → state = .committed) →
    ∃ state', s'.verifier.nonces.values.lookup h.nonce = some (state', expiry) ∧
      (settled = true → state' = .committed)

variable {s s' : Shared T}

theorem Guarded.keep {h : Holding} {settled : Bool} (hg : Guarded s h settled)
    (hclock : s.clock ≤ s'.clock) (hkeeps : Keeps s s' h settled) : Guarded s' h settled := by
  refine ⟨hg.past.trans hclock, hg.inTime, fun hlive => ?_⟩
  obtain ⟨state, expiry, hlookup, hexpiry, hstate⟩ := hg.entry (lt_of_le_of_lt hclock hlive)
  obtain ⟨state', hlookup', hstate'⟩ := hkeeps hlive state expiry hlookup hexpiry hstate
  exact ⟨state', expiry, hlookup', hexpiry, hstate'⟩

theorem keeps_of_eq (h : s'.verifier.nonces = s.verifier.nonces) (k : Holding) (settled : Bool) :
    Keeps s s' k settled := by
  intro _ state expiry hlookup _ hstate
  rw [h]
  exact ⟨state, hlookup, hstate⟩

/-- A live entry outlives the pruning of `reserve`, whose reading of the clock is not ahead. -/
theorem retain_of_live {nonce : Digest} {now expiry : ℕ} {state : NonceState}
    (hlookup : n.values.lookup nonce = some (state, expiry)) (hlive : now < expiry) :
    (retain (fun _ entry => entry.2 > now) n.values).lookup nonce = some (state, expiry) :=
  lookup_retain_of_pos hlookup (decide_eq_true hlive)

variable {time : ℕ}

theorem keeps_reserve {now : ℕ} {nonce : Digest} {taken : Bool} (hnow : now ≤ s.clock)
    (hclock : s.clock ≤ time) (hreserve : s.verifier.nonces.reserve nonce now = (n', taken)) (k : Holding)
    (settled : Bool) : Keeps s ⟨time, { s.verifier with nonces := n' }⟩ k settled := by
  intro hlive state expiry hlookup hexpiry hstate
  have hbefore : time < k.scope.expiresAt := hlive
  have hkept := retain_of_live hlookup (by omega : now < expiry)
  refine ⟨state, ?_, hstate⟩
  rcases NonceStore.reserve_cases hreserve with ⟨_, rfl⟩ | ⟨_, hfree, rfl⟩
  · exact hkept
  · have hne : k.nonce ≠ nonce := by
      intro heq
      rw [heq] at hkept
      exact absurd (hfree.symm.trans hkept) (by simp)
    show AList.lookup k.nonce (AList.insert nonce _ _) = _
    rw [AList.lookup_insert_ne hne]
    exact hkept

theorem NonceStore.commit_lookup {nonce k : Digest} {state : NonceState} {expiry : ℕ}
    (h : n.values.lookup k = some (state, expiry)) :
    (n.commit nonce).values.lookup k = some (if k = nonce then .committed else state, expiry) := by
  unfold NonceStore.commit
  by_cases hk : k = nonce
  · subst hk
    rw [h, if_pos rfl]
    exact AList.lookup_insert _
  · rw [if_neg hk]
    split
    · exact h
    · show AList.lookup k (AList.insert nonce _ _) = _
      rw [AList.lookup_insert_ne hk]
      exact h

theorem keeps_commit (nonce : Digest) (k : Holding) (settled : Bool) :
    Keeps s ⟨time, { s.verifier with nonces := s.verifier.nonces.commit nonce }⟩ k settled := by
  intro _ state expiry hlookup _ hstate
  refine ⟨_, NonceStore.commit_lookup hlookup, fun hs => ?_⟩
  split
  · rfl
  · exact hstate hs

/-- A release takes the entry of nobody else who may still need it. -/
theorem keeps_release {nonce : Digest} {k : Holding} {settled : Bool}
    (hother : k.nonce = nonce → k.scope.expiresAt ≤ time ∨ settled = true) :
    Keeps s ⟨time, { s.verifier with nonces := s.verifier.nonces.release nonce }⟩ k settled := by
  intro hlive state expiry hlookup _ hstate
  have hbefore : time < k.scope.expiresAt := hlive
  refine ⟨state, ?_, hstate⟩
  show (s.verifier.nonces.release nonce).values.lookup k.nonce = _
  unfold NonceStore.release
  split
  · rename_i expiry' hentry
    by_cases hk : k.nonce = nonce
    · rcases hother hk with hexpired | hsettled
      · omega
      · rw [hk, hentry] at hlookup
        have hcommitted := hstate hsettled
        simp only [Option.some.injEq, Prod.mk.injEq] at hlookup
        rw [← hlookup.1] at hcommitted
        cases hcommitted
    · show AList.lookup k.nonce (AList.erase nonce _) = _
      rw [AList.lookup_erase_ne hk]
      exact hlookup
  · exact hlookup

/-! ### One section -/

theorem Pending.mono {scope : AuthorizationScope} {now : ℕ} (h : Pending s scope now)
    (hclock : s.clock ≤ s'.clock) (hpolicy : s'.verifier.policy = s.verifier.policy) :
    Pending s' scope now := by
  obtain ⟨hnow, hexpiry, hbound⟩ := h
  refine ⟨hnow.trans hclock, ?_, hbound⟩
  rw [hpolicy]
  exact hexpiry

theorem Pending.later {scope : AuthorizationScope} {now : ℕ} (h : Pending s scope now)
    (hclock : s.clock ≤ s'.clock) (hpolicy : s'.verifier.policy = s.verifier.policy) :
    Pending s' scope s'.clock := by
  obtain ⟨hnow, hexpiry, hbound⟩ := h
  refine ⟨le_refl _, ?_, hbound⟩
  rw [hpolicy]
  omega

/-- Another call's part survives a section that keeps its entry. -/
theorem Local.keep (hu : Local s u) (hclock : s.clock ≤ s'.clock)
    (hpolicy : s'.verifier.policy = s.verifier.policy)
    (hkeeps : ∀ k settled, u.holding = some k → Guarded s k settled → Keeps s s' k settled) :
    Local s' u := by
  cases u with
  | entering c => trivial
  | called c now => exact Nat.le_trans hu hclock
  | scanning c now => exact Pending.mono hu hclock hpolicy
  | pruning c entries => exact Pending.later hu hclock hpolicy
  | unfiling c der entries => exact Pending.later hu hclock hpolicy
  | stamping c token => exact Pending.later hu hclock hpolicy
  | reserving c token now => exact Pending.mono hu hclock hpolicy
  | verifying c token lockedAt => exact Guarded.keep hu hclock (hkeeps _ _ rfl hu)
  | settling c token lockedAt verified => exact Guarded.keep hu hclock (hkeeps _ _ rfl hu)
  | redeemed c token lockedAt => exact Guarded.keep hu hclock (hkeeps _ _ rfl hu)
  | refused c err => trivial

theorem Local.guarded (hu : Local s u) {k : Holding} (hk : u.holding = some k) :
    ∃ settled, Guarded s k settled := by
  cases u with
  | verifying c token lockedAt =>
    cases hk
    exact ⟨false, hu⟩
  | settling c token lockedAt verified =>
    cases hk
    exact ⟨false, hu⟩
  | redeemed c token lockedAt =>
    cases hk
    exact ⟨true, hu⟩
  | entering c => exact absurd hk (by simp [RedeemPoint.holding])
  | called c now => exact absurd hk (by simp [RedeemPoint.holding])
  | scanning c now => exact absurd hk (by simp [RedeemPoint.holding])
  | pruning c entries => exact absurd hk (by simp [RedeemPoint.holding])
  | unfiling c der entries => exact absurd hk (by simp [RedeemPoint.holding])
  | stamping c token => exact absurd hk (by simp [RedeemPoint.holding])
  | reserving c token now => exact absurd hk (by simp [RedeemPoint.holding])
  | refused c err => exact absurd hk (by simp [RedeemPoint.holding])

/-- A scope that passes the checks ends with the epoch of the caller's time. -/
theorem checkScope_ok {c : Redeem} {policy : CredentialPolicy} {now : ℕ}
    (h : c.checkScope policy now = .ok ()) :
    c.presentation.scope.expiresAt ≤ now + policy.epochSeconds ∧
      c.presentation.scope.expiresAt < 2 ^ 64 := by
  unfold Redeem.checkScope at h
  split at h
  · cases h
  · split at h
    · cases h
    · split at h
      · cases h
      · rename_i hepoch
        split at h
        · cases h
        · rename_i hsame
          simp only [not_or, not_not] at hsame
          rw [hsame.2]
          obtain ⟨_, _, _, hbound⟩ := CredentialPolicy.epoch_ok hepoch
          exact ⟨(CredentialPolicy.epoch_contains hepoch).1, hbound⟩

variable {t' : RedeemPoint}

theorem redeemNext_eq_some (h : redeemNext P time s t = some (s', t')) : s.clock ≤ time ∧
      ∃ v', s.verifier.redeemSection P time t = some (v', t') ∧ s' = ⟨time, v'⟩ := by
  unfold redeemNext at h
  split at h
  · cases h
  · obtain ⟨⟨v', t''⟩, hsection, heq⟩ := Option.map_eq_some_iff.mp h
    simp only [Prod.mk.injEq] at heq
    obtain ⟨rfl, rfl⟩ := heq
    exact ⟨by omega, v', hsection, rfl⟩

/-- **What a section can do.**  It leaves the nonces alone, or it is one of the three that do not. -/
theorem redeemSection_cases {v v' : AnonymousVerifier T} (h : v.redeemSection P time t = some (v', t')) :
    (v'.nonces = v.nonces ∧ v'.policy = v.policy ∧ (t'.holding = none ∨ t'.holding = t.holding) ∧
      ∀ s, s.verifier = v → s.clock ≤ time → Local s t → Local ⟨time, v'⟩ t') ∨
    (∃ c token now nonces taken, t = .reserving c token now ∧
      v.nonces.reserve token.nonce now = (nonces, taken) ∧ v' = { v with nonces } ∧
      t' = if taken then .verifying c token time else .refused c .replayOrCapacity) ∨
    (∃ c token lockedAt, t = .settling c token lockedAt true ∧
      v' = { v with nonces := v.nonces.commit token.nonce } ∧ t' = .redeemed c token lockedAt) ∨
    (∃ c token lockedAt, t = .settling c token lockedAt false ∧
      v' = { v with nonces := v.nonces.release token.nonce } ∧
      t' = .refused c .verificationFailed) := by
  cases t with
  | entering c =>
    cases h
    exact Or.inl ⟨rfl, rfl, Or.inl rfl, fun s _ hclock _ => le_refl time⟩
  | called c now =>
    rw [AnonymousVerifier.redeemSection] at h
    split at h
    · cases h
      exact Or.inl ⟨rfl, rfl, Or.inl rfl, fun _ _ _ _ => trivial⟩
    · rename_i hscope
      cases h
      refine Or.inl ⟨rfl, rfl, Or.inl rfl, fun s _ hclock hlocal => ?_⟩
      obtain ⟨hexpiry, hbound⟩ := checkScope_ok hscope
      exact ⟨Nat.le_trans hlocal hclock, hexpiry, hbound⟩
  | scanning c now =>
    cases h
    refine Or.inl ⟨rfl, rfl, Or.inl rfl, fun s hs hclock hlocal => ?_⟩
    subst hs
    exact Pending.later hlocal hclock rfl
  | pruning c entries =>
    cases entries with
    | cons entry entries =>
      cases h
      refine Or.inl ⟨rfl, rfl, Or.inl rfl, fun s hs hclock hlocal => ?_⟩
      subst hs
      exact Pending.later hlocal hclock rfl
    | nil =>
      rw [AnonymousVerifier.redeemSection] at h
      split at h
      · cases h
        exact Or.inl ⟨rfl, rfl, Or.inl rfl, fun _ _ _ _ => trivial⟩
      · cases h
        refine Or.inl ⟨rfl, rfl, Or.inl rfl, fun s hs hclock hlocal => ?_⟩
        subst hs
        exact Pending.later hlocal hclock rfl
  | unfiling c publicKeyDer entries =>
    cases h
    refine Or.inl ⟨rfl, rfl, Or.inl rfl, fun s hs hclock hlocal => ?_⟩
    subst hs
    exact Pending.later hlocal hclock rfl
  | stamping c token =>
    cases h
    refine Or.inl ⟨rfl, rfl, Or.inl rfl, fun s hs hclock hlocal => ?_⟩
    subst hs
    show Pending ⟨time, s.verifier⟩ c.presentation.scope time
    exact Pending.later hlocal hclock rfl
  | reserving c token now =>
    rw [AnonymousVerifier.redeemSection] at h
    split at h
    · rename_i nonces hreserve
      cases h
      exact Or.inr (Or.inl ⟨c, token, now, nonces, false, rfl, hreserve, rfl, rfl⟩)
    · rename_i nonces hreserve
      cases h
      exact Or.inr (Or.inl ⟨c, token, now, nonces, true, rfl, hreserve, rfl, rfl⟩)
  | verifying c token lockedAt =>
    cases h
    refine Or.inl ⟨rfl, rfl, Or.inr rfl, fun s hs hclock hlocal => ?_⟩
    subst hs
    exact Guarded.keep hlocal hclock (keeps_of_eq rfl _ _)
  | settling c token lockedAt verified =>
    cases verified with
    | true =>
      cases h
      exact Or.inr (Or.inr (Or.inl ⟨c, token, lockedAt, rfl, rfl, rfl⟩))
    | false =>
      cases h
      exact Or.inr (Or.inr (Or.inr ⟨c, token, lockedAt, rfl, rfl, rfl⟩))
  | redeemed c token lockedAt => exact absurd h (by simp [AnonymousVerifier.redeemSection])
  | refused c err => exact absurd h (by simp [AnonymousVerifier.redeemSection])

/-- A section whose caller takes no new nonce disturbs no call whose entry it keeps. -/
theorem undisturbed {p : Threads.Pool (Shared T) RedeemPoint} {i : ℕ}
    (hp : Threads.Inv Retains Local Apart p) (ht : p.threads[i]? = some t)
    (hclock : p.shared.clock ≤ s'.clock) (hpolicy : s'.verifier.policy = p.shared.verifier.policy)
    (hheld : t'.holding = none ∨ t'.holding = t.holding)
    (hkeeps : ∀ u k settled, Apart t u → u.holding = some k → Guarded p.shared k settled →
      Keeps p.shared s' k settled) : ∀ j u, j ≠ i → p.threads[j]? = some u → Local s' u ∧ Apart t' u := by
  intro j u hj hu
  have hapart : Apart t u := hp.apart i j t u hj.symm ht hu
  refine ⟨(hp.each j u hu).keep hclock hpolicy fun k settled hk hg =>
    hkeeps u k settled hapart hk hg, fun h k hh hk hnonce => ?_⟩
  rcases hheld with hnone | hsame
  · rw [hnone] at hh
    cases hh
  · exact hapart h k (hsame ▸ hh) hk hnonce

theorem reserved_guarded {now : ℕ} {scope : AuthorizationScope} {nonce : Digest} {nonces : NonceStore}
    (hretains : Retains s) (hpending : Pending s scope now) (hinTime : time < scope.expiresAt)
    (hreserve : s.verifier.nonces.reserve nonce now = (nonces, true)) :
    Guarded ⟨time, { s.verifier with nonces }⟩ ⟨scope, nonce, time⟩ false := by
  refine ⟨le_refl time, hinTime, fun _ => ?_⟩
  rcases NonceStore.reserve_cases hreserve with ⟨hfalse, _⟩ | ⟨_, _, rfl⟩
  · cases hfalse
  · refine ⟨.reserved, saturatingAdd now s.verifier.nonces.retentionSeconds, AList.lookup_insert _, ?_,
      fun h => absurd h (by simp)⟩
    obtain ⟨_, hexpiry, hbound⟩ := hpending
    rw [show s.verifier.nonces.retentionSeconds = _ from hretains]
    show scope.expiresAt ≤ saturatingAdd now _
    unfold saturatingAdd
    omega

/-- A call that has just reserved meets the nonce at no call whose scope is live. -/
theorem reserved_apart {now : ℕ} {c : Redeem} {token : PublicToken} {nonces : NonceStore} (hu : Local s u)
    (hnow : now ≤ s.clock) (hclock : s.clock ≤ time)
    (hreserve : s.verifier.nonces.reserve token.nonce now = (nonces, true)) :
    Apart (.verifying c token time) u := by
  intro h k hh hk hnonce
  cases hh
  refine Or.inr (not_lt.mp fun hlive => ?_)
  have hbefore : time < k.scope.expiresAt := hlive
  obtain ⟨settled, hg⟩ := hu.guarded hk
  obtain ⟨state, expiry, hlookup, hexpiry, _⟩ := hg.entry (lt_of_le_of_lt hclock hbefore)
  have hkept := retain_of_live hlookup (by omega : now < expiry)
  rcases NonceStore.reserve_cases hreserve with ⟨hfalse, _⟩ | ⟨_, hfree, _⟩
  · cases hfalse
  · rw [← hnonce] at hkept
    exact absurd (hfree.symm.trans hkept) (by simp)

theorem retains_reserve {nonce : Digest} {now : ℕ} {taken : Bool} (h : n.reserve nonce now = (n', taken)) :
    n'.retentionSeconds = n.retentionSeconds := by
  rcases NonceStore.reserve_cases h with ⟨_, rfl⟩ | ⟨_, _, rfl⟩
  · rfl
  · rfl

theorem retains_commit (n : NonceStore) (nonce : Digest) :
    (n.commit nonce).retentionSeconds = n.retentionSeconds := by
  unfold NonceStore.commit
  split
  · rfl
  · rfl

theorem retains_release (n : NonceStore) (nonce : Digest) :
    (n.release nonce).retentionSeconds = n.retentionSeconds := by
  unfold NonceStore.release
  split
  · rfl
  · rfl

/-- **One section.**  The caller that moves in time keeps its own part of the invariant and disturbs
nobody. -/
theorem held_move (p : Threads.Pool (Shared T) RedeemPoint) (i time : ℕ) (t : RedeemPoint)
    (s' : Shared T) (t' : RedeemPoint) (hp : Threads.Inv Retains Local Apart p)
    (hok : Threads.locally inTime p (.advance i time : Threads.Act Redeem ℕ) = true)
    (ht : p.threads[i]? = some t) (hnext : redeemNext P time p.shared t = some (s', t')) :
    Retains s' ∧ Local s' t' ∧
      ∀ j u, j ≠ i → p.threads[j]? = some u → Local s' u ∧ Apart t' u := by
  have hlocal : Local p.shared t := hp.each i t ht
  have hinTime : inTime time p.shared t = true := Threads.ok_of_locally hok ht
  obtain ⟨hclock, v', hsection, rfl⟩ := redeemNext_eq_some hnext
  rcases redeemSection_cases hsection with ⟨hnonces, hpolicy, hheld, hmine⟩ |
    ⟨c, token, now, nonces, taken, rfl, hreserve, rfl, rfl⟩ | ⟨c, token, lockedAt, rfl, rfl, rfl⟩ |
    ⟨c, token, lockedAt, rfl, rfl, rfl⟩
  · refine ⟨?_, hmine p.shared rfl hclock hlocal, undisturbed hp ht hclock hpolicy hheld ?_⟩
    · show v'.nonces.retentionSeconds = v'.policy.epochSeconds
      rw [hnonces, hpolicy]
      exact hp.shared
    · intro u k settled _ _ _
      exact keeps_of_eq hnonces k settled
  · obtain ⟨hnow, _, _⟩ := id hlocal
    have hkeeps := keeps_reserve hnow hclock hreserve
    refine ⟨(retains_reserve hreserve).trans hp.shared, ?_⟩
    cases taken with
    | false =>
      exact ⟨trivial, undisturbed hp ht hclock rfl (Or.inl rfl) fun _ k settled _ _ _ =>
        hkeeps k settled⟩
    | true =>
      refine ⟨reserved_guarded hp.shared hlocal (of_decide_eq_true hinTime) hreserve, ?_⟩
      intro j u hj hu
      exact ⟨(hp.each j u hu).keep hclock rfl fun k settled _ _ => hkeeps k settled,
        reserved_apart (hp.each j u hu) hnow hclock hreserve⟩
  · refine ⟨(retains_commit _ _).trans hp.shared, ?_, undisturbed hp ht hclock rfl (Or.inr rfl)
      fun _ k settled _ _ _ => keeps_commit token.nonce k settled⟩
    refine ⟨Nat.le_trans hlocal.past hclock, hlocal.inTime, fun hlive => ?_⟩
    obtain ⟨state, expiry, hlookup, hexpiry, _⟩ := hlocal.entry (lt_of_le_of_lt hclock hlive)
    exact ⟨_, expiry, NonceStore.commit_lookup hlookup, hexpiry, fun _ => if_pos rfl⟩
  · refine ⟨(retains_release _ _).trans hp.shared, trivial,
      undisturbed hp ht hclock rfl (Or.inl rfl) fun u k settled hapart hk hg =>
        keeps_release fun hnonce => ?_⟩
    -- the scope of the caller is live, so it is the other one that had expired
    have hmine : time < c.presentation.scope.expiresAt := of_decide_eq_true hinTime
    have hpast : lockedAt ≤ p.shared.clock := hlocal.past
    have hother : k.lockedAt ≤ p.shared.clock := hg.past
    rcases hapart _ k rfl hk hnonce.symm with hexpired | hexpired
    · have hgone : c.presentation.scope.expiresAt ≤ k.lockedAt := hexpired
      omega
    · have hgone : k.scope.expiresAt ≤ lockedAt := hexpired
      exact Or.inl (by omega)

/-! ### Runs -/

variable (P) in
/-- Any schedule of concurrent calls of `redeem`; the label of a section is the time it happens. -/
def redeemStep : Threads.Pool (Shared T) RedeemPoint → Threads.Act Redeem ℕ →
    Option (Threads.Pool (Shared T) RedeemPoint) :=
  Threads.step RedeemPoint.entering (redeemNext P)

/-- The verifier before its first redemption: `new`, with whatever descriptors and keys were added. -/
def AnonymousVerifier.Unredeemed (v : AnonymousVerifier T) : Prop :=
  v.nonces = .new v.policy.maxNullifiers v.policy.epochSeconds

theorem removeScopes_nonces : ∀ (entries : List (AuthorizationScope × Bytes)) (v : AnonymousVerifier T),
    (entries.foldl AnonymousVerifier.removeScope v).nonces = v.nonces ∧
      (entries.foldl AnonymousVerifier.removeScope v).policy = v.policy := by
  intro entries
  induction entries with
  | nil => intro v; exact ⟨rfl, rfl⟩
  | cons entry entries ih => intro v; exact ih (v.removeScope entry)

theorem addDescriptor_unredeemed {v : AnonymousVerifier T} (hv : v.Unredeemed) (d : ScopeKeyDescriptor)
    (trustedIssuers : Finset NodeId) (now : ℕ) :
    (v.addDescriptor P d trustedIssuers now).1.Unredeemed := by
  have hpruned : (v.prune now).Unredeemed := by
    obtain ⟨hnonces, hpolicy⟩ := removeScopes_nonces (expired v.descriptors now) v
    show (v.prune now).nonces = .new (v.prune now).policy.maxNullifiers (v.prune now).policy.epochSeconds
    rw [AnonymousVerifier.prune, hnonces, hpolicy]
    exact hv
  unfold AnonymousVerifier.addDescriptor
  split
  · exact hv
  · dsimp only
    split
    · exact hpruned
    · split
      · exact hpruned
      · exact hpruned

/-- **One token, one redemption.**  In every run whose calls reserve and release in time, two calls that
have redeemed tokens in one scope have redeemed different nonces. -/
theorem redeemed_once (v : AnonymousVerifier T) (hv : v.Unredeemed) (clock : ℕ)
    (schedule : List (Threads.Act Redeem ℕ)) (p : Threads.Pool (Shared T) RedeemPoint)
    (hmeets : Runs.Meets (redeemStep P) (fun p a => Threads.locally inTime p a = true)
      ⟨⟨clock, v⟩, []⟩ schedule)
    (hrun : Runs.run (redeemStep P) ⟨⟨clock, v⟩, []⟩ schedule = some p) :
    ∀ (i j : ℕ) c d tokenC tokenD lockedC lockedD, i ≠ j →
      p.threads[i]? = some (.redeemed c tokenC lockedC) →
      p.threads[j]? = some (.redeemed d tokenD lockedD) →
      c.presentation.scope = d.presentation.scope → tokenC.nonce ≠ tokenD.nonce := by
  have hinitial : Threads.Inv Retains Local Apart
      (⟨⟨clock, v⟩, []⟩ : Threads.Pool (Shared T) RedeemPoint) :=
    Threads.inv_nil (congrArg NonceStore.retentionSeconds hv)
  have hfinal : Threads.Inv Retains Local Apart p := by
    refine Runs.run_invariant (fun q a q' hq hok hstep => ?_) schedule _ p hinitial hmeets hrun
    exact Threads.inv_step (fun q a => Threads.locally inTime q a = true)
      (fun _ _ h => h.symm) (fun _ _ _ => trivial) (fun c u h k hh => absurd hh (by simp [RedeemPoint.holding]))
      held_move hq hok hstep
  intro i j c d tokenC tokenD lockedC lockedD hij hi hj hscope hnonce
  have hc : Guarded p.shared ⟨c.presentation.scope, tokenC.nonce, lockedC⟩ true := hfinal.each i _ hi
  have hd : Guarded p.shared ⟨d.presentation.scope, tokenD.nonce, lockedD⟩ true := hfinal.each j _ hj
  have hcTime : lockedC < c.presentation.scope.expiresAt := hc.inTime
  have hdTime : lockedD < d.presentation.scope.expiresAt := hd.inTime
  rcases hfinal.apart i j _ _ hij hi hj _ _ rfl rfl hnonce with hexpired | hexpired
  · have hgone : c.presentation.scope.expiresAt ≤ lockedD := hexpired
    rw [← hscope] at hdTime
    omega
  · have hgone : d.presentation.scope.expiresAt ≤ lockedC := hexpired
    rw [hscope] at hcTime
    omega

/-! ### Sample runs -/

/-- A call that redeems a token with the given nonce in the first epoch. -/
def sampleRedeem (nonce : Bytes) : Redeem :=
  ⟨⟨sampleScope 0 [7], nonce ++
    (((sampleScope 0 [7]).challengeDigest sampleTokens).toOption.getD (compact.sha256 [])).bytes ++
    (sampleScope 0 [7]).issuerKeyId.bytes ++ List.replicate 258 0⟩, "mesh", "run"⟩

/-- What the sample verifier reads from it. -/
def sampleToken (nonce : Digest) : PublicToken :=
  ⟨nonce, ((sampleScope 0 [7]).challengeDigest sampleTokens).toOption.getD (compact.sha256 []),
    (sampleScope 0 [7]).issuerKeyId, List.replicate 258 0⟩

/-- The sample verifier with a key for the first epoch. -/
def issuingVerifier : AnonymousVerifier sampleTokens :=
  (sampleVerifier.addDescriptor compact (sampleDescriptor 0 [7]) {NodeId.derive compact [1]} 0).1

theorem issuingVerifier_unredeemed : issuingVerifier.Unredeemed :=
  addDescriptor_unredeemed (show sampleVerifier.Unredeemed from rfl) _ _ _

/-- A call made at `now` that reserves, verifies and settles at `clock`, as the `i`-th of the schedule. -/
def callAt (i : ℕ) (c : Redeem) (now clock : ℕ) : List (Threads.Act Redeem ℕ) :=
  .arrive c :: (List.replicate 4 (.advance i now) ++ List.replicate 4 (.advance i clock))

/-- Two tokens, one of them in the last second of the epoch. -/
theorem two_tokens_redeemed_in_time : ∃ p,
    issuingVerifier.Unredeemed ∧
    Runs.Meets (redeemStep compact) (fun p a => Threads.locally inTime p a = true)
      ⟨⟨0, issuingVerifier⟩, []⟩
      (callAt 0 (sampleRedeem (compact.sha256 [1]).bytes) 0 0 ++
        callAt 1 (sampleRedeem (compact.sha256 [2]).bytes) 9 9) ∧
    Runs.run (redeemStep compact) ⟨⟨0, issuingVerifier⟩, []⟩
      (callAt 0 (sampleRedeem (compact.sha256 [1]).bytes) 0 0 ++
        callAt 1 (sampleRedeem (compact.sha256 [2]).bytes) 9 9) = some p ∧
    p.threads.map RedeemPoint.returned = [some (.ok ()), some (.ok ())] ∧
    (sampleToken (compact.sha256 [1])).nonce ≠ (sampleToken (compact.sha256 [2])).nonce := by
  have heval : ((Runs.run (Runs.guarded (redeemStep compact) (Threads.locally inTime))
      ⟨⟨0, issuingVerifier⟩, []⟩
      (callAt 0 (sampleRedeem (compact.sha256 [1]).bytes) 0 0 ++
        callAt 1 (sampleRedeem (compact.sha256 [2]).bytes) 9 9)).map fun p => p.threads) =
      some [.redeemed (sampleRedeem (compact.sha256 [1]).bytes) (sampleToken (compact.sha256 [1])) 0,
        .redeemed (sampleRedeem (compact.sha256 [2]).bytes) (sampleToken (compact.sha256 [2])) 9] := by
    decide +kernel
  obtain ⟨p, hrun, hthreads⟩ := Option.map_eq_some_iff.mp heval
  obtain ⟨hmeets, hrun'⟩ := Runs.run_guarded _ _ p hrun
  refine ⟨p, issuingVerifier_unredeemed, hmeets, hrun', by rw [hthreads]; rfl, ?_⟩
  have hfirst : p.threads[0]? = some
      (.redeemed (sampleRedeem (compact.sha256 [1]).bytes) (sampleToken (compact.sha256 [1])) 0) := by
    rw [hthreads]; rfl
  have hsecond : p.threads[1]? = some
      (.redeemed (sampleRedeem (compact.sha256 [2]).bytes) (sampleToken (compact.sha256 [2])) 9) := by
    rw [hthreads]; rfl
  exact redeemed_once _ issuingVerifier_unredeemed 0 _ p hmeets hrun' 0 1 _ _ _ _ 0 9 (by decide)
    hfirst hsecond rfl

/-- **One token redeemed twice.**  The first call redeems it at 0 and its entry expires at 10.  The second
call reads 9 and passes the epoch check; `reserve` reads 10, drops the entry and takes the nonce again. -/
theorem redeemed_twice_at_expiry : ∃ p,
    issuingVerifier.Unredeemed ∧
    Runs.run (redeemStep compact) ⟨⟨0, issuingVerifier⟩, []⟩
      (callAt 0 (sampleRedeem (compact.sha256 [1]).bytes) 0 0 ++
        callAt 1 (sampleRedeem (compact.sha256 [1]).bytes) 9 10) = some p ∧
    p.threads = [.redeemed (sampleRedeem (compact.sha256 [1]).bytes) (sampleToken (compact.sha256 [1])) 0,
      .redeemed (sampleRedeem (compact.sha256 [1]).bytes) (sampleToken (compact.sha256 [1])) 10] := by
  have heval : ((Runs.run (redeemStep compact) ⟨⟨0, issuingVerifier⟩, []⟩
      (callAt 0 (sampleRedeem (compact.sha256 [1]).bytes) 0 0 ++
        callAt 1 (sampleRedeem (compact.sha256 [1]).bytes) 9 10)).map fun p => p.threads) =
      some [.redeemed (sampleRedeem (compact.sha256 [1]).bytes) (sampleToken (compact.sha256 [1])) 0,
        .redeemed (sampleRedeem (compact.sha256 [1]).bytes) (sampleToken (compact.sha256 [1])) 10] := by
    decide +kernel
  obtain ⟨p, hrun, hthreads⟩ := Option.map_eq_some_iff.mp heval
  exact ⟨p, issuingVerifier_unredeemed, hrun, hthreads⟩

end Peerless.Auth
