import Peerless.Auth.KeyMirror
import Peerless.Lib.Threads

/-!
# Concurrent redemptions

`AnonymousVerifier::redeem`, cut at its locks and clock readings: the caller reads the clock, `reserve`
reads it again, and between any two sections other calls may run.  A section happens at a time, and
time does not run backwards; the point a call has reached carries its local values.
-/

namespace Peerless.Auth

open Text HashMap Peerless.Core Identity Sample

variable {T : TokenPrimitives} {P : Primitives}

/-! ### The sections -/

/-- The clock and the verifier all calls share. -/
structure Shared (T : TokenPrimitives) where
  clock : ℕ
  verifier : AnonymousVerifier T

/-- The points of `redeem` between its sections.  A call that holds a nonce remembers when it locked the
store. -/
inductive RedeemPoint where
  | entering (c : Redeem)
  | called (c : Redeem) (now : ℕ)
  | scanning (c : Redeem) (now : ℕ)
  | pruning (c : Redeem) (entries : List (AuthorizationScope × Bytes))
  | unfiling (c : Redeem) (publicKeyDer : Bytes) (entries : List (AuthorizationScope × Bytes))
  | stamping (c : Redeem) (token : PublicToken)
  | reserving (c : Redeem) (token : PublicToken) (now : ℕ)
  | verifying (c : Redeem) (token : PublicToken) (lockedAt : ℕ)
  | settling (c : Redeem) (token : PublicToken) (lockedAt : ℕ) (verified : Bool)
  | redeemed (c : Redeem) (token : PublicToken) (lockedAt : ℕ)
  | refused (c : Redeem) (err : AnonymousAuthError)
  deriving DecidableEq

variable (P) in
/-- One section on the verifier, at the given time. -/
def AnonymousVerifier.redeemSection (v : AnonymousVerifier T) (time : ℕ) :
    RedeemPoint → Option (AnonymousVerifier T × RedeemPoint)
  -- the caller reads the clock
  | .entering c => some (v, .called c time)
  | .called c now =>
    match c.checkScope v.policy now with
    | .error err => some (v, .refused c err)
    | .ok () => some (v, .scanning c now)
  -- `prune`: the expired entries are collected, then removed one by one from both maps
  | .scanning c now => some (v, .pruning c (expired v.descriptors now))
  | .pruning c ((scope, publicKeyDer) :: entries) =>
    some ({ v with descriptors := v.descriptors.erase scope }, .unfiling c publicKeyDer entries)
  | .unfiling c publicKeyDer entries =>
    some ({ v with keys := v.keys.unfile publicKeyDer }, .pruning c entries)
  | .pruning c [] =>
    match c.checkToken P T v.descriptors with
    | .error err => some (v, .refused c err)
    | .ok token => some (v, .stamping c token)
  -- `reserve` reads the clock before it locks the store
  | .stamping c token => some (v, .reserving c token time)
  | .reserving c token now =>
    match v.nonces.reserve token.nonce now with
    | (nonces, false) => some ({ v with nonces }, .refused c .replayOrCapacity)
    | (nonces, true) => some ({ v with nonces }, .verifying c token time)
  | .verifying c token lockedAt => some (v, .settling c token lockedAt (v.keys.verifies token))
  | .settling c token lockedAt true =>
    some ({ v with nonces := v.nonces.commit token.nonce }, .redeemed c token lockedAt)
  | .settling c token _ false =>
    some ({ v with nonces := v.nonces.release token.nonce }, .refused c .verificationFailed)
  | .redeemed _ _ _ => none
  | .refused _ _ => none

variable (P) in
/-- The next section of a call, at a time that is not before the last one. -/
def redeemNext (time : ℕ) (s : Shared T) (t : RedeemPoint) : Option (Shared T × RedeemPoint) :=
  if time < s.clock then none
  else (s.verifier.redeemSection P time t).map fun r => (⟨time, r.1⟩, r.2)

/-! ### A call alone -/

/-- What a call has returned. -/
def RedeemPoint.returned : RedeemPoint → Option (Except AnonymousAuthError Unit)
  | .redeemed _ _ _ => some (.ok ())
  | .refused _ err => some (.error err)
  | _ => none

variable (P) in
/-- One section of a call while nobody else runs. -/
def Alone (x y : Shared T × RedeemPoint) : Prop := ∃ time, redeemNext P time x.1 x.2 = some y

theorem alone_of_section {s : Shared T} {t t' : RedeemPoint} {v' : AnonymousVerifier T} {time : ℕ}
    (hclock : s.clock ≤ time) (h : s.verifier.redeemSection P time t = some (v', t')) :
    Alone P (s, t) (⟨time, v'⟩, t') := by
  refine ⟨time, ?_⟩
  unfold redeemNext
  rw [if_neg (not_lt.mpr hclock), h]
  rfl

theorem alone_prune (c : Redeem) (now : ℕ) : ∀ (entries : List (AuthorizationScope × Bytes))
    (v : AnonymousVerifier T), Relation.ReflTransGen (Alone P) (⟨now, v⟩, .pruning c entries)
      (⟨now, entries.foldl AnonymousVerifier.removeScope v⟩, .pruning c []) := by
  intro entries
  induction entries with
  | nil => intro v; exact .refl
  | cons entry entries ih =>
    intro v
    refine .head (alone_of_section (le_refl now) rfl) (.head (alone_of_section (le_refl now) rfl) ?_)
    exact ih (v.removeScope entry)

/-- The sections after the token is checked: `redeem_token`. -/
theorem alone_token {v : AnonymousVerifier T} {c : Redeem} {token : PublicToken} {now clock : ℕ}
    (hclock : now ≤ clock) {nonces : NonceStore}
    (hreserve : v.nonces.reserve token.nonce clock = (nonces, true)) :
    Relation.ReflTransGen (Alone P) (⟨now, v⟩, .stamping c token)
      (⟨clock, { v with nonces }⟩, .settling c token clock (v.keys.verifies token)) := by
  have hreserved : v.redeemSection P clock (.reserving c token clock) =
      some ({ v with nonces }, .verifying c token clock) := by
    rw [AnonymousVerifier.redeemSection, hreserve]
  refine .head (alone_of_section hclock rfl) (.head (alone_of_section (le_refl clock) hreserved) ?_)
  exact .single (alone_of_section (le_refl clock) rfl)

/-- **A call that nobody interrupts computes `redeem`.** -/
theorem alone_redeem (v : AnonymousVerifier T) (c : Redeem) {start now clock : ℕ} (hstart : start ≤ now)
    (hclock : now ≤ clock) : ∃ time t, t.returned = some (v.redeem P c now clock).2 ∧
      Relation.ReflTransGen (Alone P) (⟨start, v⟩, .entering c)
        (⟨time, (v.redeem P c now clock).1⟩, t) := by
  have henter : Relation.ReflTransGen (Alone P) (⟨start, v⟩, .entering c) (⟨now, v⟩, .called c now) :=
    .single (alone_of_section hstart rfl)
  unfold AnonymousVerifier.redeem
  cases hscope : c.checkScope v.policy now with
  | error err =>
    refine ⟨now, .refused c err, rfl, henter.tail (alone_of_section (le_refl now) ?_)⟩
    rw [AnonymousVerifier.redeemSection, hscope]
  | ok _ =>
    have hcalled : Alone P (⟨now, v⟩, .called c now) (⟨now, v⟩, .scanning c now) := by
      refine alone_of_section (le_refl now) ?_
      rw [AnonymousVerifier.redeemSection, hscope]
    have hpruned : Relation.ReflTransGen (Alone P) (⟨start, v⟩, .entering c)
        (⟨now, v.prune now⟩, .pruning c []) :=
      ((henter.tail hcalled).tail (alone_of_section (le_refl now) rfl)).trans (alone_prune c now _ v)
    dsimp only
    cases htoken : c.checkToken P T (v.prune now).descriptors with
    | error err =>
      refine ⟨now, .refused c err, rfl, hpruned.tail (alone_of_section (le_refl now) ?_)⟩
      rw [AnonymousVerifier.redeemSection, htoken]
    | ok token =>
      have hchecked : Relation.ReflTransGen (Alone P) (⟨start, v⟩, .entering c)
          (⟨now, v.prune now⟩, .stamping c token) := by
        refine hpruned.tail (alone_of_section (le_refl now) ?_)
        rw [AnonymousVerifier.redeemSection, htoken]
      dsimp only
      rcases hreserve : (v.prune now).nonces.reserve token.nonce clock with ⟨nonces, taken⟩
      cases taken with
      | false =>
        refine ⟨clock, .refused c .replayOrCapacity, rfl, (hchecked.tail
          (alone_of_section hclock rfl)).tail (alone_of_section (le_refl clock) ?_)⟩
        rw [AnonymousVerifier.redeemSection, hreserve]
      | true =>
        have hverified := hchecked.trans (alone_token (P := P) (c := c) hclock hreserve)
        dsimp only
        cases hkey : (v.prune now).keys.verifies token with
        | true =>
          rw [hkey] at hverified
          exact ⟨clock, .redeemed c token clock, rfl,
            hverified.tail (alone_of_section (le_refl clock) rfl)⟩
        | false =>
          rw [hkey] at hverified
          exact ⟨clock, .refused c .verificationFailed, rfl,
            hverified.tail (alone_of_section (le_refl clock) rfl)⟩

end Peerless.Auth
