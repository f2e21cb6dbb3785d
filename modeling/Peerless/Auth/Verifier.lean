import Peerless.Auth.Scope
import Peerless.Lib.HashMap

/-!
# The offline verifier

`AnonymousVerifier` with its two stores: the public keys filed under one byte of their id, and the
nonces of redeemed tokens, each kept for one epoch from its reservation.
-/

namespace Peerless.Auth

open Text HashMap Peerless.Core Identity

variable {T : TokenPrimitives}

/-! ### The key store -/

/-- `MemoryOriginKeyStore`. -/
abbrev OriginKeys (T : TokenPrimitives) := Map UInt8 (List T.PublicKey)

/-- `MemoryOriginKeyStore::remove_exact`: a key that does not serialize stays. -/
def OriginKeys.removeExact (keys : OriginKeys T) (id : UInt8) (expectedDer : Bytes) : OriginKeys T :=
  retainAt keys id fun key => T.serializePublicKey key ≠ some expectedDer

/-! ### The nonce store -/

inductive NonceState where
  | reserved
  | committed
  deriving DecidableEq

/-- `BoundedNonceStore`. -/
structure NonceStore where
  values : Map Digest (NonceState × ℕ)
  maxEntries : ℕ
  retentionSeconds : ℕ

def NonceStore.new (maxEntries retentionSeconds : ℕ) : NonceStore := ⟨∅, maxEntries, retentionSeconds⟩

/-- `BoundedNonceStore::reserve`, with the clock it read. -/
def NonceStore.reserve (n : NonceStore) (nonce : Digest) (now : ℕ) : NonceStore × Bool :=
  let kept := retain (fun _ entry => entry.2 > now) n.values
  if (kept.lookup nonce).isSome ∨ size kept ≥ n.maxEntries then ({ n with values := kept }, false)
  else ({ n with values := kept.insert nonce (.reserved, saturatingAdd now n.retentionSeconds) }, true)

/-- `BoundedNonceStore::commit`. -/
def NonceStore.commit (n : NonceStore) (nonce : Digest) : NonceStore :=
  match n.values.lookup nonce with
  | none => n
  | some entry => { n with values := n.values.insert nonce (.committed, entry.2) }

/-- `BoundedNonceStore::release`. -/
def NonceStore.release (n : NonceStore) (nonce : Digest) : NonceStore :=
  match n.values.lookup nonce with
  | some (.reserved, _) => { n with values := n.values.erase nonce }
  | _ => n

/-! ### The verifier -/

structure AnonymousVerifier (T : TokenPrimitives) where
  policy : CredentialPolicy
  keys : OriginKeys T
  descriptors : Map AuthorizationScope ScopeKeyDescriptor
  nonces : NonceStore

def AnonymousVerifier.new (policy : CredentialPolicy) :
    Except AnonymousAuthError (AnonymousVerifier T) :=
  match policy.validate with
  | .error err => .error err
  | .ok policy => .ok ⟨policy, ∅, ∅, .new policy.maxNullifiers policy.epochSeconds⟩

/-- The expired scopes with their keys, as `prune` collects them. -/
def expired (descriptors : Map AuthorizationScope ScopeKeyDescriptor) (now : ℕ) :
    List (AuthorizationScope × Bytes) :=
  descriptors.entries.filterMap fun e => if e.1.expiresAt ≤ now then some (e.1, e.2.publicKey) else none

/-- The keys without the one a descriptor named. -/
def OriginKeys.unfile (keys : OriginKeys T) (publicKeyDer : Bytes) : OriginKeys T :=
  match T.fromSpki publicKeyDer with
  | none => keys
  | some publicKey =>
    match T.truncatedTokenKeyId publicKey with
    | none => keys
    | some id => keys.removeExact id publicKeyDer

/-- One round of the loop of `prune`. -/
def AnonymousVerifier.removeScope (v : AnonymousVerifier T) (entry : AuthorizationScope × Bytes) :
    AnonymousVerifier T :=
  { v with descriptors := v.descriptors.erase entry.1, keys := v.keys.unfile entry.2 }

def AnonymousVerifier.prune (v : AnonymousVerifier T) (now : ℕ) : AnonymousVerifier T :=
  (expired v.descriptors now).foldl AnonymousVerifier.removeScope v

variable (P : Primitives)

/-- The checks of `add_descriptor` before it touches the stores; what it then files. -/
def AnonymousVerifier.checkDescriptor (v : AnonymousVerifier T) (d : ScopeKeyDescriptor)
    (trustedIssuers : Finset NodeId) (now : ℕ) : Except AnonymousAuthError (UInt8 × T.PublicKey) :=
  match d.scope.validate, v.policy.expiry d.scope.epoch with
  | .error err, _ => .error err
  | .ok (), none => .error .invalidScope
  | .ok (), some expectedExpiry =>
    if d.scope.expiresAt ≠ expectedExpiry then .error .invalidScope
    else if d.scope.expiresAt ≤ now then .error .expired
    else
      match d.verify P trustedIssuers with
      | .error err => .error err
      | .ok false => .error .unauthorizedMembership
      | .ok true =>
        match keyId P d.publicKey with
        | .error err => .error err
        | .ok id =>
          if id ≠ d.scope.issuerKeyId then .error .invalidScope
          else
            match T.fromSpki d.publicKey with
            | none => .error .invalidEncoding
            | some publicKey =>
              match T.truncatedTokenKeyId publicKey with
              | none => .error .invalidEncoding
              | some truncated => .ok (truncated, publicKey)

def AnonymousVerifier.addDescriptor (v : AnonymousVerifier T) (d : ScopeKeyDescriptor)
    (trustedIssuers : Finset NodeId) (now : ℕ) :
    AnonymousVerifier T × Except AnonymousAuthError Unit :=
  match v.checkDescriptor P d trustedIssuers now with
  | .error err => (v, .error err)
  | .ok (truncated, publicKey) =>
    let pruned := v.prune now
    match pruned.descriptors.lookup d.scope with
    | some existing => (pruned, if existing = d then .ok () else .error .invalidScope)
    | none =>
      if size pruned.descriptors ≥ v.policy.maxActiveScopeKeys then (pruned, .error .keyLimit)
      else
        ({ pruned with descriptors := pruned.descriptors.insert d.scope d
                       keys := push pruned.keys truncated publicKey }, .ok ())

/-! ### `redeem` -/

structure AnonymousPresentation where
  scope : AuthorizationScope
  token : Bytes
  deriving DecidableEq

/-- A call of `redeem` without its time. -/
structure Redeem where
  presentation : AnonymousPresentation
  expectedNetwork : String
  expectedPermission : String
  deriving DecidableEq

/-- The checks of `redeem` on the scope and the time. -/
def Redeem.checkScope (c : Redeem) (policy : CredentialPolicy) (now : ℕ) :
    Except AnonymousAuthError Unit :=
  match c.presentation.scope.validate with
  | .error err => .error err
  | .ok () =>
    if c.presentation.scope.networkId ≠ c.expectedNetwork ∨
        c.presentation.scope.permission ≠ c.expectedPermission then .error .invalidScope
    else
      match policy.epoch now with
      | .error err => .error err
      | .ok (epoch, expiry) =>
        if c.presentation.scope.epoch ≠ epoch ∨ c.presentation.scope.expiresAt ≠ expiry then
          .error .expired
        else .ok ()

/-- `decode_exact` for a token. -/
def decodeToken (T : TokenPrimitives) (bytes : Bytes) (maximum : ℕ) :
    Except AnonymousAuthError PublicToken :=
  if bytes.isEmpty ∨ bytes.length > maximum then .error .invalidEncoding
  else
    match T.tlsDeserialize bytes with
    | some (token, []) => .ok token
    | _ => .error .invalidEncoding

/-- The checks of `redeem` on the token, given the descriptors. -/
def Redeem.checkToken (T : TokenPrimitives) (c : Redeem)
    (descriptors : Map AuthorizationScope ScopeKeyDescriptor) : Except AnonymousAuthError PublicToken :=
  if c.presentation.token.length ≠ publicTokenBytes then .error .invalidEncoding
  else
    match descriptors.lookup c.presentation.scope with
    | none => .error .invalidScope
    | some descriptor =>
      match keyId P descriptor.publicKey with
      | .error err => .error err
      | .ok id =>
        if id ≠ c.presentation.scope.issuerKeyId then .error .invalidScope
        else
          match decodeToken T c.presentation.token publicTokenBytes with
          | .error err => .error err
          | .ok token =>
            if token.tokenKeyId ≠ c.presentation.scope.issuerKeyId then .error .invalidScope
            else
              match c.presentation.scope.challengeDigest T with
              | .error err => .error err
              | .ok expectedDigest =>
                if token.challengeDigest ≠ expectedDigest then .error .invalidScope else .ok token

/-- The signature check of `redeem_token`: any key under the token's truncated id. -/
def OriginKeys.verifies (keys : OriginKeys T) (token : PublicToken) : Bool :=
  ((keys.lookup (T.truncateTokenKeyId token.tokenKeyId)).getD []).any fun key => T.verifyToken key token

/-- `AnonymousVerifier::redeem` without interruption; `clock` is the reading of `reserve`. -/
def AnonymousVerifier.redeem (v : AnonymousVerifier T) (c : Redeem) (now clock : ℕ) :
    AnonymousVerifier T × Except AnonymousAuthError Unit :=
  match c.checkScope v.policy now with
  | .error err => (v, .error err)
  | .ok () =>
    let pruned := v.prune now
    match c.checkToken P T pruned.descriptors with
    | .error err => (pruned, .error err)
    | .ok token =>
      match pruned.nonces.reserve token.nonce clock with
      | (nonces, false) => ({ pruned with nonces }, .error .replayOrCapacity)
      | (nonces, true) =>
        if pruned.keys.verifies token then
          ({ pruned with nonces := nonces.commit token.nonce }, .ok ())
        else ({ pruned with nonces := nonces.release token.nonce }, .error .verificationFailed)

variable {P}

/-! ### What the calls change -/

theorem mem_expired {descriptors : Map AuthorizationScope ScopeKeyDescriptor} {now : ℕ}
    {entry : AuthorizationScope × Bytes} : entry ∈ expired descriptors now ↔
      entry.1.expiresAt ≤ now ∧ ∃ d, descriptors.lookup entry.1 = some d ∧ d.publicKey = entry.2 := by
  simp only [expired, List.mem_filterMap]
  constructor
  · rintro ⟨⟨scope, d⟩, hmem, hentry⟩
    split at hentry
    · obtain rfl := Option.some.inj hentry
      exact ⟨‹_›, d, mem_entries_iff.mp hmem, rfl⟩
    · cases hentry
  · rintro ⟨hexpired, d, hlookup, hkey⟩
    refine ⟨⟨entry.1, d⟩, mem_entries_iff.mpr hlookup, ?_⟩
    rw [if_pos hexpired, hkey]

theorem nodup_expired (descriptors : Map AuthorizationScope ScopeKeyDescriptor) (now : ℕ) :
    ((expired descriptors now).map Prod.fst).Nodup := by
  have hkeys : ((expired descriptors now).map Prod.fst).Sublist (descriptors.entries.map Sigma.fst) := by
    unfold expired
    generalize descriptors.entries = entries
    induction entries with
    | nil => exact List.Sublist.refl _
    | cons e entries ih =>
      rw [List.filterMap_cons]
      split
      · exact ih.cons _
      · rename_i pair hpair
        split at hpair
        · obtain rfl := Option.some.inj hpair
          exact ih.cons_cons _
        · cases hpair
  exact hkeys.nodup descriptors.nodupKeys

theorem removeScopes_lookup (scope : AuthorizationScope) :
    ∀ (entries : List (AuthorizationScope × Bytes)) (v : AnonymousVerifier T),
      (entries.foldl AnonymousVerifier.removeScope v).descriptors.lookup scope =
        if scope ∈ entries.map Prod.fst then none else v.descriptors.lookup scope := by
  intro entries
  induction entries with
  | nil => intro v; rfl
  | cons e entries ih =>
    intro v
    rw [List.foldl_cons, ih, List.map_cons]
    by_cases hmem : scope ∈ entries.map Prod.fst
    · rw [if_pos hmem, if_pos (List.mem_cons_of_mem _ hmem)]
    · rw [if_neg hmem]
      show (v.descriptors.erase e.1).lookup scope = _
      by_cases hscope : scope = e.1
      · rw [hscope, AList.lookup_erase, if_pos (List.mem_cons_self ..)]
      · rw [AList.lookup_erase_ne hscope, if_neg]
        exact fun h => (List.mem_cons.mp h).elim hscope hmem

theorem prune_lookup (v : AnonymousVerifier T) (now : ℕ) (scope : AuthorizationScope) :
    (v.prune now).descriptors.lookup scope =
      if now < scope.expiresAt then v.descriptors.lookup scope else none := by
  rw [AnonymousVerifier.prune, removeScopes_lookup]
  have hmem : scope ∈ (expired v.descriptors now).map Prod.fst ↔
      scope.expiresAt ≤ now ∧ ∃ d, v.descriptors.lookup scope = some d := by
    rw [List.mem_map]
    constructor
    · rintro ⟨entry, hentry, rfl⟩
      obtain ⟨hexpired, d, hlookup, _⟩ := mem_expired.mp hentry
      exact ⟨hexpired, d, hlookup⟩
    · rintro ⟨hexpired, d, hlookup⟩
      exact ⟨(scope, d.publicKey), mem_expired.mpr ⟨hexpired, d, hlookup, rfl⟩, rfl⟩
  by_cases hlive : now < scope.expiresAt
  · rw [if_neg (fun h => absurd (hmem.mp h).1 (not_le.mpr hlive)), if_pos hlive]
  · rw [if_neg hlive]
    split
    · rfl
    · rename_i hkept
      rcases Option.eq_none_or_eq_some (v.descriptors.lookup scope) with hnone | ⟨d, hd⟩
      · exact hnone
      · exact absurd (hmem.mpr ⟨not_lt.mp hlive, d, hd⟩) hkept

end Peerless.Auth
