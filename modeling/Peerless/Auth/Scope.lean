import Peerless.Identity
import Peerless.Lib.Wire
import Mathlib.Data.Finset.Insert

/-!
# Scopes, policies and descriptors

The public data of `peerless-anonymous-auth`: the authorization scope shared by an anonymity set, the
credential policy with its epochs, and the governance-signed descriptor that binds a token key to a
scope.  Blind RSA tokens come from `privacypass`; what the crate uses of it is a parameter
(`TokenPrimitives`).
-/

namespace Peerless.Auth

open Text JsonText Wire Peerless.Core Identity

def protocolVersion : ℕ := 1

def maxNetworkBytes : ℕ := 128

def maxPermissionBytes : ℕ := 128

def publicTokenBytes : ℕ := 354

def issuerName : String := "peerless-anonymous-auth"

inductive AnonymousAuthError where
  | invalidPolicy
  | invalidScope
  | unauthorizedMembership
  | revoked
  | issuanceLimit
  | keyLimit
  | expired
  | invalidEncoding
  | verificationFailed
  | replayOrCapacity
  deriving DecidableEq

/-- `u64::saturating_add`. -/
def saturatingAdd (a b : ℕ) : ℕ := min (a + b) (2 ^ 64 - 1)

/-! ### What `privacypass` provides -/

/-- The fields of a publicly verifiable token; the authenticator is read by `verifyToken` only. -/
structure PublicToken where
  nonce : Digest
  challengeDigest : Digest
  tokenKeyId : Digest
  authenticator : Bytes
  deriving DecidableEq

/-- Keys, tokens and challenges of `privacypass`. -/
structure TokenPrimitives where
  PublicKey : Type
  fromSpki : Bytes → Option PublicKey
  serializePublicKey : PublicKey → Option Bytes
  truncatedTokenKeyId : PublicKey → Option UInt8
  truncateTokenKeyId : Digest → UInt8
  tlsDeserialize : Bytes → Option (PublicToken × Bytes)
  challengeDigest : String → List Bytes → Option Digest
  verifyToken : PublicKey → PublicToken → Bool

/-! ### Scopes -/

structure AuthorizationScope where
  version : ℕ
  networkId : String
  permission : String
  epoch : ℕ
  expiresAt : ℕ
  issuerKeyId : Digest
  deriving DecidableEq

def AuthorizationScope.validate (s : AuthorizationScope) : Except AnonymousAuthError Unit :=
  if s.version ≠ protocolVersion ∨ s.networkId = "" ∨ s.networkId.utf8ByteSize > maxNetworkBytes ∨
      s.permission = "" ∨ s.permission.utf8ByteSize > maxPermissionBytes then .error .invalidScope
  else .ok ()

def AuthorizationScope.toJson (s : AuthorizationScope) : Json :=
  .obj [("version", natJson s.version), ("network_id", .str s.networkId),
    ("permission", .str s.permission), ("epoch", natJson s.epoch),
    ("expires_at", natJson s.expiresAt), ("issuer_key_id", s.issuerKeyId.toJson)]

/-- `AuthorizationScope::challenge` and its digest. -/
def AuthorizationScope.challengeDigest (T : TokenPrimitives) (s : AuthorizationScope) :
    Except AnonymousAuthError Digest :=
  match s.validate with
  | .error err => .error err
  | .ok () =>
    match T.challengeDigest issuerName [(write s.toJson).flatMap hexByte] with
    | none => .error .invalidScope
    | some digest => .ok digest

/-! ### Policies -/

structure CredentialPolicy where
  epochSeconds : ℕ
  maxIssuesPerMemberEpoch : ℕ
  maxActiveScopeKeys : ℕ
  maxNullifiers : ℕ
  deriving DecidableEq

def CredentialPolicy.default : CredentialPolicy := ⟨300, 32, 16, 100000⟩

def CredentialPolicy.validate (p : CredentialPolicy) : Except AnonymousAuthError CredentialPolicy :=
  if p.epochSeconds = 0 ∨ p.maxIssuesPerMemberEpoch = 0 ∨ p.maxActiveScopeKeys = 0 ∨
      p.maxActiveScopeKeys > 32 ∨ p.maxNullifiers = 0 then .error .invalidPolicy
  else .ok p

/-- The expiry of an epoch: `checked_add(1)` and `checked_mul(epoch_seconds)`. -/
def CredentialPolicy.expiry (p : CredentialPolicy) (epoch : ℕ) : Option ℕ :=
  (checkedAdd epoch 1).bind fun next => checkedMul next p.epochSeconds

def CredentialPolicy.epoch (p : CredentialPolicy) (now : ℕ) : Except AnonymousAuthError (ℕ × ℕ) :=
  match p.validate with
  | .error err => .error err
  | .ok _ =>
    match p.expiry (now / p.epochSeconds) with
    | none => .error .invalidScope
    | some expiresAt => .ok (now / p.epochSeconds, expiresAt)

example : CredentialPolicy.default.validate = .ok .default ∧
    CredentialPolicy.default.epoch 899 = .ok (2, 900) := by decide

variable {p : CredentialPolicy}

theorem CredentialPolicy.validate_pos {q : CredentialPolicy} (h : p.validate = .ok q) :
    0 < p.epochSeconds := by
  unfold CredentialPolicy.validate at h
  split at h
  · cases h
  · rename_i hvalid
    simp only [not_or] at hvalid
    exact Nat.pos_of_ne_zero hvalid.1

variable {expiresAt : ℕ}

theorem CredentialPolicy.expiry_eq_some {epoch : ℕ} (h : p.expiry epoch = some expiresAt) :
    expiresAt = (epoch + 1) * p.epochSeconds ∧ expiresAt < 2 ^ 64 := by
  obtain ⟨next, hnext, hmul⟩ := Option.bind_eq_some_iff.mp h
  unfold checkedAdd at hnext
  unfold checkedMul at hmul
  split at hnext
  · obtain rfl := Option.some.inj hnext
    split at hmul
    · rename_i hbound
      obtain rfl := Option.some.inj hmul
      exact ⟨rfl, hbound⟩
    · cases hmul
  · cases hnext

theorem CredentialPolicy.epoch_ok {now epoch : ℕ} (h : p.epoch now = .ok (epoch, expiresAt)) :
    0 < p.epochSeconds ∧ epoch = now / p.epochSeconds ∧
      expiresAt = (epoch + 1) * p.epochSeconds ∧ expiresAt < 2 ^ 64 := by
  unfold CredentialPolicy.epoch at h
  split at h
  · cases h
  · rename_i hvalid
    split at h
    · cases h
    · rename_i hexpiry
      simp only [Except.ok.injEq, Prod.mk.injEq] at h
      obtain ⟨rfl, rfl⟩ := h
      obtain ⟨heq, hbound⟩ := CredentialPolicy.expiry_eq_some hexpiry
      exact ⟨CredentialPolicy.validate_pos hvalid, rfl, heq, hbound⟩

/-- A time lies inside its epoch: an epoch's length before the expiry at the earliest. -/
theorem CredentialPolicy.epoch_contains {now epoch : ℕ} (h : p.epoch now = .ok (epoch, expiresAt)) :
    expiresAt ≤ now + p.epochSeconds ∧ now < expiresAt := by
  obtain ⟨hpos, rfl, rfl, _⟩ := CredentialPolicy.epoch_ok h
  have hlow := Nat.div_mul_le_self now p.epochSeconds
  have hhigh := Nat.lt_div_mul_add (a := now) hpos
  rw [Nat.add_mul, Nat.one_mul]
  omega

/-! ### Descriptors -/

structure ScopeKeyDescriptor where
  scope : AuthorizationScope
  publicKey : Bytes
  governanceIssuer : NodeId
  governancePublicKey : Bytes
  signature : Bytes
  deriving DecidableEq

/-- `ScopeKeyDescriptor::payload`: the signed bytes. -/
def ScopeKeyDescriptor.payload (d : ScopeKeyDescriptor) : Bytes :=
  write (.arr [d.scope.toJson, JsonText.bytes d.publicKey, d.governanceIssuer.toJson,
    JsonText.bytes d.governancePublicKey])

variable {P : Primitives}

def ScopeKeyDescriptor.issue (scope : AuthorizationScope) (publicKey : Bytes)
    (issuer : NodeIdentity P) : Except AnonymousAuthError ScopeKeyDescriptor :=
  let descriptor : ScopeKeyDescriptor :=
    ⟨scope, publicKey, issuer.nodeId, issuer.publicKeyDer, []⟩
  match issuer.sign descriptor.payload with
  | .error _ => .error .verificationFailed
  | .ok signature => .ok { descriptor with signature }

variable (P)

def ScopeKeyDescriptor.verify (d : ScopeKeyDescriptor) (trustedIssuers : Finset NodeId) :
    Except AnonymousAuthError Bool :=
  if d.governanceIssuer ∈ trustedIssuers ∧ NodeId.derive P d.governancePublicKey = d.governanceIssuer then
    (Identity.verify P d.governancePublicKey d.payload d.signature).mapError fun _ => .verificationFailed
  else .ok false

def keyId (publicKeyDer : Bytes) : Except AnonymousAuthError Digest :=
  if publicKeyDer.length > 1024 then .error .invalidEncoding else .ok (P.sha256 publicKeyDer)

end Peerless.Auth
