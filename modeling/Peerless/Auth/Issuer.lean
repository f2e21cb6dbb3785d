import Peerless.Auth.Scope
import Peerless.Node.Policy
import Peerless.Sample

/-!
# The blind issuer and the node's own access check

`AnonymousIssuer::issue`, which signs a blinded token for a member, and the comparison of its
membership test with `MemberAccess::allows`, the test the node makes on every request.  The node reads
its clock in milliseconds, the issuer in seconds; the node knows the permission `*`, the issuer does not.

* `issuer_agrees_iff` — the exact certificates, permissions and instants at which the two
  tests agree.
-/

namespace Peerless.Auth

open Text HashMap Peerless.Core Identity Chain Node

def maxRequestBytes : ℕ := 512

def publicRequestBytes : ℕ := 259

def publicResponseBytes : ℕ := 256

/-- `TokenType::Public` as it stands on the wire, big endian. -/
def tokenTypePublic : Bytes := [0, 2]

/-- The issuer's side of the token scheme: the RSA private keys and `private_decrypt` without padding. -/
structure IssuerPrimitives extends TokenPrimitives where
  PrivateKey : Type
  privateDecrypt : PrivateKey → Bytes → Option Bytes

structure BlindCredentialRequest where
  scope : AuthorizationScope
  request : Bytes
  deriving DecidableEq

structure AnonymousIssuer (T : IssuerPrimitives) where
  policy : CredentialPolicy
  keys : Map UInt8 T.PrivateKey
  descriptors : Map AuthorizationScope ScopeKeyDescriptor
  issuance : Map (NodeId × ℕ) ℕ

variable {T : IssuerPrimitives}

def AnonymousIssuer.new (policy : CredentialPolicy) : Except AnonymousAuthError (AnonymousIssuer T) :=
  match policy.validate with
  | .error err => .error err
  | .ok policy => .ok ⟨policy, ∅, ∅, ∅⟩

variable (P : Primitives)

/-- The membership and permission test of `issue`. -/
def authorise (membership : Membership) (trustedIssuers revokedMembers : Finset NodeId)
    (scope : AuthorizationScope) (now : ℕ) : Except AnonymousAuthError Unit :=
  if membership.member ∈ revokedMembers then .error .revoked
  else
    match membership.verify P trustedIssuers now with
    | .error _ => .error .unauthorizedMembership
    | .ok verified =>
      if verified = false ∨ membership.networkId ≠ scope.networkId ∨
          scope.permission ∉ membership.permissions then .error .unauthorizedMembership
      else .ok ()

/-- The checks of `issue` on the scope and the token request: the epoch they are for and the one-byte
id of the key that signs. -/
def AnonymousIssuer.envelope (s : AnonymousIssuer T) (request : BlindCredentialRequest) (now : ℕ) :
    Except AnonymousAuthError (ℕ × UInt8) :=
  match s.policy.epoch now with
  | .error err => .error err
  | .ok (expectedEpoch, expectedExpiry) =>
    if request.scope.epoch ≠ expectedEpoch ∨ request.scope.expiresAt ≠ expectedExpiry then
      .error .invalidScope
    else if request.request.length > maxRequestBytes then .error .invalidEncoding
    else
      match s.descriptors.lookup request.scope with
      | none => .error .invalidScope
      | some descriptor =>
        match keyId P descriptor.publicKey with
        | .error err => .error err
        | .ok id =>
          if id ≠ request.scope.issuerKeyId then .error .invalidScope
          else if request.request.length ≠ publicRequestBytes ∨
              request.request.take 2 ≠ tokenTypePublic then .error .invalidEncoding
          else
            match (T.fromSpki descriptor.publicKey).bind T.truncatedTokenKeyId with
            | none => .error .invalidEncoding
            | some expectedTruncated =>
              if request.request[2]? ≠ some expectedTruncated then .error .invalidScope
              else .ok (expectedEpoch, expectedTruncated)

/-- The counting block of `issue`: old epochs are dropped and the entry is made even if the limit is
reached. -/
def AnonymousIssuer.countIssue (s : AnonymousIssuer T) (member : NodeId) (expectedEpoch : ℕ) :
    AnonymousIssuer T × Except AnonymousAuthError Unit :=
  let kept := retain (fun key _ => key.2 ≥ expectedEpoch) s.issuance
  let count := (kept.lookup (member, expectedEpoch)).getD 0
  if count ≥ s.policy.maxIssuesPerMemberEpoch then
    ({ s with issuance := kept.insert (member, expectedEpoch) count }, .error .issuanceLimit)
  else ({ s with issuance := kept.insert (member, expectedEpoch) (count + 1) }, .ok ())

/-- The signature at the end of `issue`. -/
def AnonymousIssuer.blindSign (s : AnonymousIssuer T) (truncated : UInt8) (blinded : Bytes) :
    Except AnonymousAuthError Bytes :=
  match s.keys.lookup truncated with
  | none => .error .invalidScope
  | some privateKey =>
    match T.privateDecrypt privateKey blinded with
    | none => .error .verificationFailed
    | some response =>
      if response.length ≠ publicResponseBytes then .error .verificationFailed else .ok response

/-- The checks of `issue` before the count: the epoch and the id of the key that is to sign. -/
def AnonymousIssuer.checked (s : AnonymousIssuer T) (membership : Membership)
    (trustedIssuers revokedMembers : Finset NodeId) (request : BlindCredentialRequest) (now : ℕ) :
    Except AnonymousAuthError (ℕ × UInt8) :=
  match request.scope.validate with
  | .error err => .error err
  | .ok () =>
    match authorise P membership trustedIssuers revokedMembers request.scope now with
    | .error err => .error err
    | .ok () => s.envelope P request now

def AnonymousIssuer.issue (s : AnonymousIssuer T) (membership : Membership)
    (trustedIssuers revokedMembers : Finset NodeId) (request : BlindCredentialRequest) (now : ℕ) :
    AnonymousIssuer T × Except AnonymousAuthError Bytes :=
  match s.checked P membership trustedIssuers revokedMembers request now with
  | .error err => (s, .error err)
  | .ok (expectedEpoch, truncated) =>
    match s.countIssue membership.member expectedEpoch with
    | (s', .error err) => (s', .error err)
    | (s', .ok ()) => (s', s'.blindSign truncated (request.request.drop 3))

variable {P}

/-! ### The two tests -/

variable {m : Membership} {trusted revoked : Finset NodeId}

theorem authorise_ok_iff {scope : AuthorizationScope} {now : ℕ} :
    authorise P m trusted revoked scope now = .ok () ↔ m.member ∉ revoked ∧
      m.verify P trusted now = .ok true ∧ m.networkId = scope.networkId ∧
      scope.permission ∈ m.permissions := by
  rw [authorise]
  by_cases hrevoked : m.member ∈ revoked
  · simp [hrevoked]
  · rw [if_neg hrevoked]
    cases m.verify P trusted now with
    | error err => simp
    | ok verified => simp [hrevoked]

theorem allows_accessOf {permission : String} {now : ℕ} :
    (accessOf m).allows permission now = true ↔
      m.liveAt now = true ∧ ("*" ∈ m.permissions ∨ permission ∈ m.permissions) := by
  simp [MemberAccess.allows, accessOf, MemberAccess.liveAt, Membership.liveAt]

/-- A certificate that lives at an instant lives at every earlier one. -/
theorem liveAt_of_le {a b : ℕ} (hab : a ≤ b) (h : m.liveAt b = true) : m.liveAt a = true := by
  rw [Membership.liveAt] at h ⊢
  cases hexp : m.expiresAt with
  | none => rfl
  | some expiry =>
    rw [hexp] at h
    simp only [Option.all_some, gt_iff_lt, decide_eq_true_eq] at h ⊢
    omega

/-- Where the issuer and the node decide alike.  While the certificate lives, a `*` must not be the only
ground of the node; once it is over, the issuer's clock, read in seconds against an expiry in
milliseconds, must have passed it too. -/
def AgreesAt (m : Membership) (permission : String) (t : ℕ) : Prop :=
  (m.liveAt t = true → "*" ∈ m.permissions → permission ∈ m.permissions) ∧
    (m.liveAt t = false → permission ∈ m.permissions → m.liveAt (t / 1000) = false)

/-- **The issuer and the node agree exactly there.** -/
theorem issuer_agrees_iff {m : Membership} {trusted revoked : Finset NodeId} {scope : AuthorizationScope}
    (hsigned : m.Signed P) (htrusted : m.issuer ∈ trusted) (hrevoked : m.member ∉ revoked)
    (hnetwork : m.networkId = scope.networkId) (t : ℕ) :
    (authorise P m trusted revoked scope (t / 1000) = .ok () ↔
      (accessOf m).allows scope.permission t = true) ↔ AgreesAt m scope.permission t := by
  have hissuer : authorise P m trusted revoked scope (t / 1000) = .ok () ↔
      m.liveAt (t / 1000) = true ∧ scope.permission ∈ m.permissions := by
    rw [authorise_ok_iff, Membership.verify_eq_true_iff]
    constructor
    · intro ⟨_, ⟨_, _, hlive⟩, _, hperm⟩
      exact ⟨hlive, hperm⟩
    · intro ⟨hlive, hperm⟩
      exact ⟨hrevoked, ⟨htrusted, hsigned, hlive⟩, hnetwork, hperm⟩
  have hearlier : m.liveAt t = true → m.liveAt (t / 1000) = true :=
    liveAt_of_le (Nat.div_le_self t 1000)
  rw [hissuer, allows_accessOf, AgreesAt]
  cases hlive : m.liveAt t with
  | true =>
    rw [hearlier hlive]
    by_cases hperm : scope.permission ∈ m.permissions <;> simp [hperm]
  | false =>
    by_cases hperm : scope.permission ∈ m.permissions <;> simp [hperm]

/-- A certificate that the key string `[1]` signed for `[2]`; it expires ten seconds after the epoch. -/
def storageCertificate (permissions : List String) : Membership :=
  let unsigned : Membership :=
    { networkId := "net", member := Sample.member [2], issuer := Sample.member [1], permissions
      expiresAt := some 10000, issuerPublicKey := [1], signature := [] }
  { unsigned with signature := [1] ++ unsigned.payload }

/-- The scope of a permission in that network. -/
def storageScope (permission : String) : AuthorizationScope :=
  { version := 1, networkId := "net", permission, epoch := 0, expiresAt := 300
    issuerKeyId := Sample.primitives.sha256 [] }

theorem storageCertificate_signed (permissions : List String) :
    (storageCertificate permissions).Signed Sample.primitives := by
  refine ⟨rfl, ?_⟩
  show (Except.ok (decide _) : Except IdentityError Bool) = .ok true
  exact congrArg Except.ok (decide_eq_true rfl)

/-- Both tests pass five seconds in. -/
theorem live_storage_agrees :
    AgreesAt (storageCertificate ["storage"]) "storage" 5000 ∧
      (authorise Sample.primitives (storageCertificate ["storage"]) {Sample.member [1]} ∅
          (storageScope "storage") 5 = .ok () ↔
        (accessOf (storageCertificate ["storage"])).allows "storage" 5000 = true) := by
  have hagrees : AgreesAt (storageCertificate ["storage"]) "storage" 5000 :=
    ⟨fun _ _ => List.mem_singleton.mpr rfl, fun h => absurd h (by decide)⟩
  refine ⟨hagrees, ?_⟩
  exact (issuer_agrees_iff (storageCertificate_signed _) (Finset.mem_singleton_self _)
    (Finset.notMem_empty _) rfl 5000).mpr hagrees

/-- At the expiry the node refuses and the issuer, ten seconds into the epoch, still signs; and a
certificate for everything is enough for the node alone. -/
theorem issuer_and_node_differ :
    (authorise Sample.primitives (storageCertificate ["storage"]) {Sample.member [1]} ∅
        (storageScope "storage") (10000 / 1000) = .ok () ∧
      (accessOf (storageCertificate ["storage"])).allows "storage" 10000 = false) ∧
    (authorise Sample.primitives (storageCertificate ["*"]) {Sample.member [1]} ∅
        (storageScope "storage") (5000 / 1000) = .error .unauthorizedMembership ∧
      (accessOf (storageCertificate ["*"])).allows "storage" 5000 = true) := by
  decide +kernel

end Peerless.Auth
