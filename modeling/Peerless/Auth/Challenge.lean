import Peerless.Auth.Issuer
import Peerless.Auth.Verifier
import Peerless.Lib.Slots

/-!
# The issuer's keys

`AnonymousIssuer::challenge`, which hands out the key of a permission's current epoch and generates it
if there is none, and `AnonymousIssuer::prune`.  The private keys are filed under one byte of their id;
a generated key whose id is taken is thrown away and drawn again, up to a hundred times.  What
`Rsa::generate` draws is an argument.
-/

namespace Peerless.Auth

open Text HashMap Wire Peerless.Core Identity

/-- The generation of keys: the public half of a private key, by way of its PKCS#1 form. -/
structure GeneratorPrimitives extends IssuerPrimitives where
  publicKeyOf : PrivateKey → Option PublicKey

/-- **A serialized public key reads back.** -/
def GeneratorPrimitives.Lawful (T : GeneratorPrimitives) : Prop :=
  ∀ publicKey der, T.serializePublicKey publicKey = some der → T.fromSpki der = some publicKey

structure AnonymousChallenge where
  scope : AuthorizationScope
  issuerPublicKey : Bytes
  governanceIssuer : NodeId
  governancePublicKey : Bytes
  descriptorSignature : Bytes
  deriving DecidableEq

/-- The challenge of a descriptor. -/
def ScopeKeyDescriptor.asChallenge (d : ScopeKeyDescriptor) : AnonymousChallenge :=
  ⟨d.scope, d.publicKey, d.governanceIssuer, d.governancePublicKey, d.signature⟩

def validatePublicClass (networkId permission : String) : Except AnonymousAuthError Unit :=
  if networkId = "" ∨ networkId.utf8ByteSize > maxNetworkBytes ∨ permission = "" ∨
      permission.utf8ByteSize > maxPermissionBytes then .error .invalidScope
  else .ok ()

/-- The one-byte id a serialized public key is filed under. -/
def truncatedOf (T : TokenPrimitives) (publicKeyDer : Bytes) : Option UInt8 :=
  (T.fromSpki publicKeyDer).bind T.truncatedTokenKeyId

variable {T : GeneratorPrimitives}

/-- The bytes of the public half of a private key. -/
def publicDer (key : T.PrivateKey) : Option Bytes := (T.publicKeyOf key).bind T.serializePublicKey

namespace AnonymousIssuer

/-! ### `prune` -/

/-- The removal of a key by the bytes of its public half. -/
def dropKey (s : AnonymousIssuer T.toIssuerPrimitives) (publicKeyDer : Bytes) :
    AnonymousIssuer T.toIssuerPrimitives :=
  match truncatedOf T.toTokenPrimitives publicKeyDer with
  | none => s
  | some id => { s with keys := s.keys.erase id }

def dropDescriptor (s : AnonymousIssuer T.toIssuerPrimitives) (scope : AuthorizationScope) :
    AnonymousIssuer T.toIssuerPrimitives :=
  { s with descriptors := s.descriptors.erase scope }

def dropCounts (s : AnonymousIssuer T.toIssuerPrimitives) (now : ℕ) :
    AnonymousIssuer T.toIssuerPrimitives :=
  match s.policy.epoch now with
  | .error _ => s
  | .ok (epoch, _) => { s with issuance := retain (fun key _ => key.2 ≥ epoch) s.issuance }

/-- One round of the loop of `prune`. -/
def dropScope (s : AnonymousIssuer T.toIssuerPrimitives) (entry : AuthorizationScope × Bytes) :
    AnonymousIssuer T.toIssuerPrimitives :=
  (s.dropKey entry.2).dropDescriptor entry.1

def prune (s : AnonymousIssuer T.toIssuerPrimitives) (now : ℕ) : AnonymousIssuer T.toIssuerPrimitives :=
  ((expired s.descriptors now).foldl dropScope s).dropCounts now

/-! ### `challenge` -/

/-- The stored descriptor of a permission's epoch. -/
def existing (s : AnonymousIssuer T.toIssuerPrimitives) (networkId permission : String)
    (epoch expiresAt : ℕ) : Option ScopeKeyDescriptor :=
  (vals s.descriptors).find? fun d => d.scope.networkId = networkId ∧ d.scope.permission = permission ∧
    d.scope.epoch = epoch ∧ d.scope.expiresAt = expiresAt

/-- One draw of the generation loop: the id of the key and the bytes of its public half. -/
def draw (generated : Option T.PrivateKey) :
    Except AnonymousAuthError (UInt8 × Bytes × T.PrivateKey) :=
  match generated with
  | none => .error .verificationFailed
  | some privateKey =>
    match T.publicKeyOf privateKey with
    | none => .error .verificationFailed
    | some publicKey =>
      match T.serializePublicKey publicKey, T.truncatedTokenKeyId publicKey with
      | some der, some truncated => .ok (truncated, der, privateKey)
      | _, _ => .error .verificationFailed

/-- `OpenSslIssuerKeys::insert`: a taken id is left alone. -/
def insertKey (s : AnonymousIssuer T.toIssuerPrimitives) (id : UInt8) (key : T.PrivateKey) :
    AnonymousIssuer T.toIssuerPrimitives × Bool :=
  if (s.keys.lookup id).isSome then (s, false) else ({ s with keys := s.keys.insert id key }, true)

/-- The generation loop, over what its turns draw. -/
def generate (s : AnonymousIssuer T.toIssuerPrimitives) : List (Option T.PrivateKey) →
    AnonymousIssuer T.toIssuerPrimitives × Except AnonymousAuthError Bytes
  | [] => (s, .error .keyLimit)
  | generated :: rest =>
    match draw generated with
    | .error err => (s, .error err)
    | .ok (truncated, der, privateKey) =>
      match s.insertKey truncated privateKey with
      | (s', true) => (s', .ok der)
      | (s', false) => generate s' rest

end AnonymousIssuer

variable {P : Primitives}

/-- The descriptor `challenge` makes for a new key. -/
def describe (issuer : NodeIdentity P) (networkId permission : String) (epoch expiresAt : ℕ)
    (publicKeyDer : Bytes) : Except AnonymousAuthError ScopeKeyDescriptor :=
  let scope : AuthorizationScope :=
    ⟨protocolVersion, networkId, permission, epoch, expiresAt, P.sha256 publicKeyDer⟩
  match scope.validate with
  | .error err => .error err
  | .ok () => ScopeKeyDescriptor.issue scope publicKeyDer issuer

/-- `AnonymousIssuer::challenge`; `draws` is what `Rsa::generate` returns, turn by turn. -/
def AnonymousIssuer.challenge (s : AnonymousIssuer T.toIssuerPrimitives) (issuer : NodeIdentity P)
    (networkId permission : String) (now : ℕ) (draws : ℕ → Option T.PrivateKey) :
    AnonymousIssuer T.toIssuerPrimitives × Except AnonymousAuthError AnonymousChallenge :=
  match validatePublicClass networkId permission with
  | .error err => (s, .error err)
  | .ok () =>
    let s := s.prune now
    match s.policy.epoch now with
    | .error err => (s, .error err)
    | .ok (epoch, expiresAt) =>
      match s.existing networkId permission epoch expiresAt with
      | some d => (s, .ok d.asChallenge)
      | none =>
        if size s.descriptors ≥ s.policy.maxActiveScopeKeys then (s, .error .keyLimit)
        else
          match s.generate ((List.range 100).map draws) with
          | (s, .error err) => (s, .error err)
          | (s, .ok publicKeyDer) =>
            match describe issuer networkId permission epoch expiresAt publicKeyDer with
            | .error err => (s, .error err)
            | .ok d => ({ s with descriptors := s.descriptors.insert d.scope d }, .ok d.asChallenge)

/-! ### New keys -/

open AnonymousIssuer

/-- **What a draw gives**: a key, the bytes of its public half, and the id these bytes are filed under. -/
theorem draw_ok (hT : T.Lawful) {generated : Option T.PrivateKey} {id : UInt8} {der : Bytes}
    {key : T.PrivateKey} (h : draw generated = .ok (id, der, key)) :
    publicDer key = some der ∧ truncatedOf T.toTokenPrimitives der = some id := by
  unfold draw at h
  split at h
  · cases h
  · split at h
    · cases h
    · rename_i publicKey hpublic
      split at h
      · rename_i der' id' hder hid
        simp only [Except.ok.injEq, Prod.mk.injEq] at h
        obtain ⟨rfl, rfl, rfl⟩ := h
        constructor
        · rw [publicDer, hpublic]
          exact hder
        · rw [truncatedOf, hT publicKey der' hder]
          exact hid
      · cases h

theorem insertKey_cases (s : AnonymousIssuer T.toIssuerPrimitives) (id : UInt8) (key : T.PrivateKey) :
    ((s.keys.lookup id).isSome ∧ s.insertKey id key = (s, false)) ∨
      (s.keys.lookup id = none ∧
        s.insertKey id key = ({ s with keys := s.keys.insert id key }, true)) := by
  rw [insertKey]
  cases hlookup : s.keys.lookup id with
  | none => exact Or.inr ⟨rfl, rfl⟩
  | some other => exact Or.inl ⟨rfl, rfl⟩

/-- **A generated key is filed under its own id, which was free**; otherwise nothing changes. -/
theorem generate_cases (hT : T.Lawful) (s : AnonymousIssuer T.toIssuerPrimitives)
    (draws : List (Option T.PrivateKey)) :
    (∃ err, s.generate draws = (s, .error err)) ∨
      ∃ id der key, s.keys.lookup id = none ∧ publicDer key = some der ∧
        truncatedOf T.toTokenPrimitives der = some id ∧
        s.generate draws = ({ s with keys := s.keys.insert id key }, .ok der) := by
  induction draws with
  | nil => exact Or.inl ⟨.keyLimit, rfl⟩
  | cons generated rest ih =>
    rw [generate]
    cases hdraw : draw generated with
    | error err => exact Or.inl ⟨err, rfl⟩
    | ok drawn =>
      obtain ⟨id, der, key⟩ := drawn
      obtain ⟨hder, hid⟩ := draw_ok hT hdraw
      dsimp only
      rcases insertKey_cases s id key with ⟨_, hinsert⟩ | ⟨hfree, hinsert⟩
      · rw [hinsert]
        exact ih
      · rw [hinsert]
        exact Or.inr ⟨id, der, key, hfree, hder, hid, rfl⟩

/-- The scope of a descriptor is valid and names its key. -/
def ScopeKeyDescriptor.Described (P : Primitives) (d : ScopeKeyDescriptor) : Prop :=
  d.scope.validate = .ok () ∧ d.scope.issuerKeyId = P.sha256 d.publicKey

theorem describe_ok {issuer : NodeIdentity P} {networkId permission : String} {epoch expiresAt : ℕ}
    {publicKeyDer : Bytes} {d : ScopeKeyDescriptor}
    (h : describe issuer networkId permission epoch expiresAt publicKeyDer = .ok d) :
    d.scope = ⟨protocolVersion, networkId, permission, epoch, expiresAt, P.sha256 publicKeyDer⟩ ∧
      d.publicKey = publicKeyDer ∧ d.Described P := by
  unfold describe at h
  dsimp only at h
  split at h
  · cases h
  · rename_i hvalid
    unfold ScopeKeyDescriptor.issue at h
    dsimp only at h
    split at h
    · cases h
    · obtain rfl := Except.ok.inj h
      exact ⟨rfl, rfl, hvalid, rfl⟩

theorem dropKey_descriptors (s : AnonymousIssuer T.toIssuerPrimitives) (der : Bytes) :
    (s.dropKey der).descriptors = s.descriptors ∧ (s.dropKey der).issuance = s.issuance ∧
      (s.dropKey der).policy = s.policy := by
  unfold dropKey
  split <;> exact ⟨rfl, rfl, rfl⟩

theorem dropCounts_fields (s : AnonymousIssuer T.toIssuerPrimitives) (now : ℕ) :
    (s.dropCounts now).keys = s.keys ∧ (s.dropCounts now).descriptors = s.descriptors ∧
      (s.dropCounts now).policy = s.policy := by
  unfold dropCounts
  split <;> exact ⟨rfl, rfl, rfl⟩

/-- The descriptors own the keys filed under their ids, up to those that are being removed (`pending`);
`claimed` are the keys whose descriptors are still to come. -/
def Matched (s : AnonymousIssuer T.toIssuerPrimitives) (pending : Set (AuthorizationScope × Bytes))
    (claimed : Set Bytes) : Prop :=
  Slots.Safe ScopeKeyDescriptor.publicKey (truncatedOf T.toTokenPrimitives) publicDer s.descriptors s.keys
    pending claimed

variable {s : AnonymousIssuer T.toIssuerPrimitives}

theorem Matched.congr {s' : AnonymousIssuer T.toIssuerPrimitives}
    {pending : Set (AuthorizationScope × Bytes)} {claimed : Set Bytes} (h : Matched s pending claimed)
    (hkeys : s'.keys = s.keys) (hdescriptors : s'.descriptors = s.descriptors) :
    Matched s' pending claimed := by
  unfold Matched
  rw [hkeys, hdescriptors]
  exact h

theorem Matched.dropKey {pending : Set (AuthorizationScope × Bytes)} {claimed : Set Bytes}
    (h : Matched s pending claimed) {entry : AuthorizationScope × Bytes} (hentry : entry ∈ pending) :
    Matched (s.dropKey entry.2) pending claimed := by
  unfold AnonymousIssuer.dropKey
  cases hid : truncatedOf T.toTokenPrimitives entry.2 with
  | none => exact h
  | some id => exact Slots.Safe.dropSlot h hentry hid

theorem Matched.dropDescriptor {pending pending' : Set (AuthorizationScope × Bytes)} {claimed : Set Bytes}
    (h : Matched s pending claimed) {entry : AuthorizationScope × Bytes} (hle : pending' ⊆ pending)
    (hrest : ∀ e ∈ pending, e ≠ entry → e ∈ pending') :
    Matched (s.dropDescriptor entry.1) pending' claimed :=
  Slots.Safe.dropItem h hle hrest

theorem existing_eq_none {networkId permission : String} {epoch expiresAt : ℕ}
    (h : s.existing networkId permission epoch expiresAt = none) {scope : AuthorizationScope}
    {d : ScopeKeyDescriptor} (hd : s.descriptors.lookup scope = some d) :
    ¬(d.scope.networkId = networkId ∧ d.scope.permission = permission ∧ d.scope.epoch = epoch ∧
      d.scope.expiresAt = expiresAt) := by
  have hnone := List.find?_eq_none.mp h d (mem_vals_of_lookup hd)
  simpa using hnone

/-! ### A sample of the key scheme

The private keys are bytes; the modulus of one is an odd number of 2048 bits, and the blinded message is
its own signature.  Keys that differ by a multiple of four share the id. -/

def sampleModulus (key : UInt8) : ℕ := 2 ^ 2047 + (2 * key.toNat + 1)

def sampleKeys : GeneratorPrimitives where
  PublicKey := UInt8
  fromSpki := fun der => der.head?
  serializePublicKey := fun key => some [key]
  truncatedTokenKeyId := fun key => some (key % 4)
  truncateTokenKeyId := fun id => id.bytes.headD 0
  tlsDeserialize := fun _ => none
  challengeDigest := fun _ _ => none
  verifyToken := fun _ _ => false
  PrivateKey := UInt8
  privateDecrypt := fun key m => if m.length = 256 ∧ ofBe m < sampleModulus key then some m else none
  publicKeyOf := some

theorem sampleKeys_lawful : sampleKeys.Lawful := by
  rintro publicKey der h
  obtain rfl := Option.some.inj h
  rfl

end Peerless.Auth
