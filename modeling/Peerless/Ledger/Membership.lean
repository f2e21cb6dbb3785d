import Peerless.Ledger.Block
import Mathlib.Data.Finset.Insert

/-!
# Membership certificates and invitations

`Membership` and `Invitation` of `peerless-ledger`: issuing, the signed payload and the two checks.
-/

namespace Peerless.Chain

open Text JsonText Peerless.Core Identity

structure Membership where
  networkId : String
  member : NodeId
  issuer : NodeId
  permissions : List String
  expiresAt : Option ℕ
  issuerPublicKey : Bytes
  signature : Bytes
  deriving DecidableEq

structure Invitation where
  version : ℕ
  membership : Membership
  bootstrap : List String
  issuedAt : ℕ
  deriving DecidableEq

def stringsJson (l : List String) : Json := .arr (l.map .str)

def Membership.toJson (m : Membership) : Json :=
  .obj [("network_id", .str m.networkId), ("member", m.member.toJson), ("issuer", m.issuer.toJson),
    ("permissions", stringsJson m.permissions), ("expires_at", optionJson natJson m.expiresAt),
    ("issuer_public_key", JsonText.bytes m.issuerPublicKey),
    ("signature", JsonText.bytes m.signature)]

def Invitation.toJson (i : Invitation) : Json :=
  .obj [("version", natJson i.version), ("membership", i.membership.toJson),
    ("bootstrap", stringsJson i.bootstrap), ("issued_at", natJson i.issuedAt)]

/-- `Membership::payload`: the signed bytes. -/
def Membership.payload (m : Membership) : Bytes :=
  write (.arr [.str m.networkId, m.member.toJson, m.issuer.toJson, stringsJson m.permissions,
    optionJson natJson m.expiresAt])

/-- **The signed bytes are exactly five fields of the certificate.** -/
theorem Membership.payload_eq_iff {m n : Membership} : m.payload = n.payload ↔
    m.networkId = n.networkId ∧ m.member = n.member ∧ m.issuer = n.issuer ∧
      m.permissions = n.permissions ∧ m.expiresAt = n.expiresAt := by
  constructor
  · intro h
    have hj := Json.arr.inj (write_injective h)
    simp only [List.cons.injEq, Json.str.injEq, and_true] at hj
    obtain ⟨hn, hm, hi, hp, he⟩ := hj
    exact ⟨hn, NodeId.toJson_injective hm, NodeId.toJson_injective hi,
      arrJson_injective (fun _ _ => Json.str.inj) hp,
      optionJson_injective (fun _ _ => natJson_injective) (fun _ => by simp [natJson]) he⟩
  · rintro ⟨hn, hm, hi, hp, he⟩
    rw [Membership.payload, Membership.payload, hn, hm, hi, hp, he]

variable {P : Primitives}

def Membership.issue (networkId : String) (member : NodeId) (permissions : List String)
    (expiresAt : Option ℕ) (issuer : NodeIdentity P) : Except LedgerError Membership :=
  let value : Membership :=
    { networkId, member, issuer := issuer.nodeId, permissions, expiresAt
      issuerPublicKey := issuer.publicKeyDer, signature := [] }
  match issuer.sign value.payload with
  | .error err => .error (.identity err)
  | .ok signature => .ok { value with signature }

def Invitation.issue (networkId : String) (member : NodeId) (permissions : List String)
    (expiresAt : Option ℕ) (bootstrap : List String) (issuedAt : ℕ) (issuer : NodeIdentity P) :
    Except LedgerError Invitation :=
  match Membership.issue networkId member permissions expiresAt issuer with
  | .error err => .error err
  | .ok membership => .ok { version := 1, membership, bootstrap, issuedAt }

/-- The certificate is not expired at `now`. -/
def Membership.liveAt (m : Membership) (now : ℕ) : Bool := m.expiresAt.all (· > now)

variable (P)

def Membership.verify (m : Membership) (trusted : Finset NodeId) (now : ℕ) :
    Except LedgerError Bool :=
  if m.issuer ∈ trusted ∧ NodeId.derive P m.issuerPublicKey = m.issuer ∧ m.liveAt now then
    (Identity.verify P m.issuerPublicKey m.payload m.signature).mapError .identity
  else .ok false

def Invitation.verifyFor (i : Invitation) (member : NodeId) (now : ℕ) : Except LedgerError Bool :=
  if i.version = 1 ∧ i.issuedAt ≤ now ∧ i.membership.member = member then
    i.membership.verify P {i.membership.issuer} now
  else .ok false

/-- The part of the check that time does not change. -/
def Membership.Signed (m : Membership) : Prop :=
  NodeId.derive P m.issuerPublicKey = m.issuer ∧
    Identity.verify P m.issuerPublicKey m.payload m.signature = .ok true

variable {P}

theorem Membership.verify_eq_true_iff {m : Membership} {trusted : Finset NodeId} {now : ℕ} :
    m.verify P trusted now = .ok true ↔ m.issuer ∈ trusted ∧ m.Signed P ∧ m.liveAt now = true := by
  unfold verify Signed
  by_cases h : m.issuer ∈ trusted ∧ NodeId.derive P m.issuerPublicKey = m.issuer ∧ m.liveAt now = true
  · rw [if_pos h]
    obtain ⟨h1, h2, h3⟩ := h
    cases Identity.verify P m.issuerPublicKey m.payload m.signature with
    | error err => simp [Except.mapError]
    | ok r => simp [Except.mapError, h1, h2, h3]
  · rw [if_neg h]
    simp only [Except.ok.injEq, Bool.false_eq_true, false_iff]
    intro ⟨h1, ⟨h2, _⟩, h3⟩
    exact h ⟨h1, h2, h3⟩

theorem Invitation.verifyFor_eq_true_iff {i : Invitation} {member : NodeId} {now : ℕ} :
    i.verifyFor P member now = .ok true ↔ i.version = 1 ∧ i.issuedAt ≤ now ∧
      i.membership.member = member ∧ i.membership.verify P {i.membership.issuer} now = .ok true := by
  unfold verifyFor
  by_cases h : i.version = 1 ∧ i.issuedAt ≤ now ∧ i.membership.member = member
  · rw [if_pos h]
    simp [h]
  · rw [if_neg h]
    simp only [Except.ok.injEq, Bool.false_eq_true, false_iff]
    intro ⟨h1, h2, h3, _⟩
    exact h ⟨h1, h2, h3⟩

end Peerless.Chain
