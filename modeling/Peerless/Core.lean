import Peerless.Lib.Json

/-!
# Domain types

The types of `peerless-core` that the other crates share, and the third-party primitives they rest
on:

* `Digest`, `ContentId`, `NodeId` — the SHA-256 identities of content and of public keys;
* `Primitives` — SHA-256 and the key operations of libp2p, as parameters.  `Primitives.Lawful` lists
  what their documentation promises and the proofs use: a key survives encoding, and a signature
  made by a key verifies under it.

Unsigned machine integers are natural numbers; where the code saturates or wraps, the model says so.
-/

namespace Peerless.Core

open Text JsonText

/-- A 32-byte array. -/
structure Digest where
  bytes : Bytes
  size : bytes.length = 32
  deriving DecidableEq

theorem Digest.ext_bytes {a b : Digest} (h : a.bytes = b.bytes) : a = b := by
  cases a
  cases b
  simp only [Digest.mk.injEq]
  exact h

/-- SHA-256 identity of immutable bytes. -/
structure ContentId where
  digest : Digest
  deriving DecidableEq

/-- Public-key-derived identity: a byte vector, of any length when it comes from outside. -/
structure NodeId where
  bytes : Bytes
  deriving DecidableEq

/-- The derived order of `NodeId`: lexicographic on the bytes. -/
def NodeId.le (a b : NodeId) : Bool := a.bytes ≤ b.bytes

/-- What the repository takes from `sha2` and `libp2p::identity`. -/
structure Primitives where
  PublicKey : Type
  Keypair : Type
  sha256 : Bytes → Digest
  publicKey : Keypair → PublicKey
  encodeProtobuf : PublicKey → Bytes
  tryDecodeProtobuf : Bytes → Except String PublicKey
  sign : Keypair → Bytes → Except String Bytes
  verify : PublicKey → Bytes → Bytes → Bool

/-- The documented behaviour of the primitives that signing relies on. -/
structure Primitives.Lawful (P : Primitives) : Prop where
  decode_encode : ∀ k, P.tryDecodeProtobuf (P.encodeProtobuf k) = .ok k
  sign_verify : ∀ k m, ∃ s, P.sign k m = .ok s ∧ P.verify (P.publicKey k) m s = true

variable (P : Primitives)

def ContentId.of (bytes : Bytes) : ContentId := ⟨P.sha256 bytes⟩

def ContentId.verify (id : ContentId) (bytes : Bytes) : Bool := id = ContentId.of P bytes

def NodeId.derive (publicKey : Bytes) : NodeId := ⟨(P.sha256 publicKey).bytes⟩

/-! ### Tasks -/

inductive NetworkRequirement where
  | none
  | optional
  | required
  deriving DecidableEq

inductive VerificationPolicy where
  | trustExecutor
  | replicate (executions : ℕ)
  | quorum (executions requiredMatches : ℕ)
  deriving DecidableEq

structure Requirements where
  minimumMemory : ℕ
  minimumStorage : ℕ
  runtime : String
  estimatedCpuCost : ℕ
  network : NetworkRequirement
  deriving DecidableEq

structure Task where
  taskId : String
  component : ContentId
  input : ContentId
  requirements : Requirements
  verification : VerificationPolicy
  deadline : Option ℕ
  deriving DecidableEq

/-! ### Serialized forms -/

def natJson (n : ℕ) : Json := .num (natToken n)

def Digest.toJson (d : Digest) : Json := JsonText.bytes d.bytes

def ContentId.toJson (c : ContentId) : Json := c.digest.toJson

def NodeId.toJson (n : NodeId) : Json := JsonText.bytes n.bytes

/-- An optional value: the value itself, or `null`. -/
def optionJson {α : Type*} (f : α → Json) : Option α → Json
  | none => .null
  | some a => f a

theorem natJson_injective {n m : ℕ} (h : natJson n = natJson m) : n = m :=
  natToken_injective (Json.num.inj h)

theorem Digest.toJson_injective {a b : Digest} (h : a.toJson = b.toJson) : a = b :=
  Digest.ext_bytes (bytes_injective h)

theorem ContentId.toJson_injective {a b : ContentId} (h : a.toJson = b.toJson) : a = b := by
  cases a
  cases b
  simp only [ContentId.mk.injEq]
  exact Digest.toJson_injective h

theorem NodeId.toJson_injective {a b : NodeId} (h : a.toJson = b.toJson) : a = b := by
  cases a
  cases b
  simp only [NodeId.mk.injEq]
  exact bytes_injective h

theorem optionJson_injective {α : Type*} {f : α → Json} (hf : ∀ a b, f a = f b → a = b)
    (hnull : ∀ a, f a ≠ .null) {a b : Option α} (h : optionJson f a = optionJson f b) : a = b := by
  cases a with
  | none =>
    cases b with
    | none => rfl
    | some b => exact absurd h.symm (hnull b)
  | some a =>
    cases b with
    | none => exact absurd h (hnull a)
    | some b => rw [hf a b h]

theorem optionDigest_injective {a b : Option Digest}
    (h : optionJson Digest.toJson a = optionJson Digest.toJson b) : a = b :=
  optionJson_injective (fun _ _ => Digest.toJson_injective)
    (fun _ => by simp [Digest.toJson, JsonText.bytes]) h

theorem arrJson_injective {α : Type*} {f : α → Json} (hf : ∀ a b, f a = f b → a = b)
    {l m : List α} (h : Json.arr (l.map f) = Json.arr (m.map f)) : l = m :=
  List.map_injective_iff.mpr (fun a b => hf a b) (Json.arr.inj h)

end Peerless.Core
