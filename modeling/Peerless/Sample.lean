import Peerless.Identity

/-!
# A transparent instance of the primitives

The proofs never look inside SHA-256 or a signature scheme.  To evaluate the model on concrete
inputs this module gives the parameters a computable instance: a polynomial digest, keys that are
byte strings, and signatures that spell out the key and the message.

* `lawful` — the instance satisfies what the proofs assume of the primitives, so those
  assumptions are consistent;
* `compact` — a second instance with short signatures, for runs that sign large messages.
-/

namespace Peerless.Sample

open Text Peerless.Core Identity

/-- The polynomial with the bytes as coefficients, modulo `2 ^ 256`. -/
def polynomial (m : Bytes) : ℕ := m.foldl (fun acc b => (acc * 257 + (b.toNat + 1)) % 2 ^ 256) 7

/-- The low 32 bytes of a number. -/
def lowBytes (n : ℕ) : Digest where
  bytes := (List.range 32).map fun i => UInt8.ofNat (n / 256 ^ i)
  size := by rw [List.length_map, List.length_range]

def primitives : Primitives where
  PublicKey := Bytes
  Keypair := Bytes
  sha256 := fun m => lowBytes (polynomial m)
  publicKey := id
  encodeProtobuf := id
  tryDecodeProtobuf := .ok
  sign := fun k m => .ok (k ++ m)
  verify := fun k m s => s = k ++ m

theorem lawful : primitives.Lawful where
  decode_encode := fun _ => rfl
  sign_verify := by
    intro (k : Bytes) m
    refine ⟨k ++ m, rfl, ?_⟩
    show decide (k ++ m = k ++ m) = true
    exact decide_eq_true rfl

/-- The same with short signatures: the key and the digest of the message. -/
def compact : Primitives where
  PublicKey := Bytes
  Keypair := Bytes
  sha256 := primitives.sha256
  publicKey := id
  encodeProtobuf := id
  tryDecodeProtobuf := .ok
  sign := fun k m => .ok (k ++ (primitives.sha256 m).bytes)
  verify := fun k m s => s = k ++ (primitives.sha256 m).bytes

theorem compact_lawful : compact.Lawful where
  decode_encode := fun _ => rfl
  sign_verify := by
    intro (k : Bytes) m
    refine ⟨k ++ (primitives.sha256 m).bytes, rfl, ?_⟩
    show decide (k ++ (primitives.sha256 m).bytes = k ++ (primitives.sha256 m).bytes) = true
    exact decide_eq_true rfl

/-- The identity of a key string. -/
def identity (key : Bytes) : NodeIdentity primitives := NodeIdentity.ofKeypair key

/-- The node id of a key string. -/
def member (key : Bytes) : NodeId := (identity key).nodeId

end Peerless.Sample
