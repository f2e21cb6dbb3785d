import Peerless.Core

/-!
# Node identities and signature checks

`peerless-identity`: a key pair with the node id derived from it, signing, and the stand-alone
signature check every crate calls.  The identity a node signs with and the identity others derive
from its public key agree by construction (`NodeIdentity`), and under `Primitives.Lawful` a
signature made by an identity passes the check (`verify_sign`).
-/

namespace Peerless.Identity

open Text Peerless.Core

inductive IdentityError where
  | io
  | invalidKey (reason : String)
  deriving DecidableEq

variable {P : Primitives}

/-- `NodeIdentity`: only `load_or_generate` builds one, from a key pair. -/
structure NodeIdentity (P : Primitives) where
  nodeId : NodeId
  keypair : P.Keypair
  publicKeyDer : Bytes
  publicKey_eq : publicKeyDer = P.encodeProtobuf (P.publicKey keypair)
  nodeId_eq : nodeId = NodeId.derive P publicKeyDer

def NodeIdentity.ofKeypair (keypair : P.Keypair) : NodeIdentity P where
  nodeId := NodeId.derive P (P.encodeProtobuf (P.publicKey keypair))
  keypair := keypair
  publicKeyDer := P.encodeProtobuf (P.publicKey keypair)
  publicKey_eq := rfl
  nodeId_eq := rfl

def NodeIdentity.sign (identity : NodeIdentity P) (message : Bytes) :
    Except IdentityError Bytes :=
  match P.sign identity.keypair message with
  | .error reason => .error (.invalidKey reason)
  | .ok signature => .ok signature

variable (P) in
/-- The signature check: an undecodable key is an error, not a failed check. -/
def verify (publicKey message signature : Bytes) : Except IdentityError Bool :=
  match P.tryDecodeProtobuf publicKey with
  | .error reason => .error (.invalidKey reason)
  | .ok key => .ok (P.verify key message signature)

/-- **A signature made by an identity verifies under its public key.** -/
theorem verify_sign (hP : P.Lawful) (identity : NodeIdentity P) (message : Bytes) :
    ∃ signature, identity.sign message = .ok signature ∧
      verify P identity.publicKeyDer message signature = .ok true := by
  obtain ⟨s, hs, hv⟩ := hP.sign_verify identity.keypair message
  refine ⟨s, by simp only [NodeIdentity.sign, hs], ?_⟩
  simp only [verify, identity.publicKey_eq, hP.decode_encode, hv]

end Peerless.Identity
