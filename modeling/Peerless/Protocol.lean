import Peerless.Identity

/-!
# Wire messages, signed execution records and envelopes

The messages of `peerless-protocol`, the record an executor signs for a finished task and the envelope
every message travels in.  Floating point fields are kept as their bit patterns (`F64`); on non-negative
values the order of the patterns is the order of the numbers, which is all the admission test needs.
-/

namespace Peerless.Protocol

open Text JsonText Peerless.Core Identity

/-- A 64-bit float by its bit pattern. -/
structure F64 where
  bits : ℕ
  deriving DecidableEq

/-- `available_cpu.is_finite() && available_cpu > 0.0 && available_cpu <= 1.0`. -/
def F64.inHalfOpenUnit (x : F64) : Bool := 0 < x.bits && x.bits ≤ 0x3FF0000000000000

/-- `load.is_finite() && (0.0..=1.0).contains(&load)`; negative zero counts as zero. -/
def F64.inUnit (x : F64) : Bool := x.bits ≤ 0x3FF0000000000000 || x.bits = 0x8000000000000000

inductive PowerState where
  | ac
  | battery
  | unknown
  deriving DecidableEq

structure NodeCapability where
  node : NodeId
  cpuCores : ℕ
  availableCpu : F64
  availableMemory : ℕ
  availableStorage : ℕ
  runtimes : List String
  power : PowerState
  load : F64
  taskSlots : ℕ
  expiresAt : ℕ
  deriving DecidableEq

def NodeCapability.supports (c : NodeCapability) (runtime : String) : Bool :=
  c.runtimes.any (· = runtime)

def NodeCapability.isFreshAt (c : NodeCapability) (now : ℕ) : Bool := c.expiresAt > now

structure ExecutionRecord where
  taskId : String
  executor : NodeId
  component : ContentId
  input : ContentId
  output : ContentId
  executionHash : ContentId
  startedAt : ℕ
  completedAt : ℕ
  deriving DecidableEq

def ExecutionRecord.toJson (r : ExecutionRecord) : Json :=
  .obj [("task_id", .str r.taskId), ("executor", r.executor.toJson),
    ("component", r.component.toJson), ("input", r.input.toJson), ("output", r.output.toJson),
    ("execution_hash", r.executionHash.toJson), ("started_at", natJson r.startedAt),
    ("completed_at", natJson r.completedAt)]

theorem ExecutionRecord.toJson_injective {a b : ExecutionRecord} (h : a.toJson = b.toJson) :
    a = b := by
  obtain ⟨ta, ea, ca, ia, oa, ha, sa, fa⟩ := a
  obtain ⟨tb, eb, cb, ib, ob, hb, sb, fb⟩ := b
  simp only [toJson, Json.obj.injEq, List.cons.injEq, Prod.mk.injEq, Json.str.injEq, true_and,
    and_true] at h
  obtain ⟨ht, he, hc, hi, ho, hh, hs, hf⟩ := h
  rw [ht, NodeId.toJson_injective he, ContentId.toJson_injective hc, ContentId.toJson_injective hi,
    ContentId.toJson_injective ho, ContentId.toJson_injective hh, natJson_injective hs,
    natJson_injective hf]

structure SignedExecutionRecord where
  record : ExecutionRecord
  signer : NodeId
  publicKey : Bytes
  signature : Bytes
  deriving DecidableEq

variable {P : Primitives}

def SignedExecutionRecord.seal (record : ExecutionRecord) (identity : NodeIdentity P) :
    Except IdentityError SignedExecutionRecord := do
  let signature ← identity.sign (write record.toJson)
  return { record, signer := identity.nodeId, publicKey := identity.publicKeyDer, signature }

variable (P) in
def SignedExecutionRecord.verify (r : SignedExecutionRecord) : Except IdentityError Bool :=
  if NodeId.derive P r.publicKey ≠ r.signer ∨ r.record.executor ≠ r.signer then .ok false
  else Identity.verify P r.publicKey (write r.record.toJson) r.signature

/-- The requests and responses of the wire protocol. -/
inductive Message where
  | getCapability
  | capability (value : NodeCapability)
  | taskOffer (task : Task) (requester : NodeId) (expiresAt : ℕ)
  | taskAccept (taskId : String)
  | taskReject (taskId reason : String)
  | taskCommit (taskId : String)
  | taskStarted (taskId : String) (executor : NodeId)
  | taskError (taskId reason : String)
  | taskCancel (taskId : String)
  | hasContent (id : ContentId)
  | checkContent (id : ContentId)
  | getContent (id : ContentId)
  | content (id : ContentId) (bytes : Bytes)
  | contentStart (id : ContentId) (totalSize chunkSize : ℕ)
  | contentChunk (id : ContentId) (index : ℕ) (bytes : Bytes) (chunkHash : ContentId)
  | contentComplete (id : ContentId)
  | taskResult (result : SignedExecutionRecord)
  | stateSnapshot (document : String) (snapshot : Bytes)
  | ledgerBlock (block : Bytes)
  deriving DecidableEq

/-! ### Envelopes -/

def protocolVersion : ℕ := 1

inductive ProtocolError where
  | unsupportedVersion (version : ℕ)
  | signerMismatch
  | invalidSignature
  | identity (e : IdentityError)
  | json
  deriving DecidableEq

structure SignedEnvelope where
  version : ℕ
  signer : NodeId
  publicKey : Bytes
  payload : Bytes
  signature : Bytes
  deriving DecidableEq

/-- `SignedEnvelope::seal` of a value with this JSON text. -/
def SignedEnvelope.seal (payload : Bytes) (identity : NodeIdentity P) :
    Except ProtocolError SignedEnvelope :=
  match identity.sign payload with
  | .error err => .error (.identity err)
  | .ok signature => .ok ⟨protocolVersion, identity.nodeId, identity.publicKeyDer, payload, signature⟩

variable (P) in
/-- `SignedEnvelope::open_with_signer`; `parse` reads the payload. -/
def SignedEnvelope.openWithSigner {T : Type} (e : SignedEnvelope) (parse : Bytes → Option T) :
    Except ProtocolError (T × NodeId) :=
  if e.version ≠ protocolVersion then .error (.unsupportedVersion e.version)
  else if NodeId.derive P e.publicKey ≠ e.signer then .error .signerMismatch
  else
    match Identity.verify P e.publicKey e.payload e.signature with
    | .error err => .error (.identity err)
    | .ok false => .error .invalidSignature
    | .ok true =>
      match parse e.payload with
      | none => .error .json
      | some value => .ok (value, e.signer)

/-- **What was sealed opens**, under the name of its sealer. -/
theorem SignedEnvelope.open_seal (hP : P.Lawful) {T : Type} {parse : Bytes → Option T} {payload : Bytes}
    {value : T} (hparse : parse payload = some value) (identity : NodeIdentity P) :
    ∃ envelope, SignedEnvelope.seal payload identity = .ok envelope ∧ envelope.payload = payload ∧
      envelope.openWithSigner P parse = .ok (value, identity.nodeId) := by
  obtain ⟨signature, hsign, hverify⟩ := verify_sign hP identity payload
  refine ⟨⟨protocolVersion, identity.nodeId, identity.publicKeyDer, payload, signature⟩, ?_, rfl, ?_⟩
  · rw [SignedEnvelope.seal, hsign]
  · rw [SignedEnvelope.openWithSigner, if_neg (not_not.mpr rfl),
      if_neg (not_not.mpr identity.nodeId_eq.symm)]
    simp only [hverify, hparse]

theorem SignedEnvelope.openWithSigner_ok {T : Type} {e : SignedEnvelope} {parse : Bytes → Option T}
    {value : T} {signer : NodeId} (h : e.openWithSigner P parse = .ok (value, signer)) :
    signer = e.signer ∧ NodeId.derive P e.publicKey = signer ∧
      Identity.verify P e.publicKey e.payload e.signature = .ok true ∧
      parse e.payload = some value := by
  unfold SignedEnvelope.openWithSigner at h
  split at h
  · cases h
  · split at h
    · cases h
    · rename_i hsigner
      split at h
      · cases h
      · cases h
      · rename_i hverify
        split at h
        · cases h
        · rename_i hparse
          obtain ⟨rfl, rfl⟩ := Prod.mk.inj (Except.ok.inj h)
          exact ⟨rfl, not_not.mp hsigner, hverify, hparse⟩

end Peerless.Protocol
