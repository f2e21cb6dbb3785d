import Peerless.Protocol

/-!
# Ledger events, blocks and their encodings

The data of `peerless-ledger`: events, signed events, consensus proofs and blocks, with the JSON each
of them is hashed and signed through.
-/

namespace Peerless.Chain

open Text JsonText Peerless.Core Identity Protocol

/-- `LedgerError`; the texts of the wrapped errors are left out. -/
inductive LedgerError where
  | io
  | json
  | identity (e : IdentityError)
  | invalidQuorum
  | noQuorum
  | wrongLeader
  | invalidBlock
  deriving DecidableEq

inductive LedgerEvent where
  | nodeJoined (member : NodeId)
  | nodeRevoked (member : NodeId)
  | taskCreated (taskId : String)
  | taskAccepted (taskId : String) (executor : NodeId)
  | taskCompleted (record : ExecutionRecord)
  | taskVerified (taskId : String) (output : ContentId)
  | contentPublished (content : ContentId) (provider : NodeId)
  | stateCheckpoint (document : String) (snapshot : ContentId)
  deriving DecidableEq

structure SignedEvent where
  event : LedgerEvent
  signer : NodeId
  publicKey : Bytes
  signature : Bytes
  deriving DecidableEq

structure ConsensusSignature where
  signer : NodeId
  publicKey : Bytes
  signature : Bytes
  deriving DecidableEq

structure ConsensusProof where
  networkId : String
  signatures : List ConsensusSignature
  deriving DecidableEq

structure Block where
  version : ℕ
  previous : Option Digest
  height : UInt64
  timestamp : ℕ
  eventsRoot : Digest
  events : List SignedEvent
  consensus : ConsensusProof
  deriving DecidableEq

/-! ### Serialized forms -/

/-- The variant name and the payload of an event. -/
def LedgerEvent.variant : LedgerEvent → String × Json
  | .nodeJoined m => ("NodeJoined", .obj [("member", m.toJson)])
  | .nodeRevoked m => ("NodeRevoked", .obj [("member", m.toJson)])
  | .taskCreated t => ("TaskCreated", .obj [("task_id", .str t)])
  | .taskAccepted t e => ("TaskAccepted", .obj [("task_id", .str t), ("executor", e.toJson)])
  | .taskCompleted r => ("TaskCompleted", r.toJson)
  | .taskVerified t o => ("TaskVerified", .obj [("task_id", .str t), ("output", o.toJson)])
  | .contentPublished c p =>
    ("ContentPublished", .obj [("content", c.toJson), ("provider", p.toJson)])
  | .stateCheckpoint d s => ("StateCheckpoint", .obj [("document", .str d), ("snapshot", s.toJson)])

def LedgerEvent.toJson (e : LedgerEvent) : Json := .obj [e.variant]

def SignedEvent.toJson (e : SignedEvent) : Json :=
  .obj [("event", e.event.toJson), ("signer", e.signer.toJson),
    ("public_key", JsonText.bytes e.publicKey), ("signature", JsonText.bytes e.signature)]

def ConsensusSignature.toJson (s : ConsensusSignature) : Json :=
  .obj [("signer", s.signer.toJson), ("public_key", JsonText.bytes s.publicKey),
    ("signature", JsonText.bytes s.signature)]

def ConsensusProof.toJson (p : ConsensusProof) : Json :=
  .obj [("network_id", .str p.networkId),
    ("signatures", .arr (p.signatures.map ConsensusSignature.toJson))]

def Block.toJson (b : Block) : Json :=
  .obj [("version", natJson b.version), ("previous", optionJson Digest.toJson b.previous),
    ("height", natJson b.height.toNat), ("timestamp", natJson b.timestamp),
    ("events_root", b.eventsRoot.toJson), ("events", .arr (b.events.map SignedEvent.toJson)),
    ("consensus", b.consensus.toJson)]

def SignedEvent.encode (e : SignedEvent) : Bytes := write e.toJson

def Block.encode (b : Block) : Bytes := write b.toJson

/-- The form a block has on disk. -/
def Block.encodePretty (b : Block) : Bytes := writePretty 0 b.toJson

/-- `Block::proposal_bytes`: what the members sign. -/
def Block.proposalBytes (b : Block) : Bytes :=
  write (.arr [natJson b.version, optionJson Digest.toJson b.previous, natJson b.height.toNat,
    natJson b.timestamp, b.eventsRoot.toJson])

theorem LedgerEvent.variant_injective {a b : LedgerEvent} (h : a.variant = b.variant) : a = b := by
  cases a <;> cases b <;>
    simp only [variant, Prod.mk.injEq, reduceCtorEq, String.reduceEq, false_and, and_false,
      Json.obj.injEq, List.cons.injEq, Json.str.injEq, true_and, and_true] at h
  case nodeJoined => rw [NodeId.toJson_injective h]
  case nodeRevoked => rw [NodeId.toJson_injective h]
  case taskCreated => rw [h]
  case taskAccepted => rw [h.1, NodeId.toJson_injective h.2]
  case taskCompleted => rw [ExecutionRecord.toJson_injective h]
  case taskVerified => rw [h.1, ContentId.toJson_injective h.2]
  case contentPublished => rw [ContentId.toJson_injective h.1, NodeId.toJson_injective h.2]
  case stateCheckpoint => rw [h.1, ContentId.toJson_injective h.2]

theorem SignedEvent.toJson_injective {a b : SignedEvent} (h : a.toJson = b.toJson) : a = b := by
  obtain ⟨ea, sa, pa, ga⟩ := a
  obtain ⟨eb, sb, pb, gb⟩ := b
  simp only [toJson, LedgerEvent.toJson, Json.obj.injEq, List.cons.injEq, Prod.mk.injEq, true_and,
    and_true] at h
  obtain ⟨he, hs, hp, hg⟩ := h
  rw [LedgerEvent.variant_injective he, NodeId.toJson_injective hs, bytes_injective hp,
    bytes_injective hg]

theorem ConsensusSignature.toJson_injective {a b : ConsensusSignature}
    (h : a.toJson = b.toJson) : a = b := by
  obtain ⟨sa, pa, ga⟩ := a
  obtain ⟨sb, pb, gb⟩ := b
  simp only [toJson, Json.obj.injEq, List.cons.injEq, Prod.mk.injEq, true_and, and_true] at h
  obtain ⟨hs, hp, hg⟩ := h
  rw [NodeId.toJson_injective hs, bytes_injective hp, bytes_injective hg]

theorem ConsensusProof.toJson_injective {a b : ConsensusProof} (h : a.toJson = b.toJson) :
    a = b := by
  obtain ⟨na, sa⟩ := a
  obtain ⟨nb, sb⟩ := b
  simp only [toJson, Json.obj.injEq, List.cons.injEq, Prod.mk.injEq, Json.str.injEq, true_and,
    and_true] at h
  rw [h.1, arrJson_injective (fun _ _ => ConsensusSignature.toJson_injective) h.2]

variable {a b : Block}

theorem Block.toJson_injective (h : a.toJson = b.toJson) : a = b := by
  obtain ⟨va, pa, ha, ta, ra, ea, ca⟩ := a
  obtain ⟨vb, pb, hb, tb, rb, eb, cb⟩ := b
  simp only [toJson, Json.obj.injEq, List.cons.injEq, Prod.mk.injEq, true_and, and_true] at h
  obtain ⟨hv, hp, hh, ht, hr, he, hc⟩ := h
  rw [natJson_injective hv, optionDigest_injective hp, UInt64.toNat_inj.mp (natJson_injective hh),
    natJson_injective ht, Digest.toJson_injective hr,
    arrJson_injective (fun _ _ => SignedEvent.toJson_injective) he,
    ConsensusProof.toJson_injective hc]

theorem SignedEvent.encode_injective {a b : SignedEvent} (h : a.encode = b.encode) : a = b :=
  SignedEvent.toJson_injective (write_injective h)

/-- **The encoding of a block determines the block.** -/
theorem Block.encode_injective (h : a.encode = b.encode) : a = b :=
  Block.toJson_injective (write_injective h)

/-- **The signed bytes are exactly five fields of the block.** -/
theorem Block.proposalBytes_eq_iff : a.proposalBytes = b.proposalBytes ↔
    a.version = b.version ∧ a.previous = b.previous ∧ a.height = b.height ∧
      a.timestamp = b.timestamp ∧ a.eventsRoot = b.eventsRoot := by
  constructor
  · intro h
    have hj := Json.arr.inj (write_injective h)
    simp only [List.cons.injEq, and_true] at hj
    obtain ⟨hv, hp, hh, ht, hr⟩ := hj
    exact ⟨natJson_injective hv, optionDigest_injective hp, UInt64.toNat_inj.mp (natJson_injective hh),
      natJson_injective ht, Digest.toJson_injective hr⟩
  · rintro ⟨hv, hp, hh, ht, hr⟩
    rw [Block.proposalBytes, Block.proposalBytes, hv, hp, hh, ht, hr]

theorem LedgerEvent.variant_name_length (e : LedgerEvent) : 12 ≤ (writeStr e.variant.1).length := by
  cases e <;> (simp only [variant]; decide)

/-- **An encoded event is longer than a pair of digests.** -/
theorem SignedEvent.encode_length (e : SignedEvent) : 64 < e.encode.length := by
  -- the field names, the variant name and the punctuation already make 69 bytes
  have hevent : (writeStr "event").length = 7 := by decide
  have hsigner : (writeStr "signer").length = 8 := by decide
  have hkey : (writeStr "public_key").length = 12 := by decide
  have hsig : (writeStr "signature").length = 11 := by decide
  have hname := e.event.variant_name_length
  have hpayload := write_length_pos e.event.variant.2
  have hs : 2 ≤ (write e.signer.toJson).length := write_arr_length _
  have hp : 2 ≤ (write (JsonText.bytes e.publicKey)).length := write_arr_length _
  have hg : 2 ≤ (write (JsonText.bytes e.signature)).length := write_arr_length _
  simp only [encode, toJson, LedgerEvent.toJson, write, writeFields, List.length_cons,
    List.length_append, List.length_nil, hevent, hsigner, hkey, hsig]
  omega

end Peerless.Chain
