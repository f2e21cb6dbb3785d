import Peerless.Auth.Scope
import Peerless.Ledger.Membership
import Peerless.Sample

/-!
# The purposes of a signature

One key of a node signs messages, ledger events, execution records, block proposals, memberships and
scope keys.  No tag says which: the verifier of each kind rebuilds the signed bytes from a value of its
own kind, so a signature stays with its purpose only if no two kinds share bytes.

* `purposes_disjoint` — values of different purposes have different bytes, so a signature for
  one passes for no value of another.
-/

namespace Peerless.Purposes

open Text JsonText Peerless.Core Identity Protocol Chain Auth

/-! ### Messages as JSON

A unit variant is its name, every other variant an object with the name as the only key. -/

def networkRequirementJson : NetworkRequirement → Json
  | .none => .str "None"
  | .optional => .str "Optional"
  | .required => .str "Required"

def verificationPolicyJson : VerificationPolicy → Json
  | .trustExecutor => .str "TrustExecutor"
  | .replicate executions => .obj [("Replicate", natJson executions)]
  | .quorum executions requiredMatches =>
    .obj [("Quorum", .obj [("executions", natJson executions),
      ("required_matches", natJson requiredMatches)])]

def requirementsJson (r : Requirements) : Json :=
  .obj [("minimum_memory", natJson r.minimumMemory), ("minimum_storage", natJson r.minimumStorage),
    ("runtime", .str r.runtime), ("estimated_cpu_cost", natJson r.estimatedCpuCost),
    ("network", networkRequirementJson r.network)]

def taskJson (t : Task) : Json :=
  .obj [("task_id", .str t.taskId), ("component", t.component.toJson), ("input", t.input.toJson),
    ("requirements", requirementsJson t.requirements),
    ("verification", verificationPolicyJson t.verification),
    ("deadline", optionJson natJson t.deadline)]

def powerStateJson : PowerState → Json
  | .ac => .str "Ac"
  | .battery => .str "Battery"
  | .unknown => .str "Unknown"

/-- A finite number is written as a number token, the others as `null`. -/
def f64Json (floats : F64 → NumToken) (x : F64) : Json :=
  if x.bits / 2 ^ 52 % 2 ^ 11 = 2 ^ 11 - 1 then .null else .num (floats x)

def capabilityJson (floats : F64 → NumToken) (c : NodeCapability) : Json :=
  .obj [("node", c.node.toJson), ("cpu_cores", natJson c.cpuCores),
    ("available_cpu", f64Json floats c.availableCpu), ("available_memory", natJson c.availableMemory),
    ("available_storage", natJson c.availableStorage), ("runtimes", stringsJson c.runtimes),
    ("power", powerStateJson c.power), ("load", f64Json floats c.load),
    ("task_slots", natJson c.taskSlots), ("expires_at", natJson c.expiresAt)]

def signedRecordJson (r : SignedExecutionRecord) : Json :=
  .obj [("record", r.record.toJson), ("signer", r.signer.toJson),
    ("public_key", JsonText.bytes r.publicKey), ("signature", JsonText.bytes r.signature)]

/-- The message as `serde_json` writes it; `floats` is how finite floating point numbers are written. -/
def messageJson (floats : F64 → NumToken) : Message → Json
  | .getCapability => .str "GetCapability"
  | .capability value => .obj [("Capability", capabilityJson floats value)]
  | .taskOffer task requester expiresAt =>
    .obj [("TaskOffer", .obj [("task", taskJson task), ("requester", requester.toJson),
      ("expires_at", natJson expiresAt)])]
  | .taskAccept taskId => .obj [("TaskAccept", .obj [("task_id", .str taskId)])]
  | .taskReject taskId reason =>
    .obj [("TaskReject", .obj [("task_id", .str taskId), ("reason", .str reason)])]
  | .taskCommit taskId => .obj [("TaskCommit", .obj [("task_id", .str taskId)])]
  | .taskStarted taskId executor =>
    .obj [("TaskStarted", .obj [("task_id", .str taskId), ("executor", executor.toJson)])]
  | .taskError taskId reason =>
    .obj [("TaskError", .obj [("task_id", .str taskId), ("reason", .str reason)])]
  | .taskCancel taskId => .obj [("TaskCancel", .obj [("task_id", .str taskId)])]
  | .hasContent id => .obj [("HasContent", id.toJson)]
  | .checkContent id => .obj [("CheckContent", id.toJson)]
  | .getContent id => .obj [("GetContent", id.toJson)]
  | .content id bytes => .obj [("Content", .obj [("id", id.toJson), ("bytes", JsonText.bytes bytes)])]
  | .contentStart id totalSize chunkSize =>
    .obj [("ContentStart", .obj [("id", id.toJson), ("total_size", natJson totalSize),
      ("chunk_size", natJson chunkSize)])]
  | .contentChunk id index bytes chunkHash =>
    .obj [("ContentChunk", .obj [("id", id.toJson), ("index", natJson index),
      ("bytes", JsonText.bytes bytes), ("chunk_hash", chunkHash.toJson)])]
  | .contentComplete id => .obj [("ContentComplete", .obj [("id", id.toJson)])]
  | .taskResult result => .obj [("TaskResult", signedRecordJson result)]
  | .stateSnapshot document snapshot =>
    .obj [("StateSnapshot", .obj [("document", .str document), ("snapshot", JsonText.bytes snapshot)])]
  | .ledgerBlock block => .obj [("LedgerBlock", .obj [("block", JsonText.bytes block)])]

/-! ### What a node signs -/

inductive Purpose where
  | envelope
  | event
  | record
  | proposal
  | membership
  | scopeKey
  deriving DecidableEq

/-- A value one key signs, for one of its purposes. -/
inductive Signed where
  | envelope (message : Message)
  | event (event : LedgerEvent)
  | record (record : ExecutionRecord)
  | proposal (block : Block)
  | membership (certificate : Membership)
  | scopeKey (descriptor : ScopeKeyDescriptor)

def Signed.purpose : Signed → Purpose
  | .envelope _ => .envelope
  | .event _ => .event
  | .record _ => .record
  | .proposal _ => .proposal
  | .membership _ => .membership
  | .scopeKey _ => .scopeKey

/-- The bytes under the signature: the payloads of `SignedEnvelope::seal`, `SignedEvent::seal`,
`SignedExecutionRecord::seal`, `Block::proposal_bytes`, `Membership::payload` and
`ScopeKeyDescriptor::payload`. -/
def Signed.bytes (floats : F64 → NumToken) : Signed → Bytes
  | .envelope m => write (messageJson floats m)
  | .event e => write e.toJson
  | .record r => write r.toJson
  | .proposal b => b.proposalBytes
  | .membership m => m.payload
  | .scopeKey d => d.payload

/-- The names of the ledger events. -/
def eventNames : List String :=
  ["NodeJoined", "NodeRevoked", "TaskCreated", "TaskAccepted", "TaskCompleted", "TaskVerified",
    "ContentPublished", "StateCheckpoint"]

/-- The purpose, by the outermost shape: a name or an object with one key is a message or an event, an
object with more keys a record; a tuple shows its purpose by the kind of its first entry. -/
def purposeOf : Json → Option Purpose
  | .str _ => some .envelope
  | .obj [(name, _)] => some (if name ∈ eventNames then .event else .envelope)
  | .obj (_ :: _ :: _) => some .record
  | .arr (.num _ :: _) => some .proposal
  | .arr (.str _ :: _) => some .membership
  | .arr (.obj _ :: _) => some .scopeKey
  | _ => none

theorem purposeOf_message (floats : F64 → NumToken) (message : Message) :
    purposeOf (messageJson floats message) = some .envelope := by
  cases message <;> rfl

theorem purposeOf_event (event : LedgerEvent) : purposeOf event.toJson = some .event := by
  cases event <;> rfl

/-- **The shape of the signed JSON names the purpose.** -/
theorem purposeOf_json (floats : F64 → NumToken) (x : Signed) :
    ∃ v, x.bytes floats = write v ∧ purposeOf v = some x.purpose := by
  cases x with
  | envelope message => exact ⟨_, rfl, purposeOf_message floats message⟩
  | event event => exact ⟨_, rfl, purposeOf_event event⟩
  | record record => exact ⟨_, rfl, rfl⟩
  | proposal block => exact ⟨_, rfl, rfl⟩
  | membership certificate => exact ⟨_, rfl, rfl⟩
  | scopeKey descriptor => exact ⟨_, rfl, rfl⟩

/-- **Signatures stay with their purpose.**  Values of two different purposes have different signed bytes.
So a signature an identity made for one of them passes for none of the other, if it passes only for the
bytes it was made for. -/
theorem purposes_disjoint (floats : F64 → NumToken) (x y : Signed) (hpurpose : x.purpose ≠ y.purpose) :
    x.bytes floats ≠ y.bytes floats ∧
    ∀ (P : Primitives) (identity : NodeIdentity P) (signature : Bytes),
      identity.sign (x.bytes floats) = .ok signature →
      (Identity.verify P identity.publicKeyDer (y.bytes floats) signature = .ok true →
        y.bytes floats = x.bytes floats) →
      Identity.verify P identity.publicKeyDer (y.bytes floats) signature ≠ .ok true := by
  have hbytes : x.bytes floats ≠ y.bytes floats := by
    intro heq
    obtain ⟨v, hv, hpv⟩ := purposeOf_json floats x
    obtain ⟨w, hw, hpw⟩ := purposeOf_json floats y
    have hvw : v = w := write_injective (hv.symm.trans (heq.trans hw))
    rw [hvw, hpw] at hpv
    exact hpurpose (Option.some.inj hpv).symm
  refine ⟨hbytes, fun P identity signature _ hunforged hverify => ?_⟩
  exact hbytes (hunforged hverify).symm

/-- A capability request and the admission of a node, signed by one sample identity. -/
theorem request_is_no_event :
    Identity.verify Sample.primitives [1]
      ((Signed.event (.nodeJoined (Sample.member [2]))).bytes fun _ => natToken 0)
      (1 :: (Signed.envelope .getCapability).bytes fun _ => natToken 0) ≠ .ok true := by
  refine (purposes_disjoint (fun _ => natToken 0) (.envelope .getCapability)
    (.event (.nodeJoined (Sample.member [2]))) (by decide)).2 Sample.primitives (Sample.identity [1]) _ rfl
    fun hverify => ?_
  -- a signature of the sample identity spells out what it was made for
  simp only [Identity.verify, Sample.primitives, Except.ok.injEq, decide_eq_true_eq] at hverify
  exact (List.cons.inj hverify).2.symm

end Peerless.Purposes
