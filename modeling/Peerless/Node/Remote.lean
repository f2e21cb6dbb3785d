import Peerless.Compute
import Peerless.Lib.Inquiry
import Peerless.Lib.Wire

/-!
# Executing a task on another node

The requester's side of a remote execution: the contents are transferred, the task is offered and
committed, the signed record is checked and its output fetched.  How a request reaches a peer is a
parameter, `send`; the JSON form of the messages is a codec.
-/

namespace Peerless.Node

open Text Wire Inquiry Peerless.Core Identity Protocol

variable {P : Primitives} {σ : Type}

def contentChunkSize : ℕ := 64 * 1024

/-- The errors of a remote execution. -/
inductive RemoteError where
  | protocol (e : ProtocolError)
  | rejected (reason : String)
  | unexpectedResponse
  | p2p (reason : String)
  | metadata
  deriving DecidableEq

/-- The JSON form of the messages. -/
structure MessageCodec where
  encode : Message → Bytes
  parse : Bytes → Option Message

/-- A requester: its identity, the codec, the clock and the way to a peer. -/
structure Requester (P : Primitives) (σ : Type) where
  identity : NodeIdentity P
  codec : MessageCodec
  now : Talk RemoteError σ ℕ
  send : SignedEnvelope → Talk RemoteError σ SignedEnvelope

namespace Requester

variable (r : Requester P σ)

/-- `PeerlessNode::exchange`. -/
def exchange (message : Message) : Talk RemoteError σ Message :=
  match SignedEnvelope.seal (r.codec.encode message) r.identity with
  | .error err => throw (.protocol err)
  | .ok envelope => do
    let response ← r.send envelope
    match response.openWithSigner P r.codec.parse with
    | .error err => throw (.protocol err)
    | .ok (value, _) => return value

/-- A response that must confirm a content. -/
def confirm (id : ContentId) : Message → Talk RemoteError σ Unit
  | .hasContent found => if found = id then return () else throw .unexpectedResponse
  | .taskError _ reason => throw (.rejected reason)
  | .taskReject _ reason => throw (.rejected reason)
  | _ => throw .unexpectedResponse

/-- The response to a `ContentStart`: here a refusal of the peer is unexpected. -/
def confirmStart (id : ContentId) : Message → Talk RemoteError σ Unit
  | .hasContent found => if found = id then return () else throw .unexpectedResponse
  | _ => throw .unexpectedResponse

/-- The loop over the chunks. -/
def sendChunks (id : ContentId) : ℕ → List Bytes → Talk RemoteError σ Unit
  | _, [] => return ()
  | index, chunk :: chunks => do
    let chunkHash := ContentId.of P chunk
    confirm chunkHash (← r.exchange (.contentChunk id (index % 2 ^ 32) chunk chunkHash))
    sendChunks id (index + 1) chunks

/-- `PeerlessNode::transfer_content_via`. -/
def transferContentVia (id : ContentId) (bytes : Bytes) : Talk RemoteError σ Unit :=
  if ¬ id.verify P bytes then throw (.rejected "local content does not match task ContentId")
  else if bytes.length ≤ contentChunkSize then do
    confirm id (← r.exchange (.content id bytes))
  else do
    confirmStart id (← r.exchange (.contentStart id bytes.length contentChunkSize))
    r.sendChunks id 0 ((List.range (divCeil bytes.length contentChunkSize)).map
      (chunkAt contentChunkSize bytes))
    confirm id (← r.exchange (.contentComplete id))

/-- The response to the offer of a task. -/
def confirmOffer (task : Task) : Message → Talk RemoteError σ Unit
  | .taskAccept taskId => if taskId = task.taskId then return () else throw .unexpectedResponse
  | .taskReject _ reason => throw (.rejected reason)
  | _ => throw .unexpectedResponse

variable (P) in
/-- The response to the commit of a task. -/
def checkResult (task : Task) : Message → Talk RemoteError σ SignedExecutionRecord
  | .taskResult value =>
    match value.verify P with
    | .error err => throw (.protocol (.identity err))
    | .ok verified =>
      if verified ∧ value.record.taskId = task.taskId ∧ value.record.component = task.component ∧
          value.record.input = task.input then return value
      else throw (.rejected "invalid execution record signature")
  | .taskReject _ reason => throw (.rejected reason)
  | _ => throw .unexpectedResponse

variable (P) in
/-- The response to the request for the output. -/
def checkContent (output : ContentId) : Message → Talk RemoteError σ Bytes
  | .content id bytes => if id = output ∧ id.verify P bytes then return bytes else throw .unexpectedResponse
  | _ => throw .unexpectedResponse

/-- The conversation of `remote_execute_bytes_via`, with the record still signed. -/
def remoteSignedResult (task : Task) (component input : Bytes) :
    Talk RemoteError σ (SignedExecutionRecord × Bytes) := do
  r.transferContentVia task.component component
  r.transferContentVia task.input input
  let expiresAt := (← r.now) + 30000
  confirmOffer task (← r.exchange (.taskOffer task r.identity.nodeId expiresAt))
  let value ← checkResult P task (← r.exchange (.taskCommit task.taskId))
  let bytes ← checkContent P value.record.output (← r.exchange (.getContent value.record.output))
  return (value, bytes)

/-- `PeerlessNode::remote_execute_bytes_via`. -/
def remoteExecuteBytesVia (task : Task) (component input : Bytes) :
    Talk RemoteError σ (ExecutionRecord × Bytes) := do
  let (value, bytes) ← r.remoteSignedResult task component input
  return (value.record, bytes)

end Requester

/-! ### What a result shows -/

variable {value : SignedExecutionRecord}

/-- A signed record that verifies names the key it is signed with as its executor. -/
theorem verify_executor (hverify : value.verify P = .ok true) :
    value.record.executor = NodeId.derive P value.publicKey := by
  unfold SignedExecutionRecord.verify at hverify
  split at hverify
  · cases hverify
  · rename_i hsigner
    rw [not_or, not_not, not_not] at hsigner
    rw [hsigner.1, hsigner.2]

/-- What an accepted result says about the task. -/
structure ResultOf (P : Primitives) (task : Task) (value : SignedExecutionRecord) : Prop where
  verified : value.verify P = .ok true
  taskId : value.record.taskId = task.taskId
  component : value.record.component = task.component
  input : value.record.input = task.input

variable {s s' : σ}

theorem checkResult_ok {task : Task} {message : Message}
    (hcheck : answer (Requester.checkResult P task message) s = (.ok value, s')) :
    message = .taskResult value ∧ ResultOf P task value := by
  cases message with
  | taskResult result =>
    rw [Requester.checkResult] at hcheck
    split at hcheck
    · cases hcheck
    · rename_i verified hverify
      split at hcheck
      · rename_i hall
        obtain ⟨rfl, htask, hcomponent, hinput⟩ := hall
        obtain rfl : result = value := Except.ok.inj (congrArg Prod.fst hcheck)
        exact ⟨rfl, hverify, htask, hcomponent, hinput⟩
      · cases hcheck
  | _ => cases hcheck

theorem checkContent_ok {output : ContentId} {message : Message} {bytes : Bytes}
    (hcheck : answer (Requester.checkContent P output message) s = (.ok bytes, s')) :
    output.verify P bytes = true := by
  cases message with
  | content id found =>
    rw [Requester.checkContent] at hcheck
    split at hcheck
    · rename_i hall
      obtain ⟨rfl, hid⟩ := hall
      obtain rfl : found = bytes := Except.ok.inj (congrArg Prod.fst hcheck)
      exact hid
    · cases hcheck
  | _ => cases hcheck

/-- **A successful exchange**: the message was sealed and sent, and the response to it opens. -/
theorem exchanged {r : Requester P σ} {message reply : Message}
    (hexchange : answer (r.exchange message) s = (.ok reply, s')) :
    ∃ envelope response signer, SignedEnvelope.seal (r.codec.encode message) r.identity = .ok envelope ∧
      answer (r.send envelope) s = (.ok response, s') ∧
      response.openWithSigner P r.codec.parse = .ok (reply, signer) := by
  unfold Requester.exchange at hexchange
  split at hexchange
  · cases hexchange
  · rename_i envelope hseal
    obtain ⟨response, s₁, hsend, hopen⟩ := answer_bind_ok.mp hexchange
    split at hopen
    · cases hopen
    · rename_i value signer hvalue
      obtain ⟨hreply, rfl⟩ := Prod.mk.inj hopen
      obtain rfl : value = reply := Except.ok.inj hreply
      exact ⟨envelope, response, signer, hseal, hsend, hvalue⟩

/-- **A returned result is one for this task**: it answered the commit, its signature verifies and its
output is at hand. -/
theorem remoteSignedResult_ok {r : Requester P σ} {task : Task} {component input bytes : Bytes}
    (hresult : answer (r.remoteSignedResult task component input) s = (.ok (value, bytes), s')) :
    (∃ s₁ s₂, answer (r.exchange (.taskCommit task.taskId)) s₁ = (.ok (.taskResult value), s₂)) ∧
      ResultOf P task value ∧ value.record.output.verify P bytes = true := by
  obtain ⟨_, s₁, _, hresult⟩ := answer_bind_ok.mp hresult
  obtain ⟨_, s₂, _, hresult⟩ := answer_bind_ok.mp hresult
  obtain ⟨now, s₃, _, hresult⟩ := answer_bind_ok.mp hresult
  obtain ⟨_, s₄, _, hresult⟩ := answer_bind_ok.mp hresult
  obtain ⟨_, s₅, _, hresult⟩ := answer_bind_ok.mp hresult
  obtain ⟨commit, s₆, hcommit, hresult⟩ := answer_bind_ok.mp hresult
  obtain ⟨checked, s₇, hchecked, hresult⟩ := answer_bind_ok.mp hresult
  obtain ⟨content, s₈, _, hresult⟩ := answer_bind_ok.mp hresult
  obtain ⟨fetched, s₉, hfetched, hresult⟩ := answer_bind_ok.mp hresult
  obtain ⟨rfl, rfl⟩ := Prod.mk.inj (Except.ok.inj (congrArg Prod.fst hresult))
  obtain ⟨rfl, hof⟩ := checkResult_ok hchecked
  exact ⟨⟨s₅, s₆, hcommit⟩, hof, checkContent_ok hfetched⟩

/-- `remote_execute_bytes_via` drops the signature of its result. -/
theorem remoteExecuteBytesVia_ok {r : Requester P σ} {task : Task} {component input bytes : Bytes}
    {record : ExecutionRecord} :
    answer (r.remoteExecuteBytesVia task component input) s = (.ok (record, bytes), s') ↔
      ∃ value, answer (r.remoteSignedResult task component input) s = (.ok (value, bytes), s') ∧
        value.record = record := by
  constructor
  · intro hexecute
    obtain ⟨⟨value, fetched⟩, s₁, hvalue, hreturn⟩ := answer_bind_ok.mp hexecute
    obtain ⟨hresult, rfl⟩ := Prod.mk.inj hreturn
    obtain ⟨hrecord, rfl⟩ := Prod.mk.inj (Except.ok.inj hresult)
    exact ⟨value, hvalue, hrecord⟩
  · rintro ⟨value, hvalue, rfl⟩
    exact answer_bind_ok.mpr ⟨(value, bytes), s', hvalue, rfl⟩

end Peerless.Node
