import Peerless.Lib.Batch
import Peerless.Node.StoredAccess
import Peerless.State.Convergence

/-!
# Merging gossip

`merge_state_gossip` and `merge_ledger_gossip` share one queue of received messages.  Each of them
drains all of it, passes over the messages of other topics, and returns at the first message that fails.
The JSON parsers are parameters; the sender a message came through is read by neither call and left out.
-/

namespace Peerless.Node

open Text HashMap Peerless.Core Identity Protocol Chain State

variable {P : Primitives} {α : Type} [DecidableEq α] {A : Automerge α}

/-! ### The calls -/

/-- The two topics. -/
inductive Topic where
  | state
  | ledger
  deriving DecidableEq

def Topic.name : Topic → String
  | .state => "peerless/state/v1"
  | .ledger => "peerless/ledger/v1"

/-- The permission a topic needs. -/
def Topic.permission : Topic → String
  | .state => "state"
  | .ledger => "ledger"

/-- A received message. -/
structure Gossip where
  topic : String
  bytes : Bytes

/-- What is parsed: envelopes, messages and blocks by `serde_json`, documents by Automerge. -/
structure GossipCodec {α : Type} (A : Automerge α) where
  envelope : Bytes → Option SignedEnvelope
  message : Bytes → Option Message
  block : Bytes → Option Block
  blob : Bytes → A.Blob

/-- The errors of the two calls. -/
inductive GossipError where
  | protocol (e : ProtocolError)
  | state (e : StateError)
  | node (e : NodeError)
  deriving DecidableEq

/-- What gossip changes: the node with its ledger, and the documents. -/
structure Holdings {α : Type} (A : Automerge α) where
  node : PeerlessNode
  documents : StateStore A

variable (P) in
/-- The message in an envelope, and its signer. -/
def openGossip (codec : GossipCodec A) (bytes : Bytes) : Except ProtocolError (Message × NodeId) :=
  match codec.envelope bytes with
  | none => .error .json
  | some envelope => envelope.openWithSigner P codec.message

/-- The end of the loop of `merge_state_gossip`. -/
def mergeStateMessage (codec : GossipCodec A) (h : Holdings A) :
    Message → Except GossipError (Holdings A × Bool)
  | .stateSnapshot document snapshot =>
    match h.documents.mergeSnapshot document (codec.blob snapshot) with
    | .error err => .error (.state err)
    | .ok documents => .ok ({ h with documents }, true)
  | _ => .ok (h, false)

/-- The end of the loop of `merge_ledger_gossip`. -/
def mergeLedgerMessage (codec : GossipCodec A) (consensus : ConsensusEngine P) (h : Holdings A) :
    Message → Except GossipError (Holdings A × Bool)
  | .ledgerBlock bytes =>
    match codec.block bytes with
    | none => .error (.node (.ledger .json))
    | some block =>
      match h.node.appendLedgerBlock P block consensus with
      | (_, .error err) => .error (.node err)
      | (node, .ok ()) => .ok ({ h with node }, true)
  | _ => .ok (h, false)

/-- The end of the loop for a topic. -/
def mergeMessage (codec : GossipCodec A) (consensus : ConsensusEngine P) (topic : Topic)
    (h : Holdings A) (message : Message) : Except GossipError (Holdings A × Bool) :=
  match topic with
  | .state => mergeStateMessage codec h message
  | .ledger => mergeLedgerMessage codec consensus h message

/-- The loop after the test of the topic. -/
def deliver (codec : GossipCodec A) (consensus : ConsensusEngine P) (topic : Topic) (now : ℕ)
    (h : Holdings A) (bytes : Bytes) : Except GossipError (Holdings A × Bool) :=
  match openGossip P codec bytes with
  | .error err => .error (.protocol err)
  | .ok (message, signer) =>
    if h.node.authorises signer topic.permission now then mergeMessage codec consensus topic h message
    else .ok (h, false)

/-- The body of both loops; `clock n` is the reading of the clock for the `n`-th message. -/
def gossipBody (codec : GossipCodec A) (consensus : ConsensusEngine P) (topic : Topic) (clock : ℕ → ℕ)
    (n : ℕ) (h : Holdings A) (m : Gossip) : Except GossipError (Holdings A × Bool) :=
  if m.topic ≠ topic.name then .ok (h, false)
  else deliver codec consensus topic (clock n) h m.bytes

/-- A node with its queue of received messages. -/
structure GossipNode {α : Type} (A : Automerge α) where
  holdings : Holdings A
  queue : List Gossip

/-- `merge_state_gossip` and `merge_ledger_gossip`: the queue is taken as a whole.  The second component
is the list of positions that were merged or appended; the calls return their number. -/
def GossipNode.mergeGossip (codec : GossipCodec A) (consensus : ConsensusEngine P) (topic : Topic)
    (clock : ℕ → ℕ) (g : GossipNode A) : GossipNode A × List ℕ × Except GossipError ℕ :=
  let r := Batch.drain (gossipBody codec consensus topic clock) 0 g.holdings g.queue
  (⟨r.1, []⟩, r.2.1,
    match r.2.2 with
    | none => .ok r.2.1.length
    | some err => .error err)

/-- Calls of either kind, each with its readings of the clock, and the positions of the queue they
took. -/
def GossipNode.mergeAll (codec : GossipCodec A) (consensus : ConsensusEngine P) :
    List (Topic × (ℕ → ℕ)) → GossipNode A → GossipNode A × List ℕ
  | [], g => (g, [])
  | (topic, clock) :: calls, g =>
    let r := g.mergeGossip codec consensus topic clock
    let rest := GossipNode.mergeAll codec consensus calls r.1
    (rest.1, r.2.1 ++ rest.2)

/-! ### What should become of a message -/

/-- A message that either loop would merge at its turn, whatever its topic, is merged. -/
def settleGossip (codec : GossipCodec A) (consensus : ConsensusEngine P) (clock : ℕ → ℕ) (n : ℕ)
    (h : Holdings A) (m : Gossip) : Holdings A × Bool :=
  match deliver codec consensus .state (clock n) h m.bytes with
  | .ok (h', true) => (h', true)
  | _ =>
    match deliver codec consensus .ledger (clock n) h m.bytes with
    | .ok (h', true) => (h', true)
    | _ => (h, false)

/-- The messages of a queue, with the holdings and the clock at their turn. -/
def GossipNode.turns (codec : GossipCodec A) (consensus : ConsensusEngine P) (clock : ℕ → ℕ)
    (g : GossipNode A) : List (Batch.Turn (Holdings A) Gossip) :=
  Batch.turns (settleGossip codec consensus clock) 0 g.holdings g.queue

/-- **What must not be lost**: a snapshot that is well formed, correctly signed and authorised; a block
from an authorised signer that the ledger accepts at its turn. -/
def Due (codec : GossipCodec A) (consensus : ConsensusEngine P) (clock : ℕ → ℕ)
    (t : Batch.Turn (Holdings A) Gossip) : Prop :=
  match openGossip P codec t.message.bytes with
  | .ok (.stateSnapshot _ snapshot, signer) =>
    t.state.node.authorises signer "state" (clock t.pos) = true ∧
      ∃ ops, loadFile A (codec.blob snapshot) = .ok ops
  | .ok (.ledgerBlock bytes, signer) =>
    t.state.node.authorises signer "ledger" (clock t.pos) = true ∧
      ∃ block, codec.block bytes = some block ∧
        (t.state.node.appendLedgerBlock P block consensus).2 = .ok ()
  | _ => False

/-! ### What the loops take -/

variable {codec : GossipCodec A} {consensus : ConsensusEngine P} {now n : ℕ} {clock : ℕ → ℕ}
  {h h' : Holdings A} {bytes : Bytes} {m : Gossip}

theorem deliver_skipped {topic : Topic} (hd : deliver codec consensus topic now h bytes = .ok (h', false)) :
    h' = h := by
  unfold deliver at hd
  split at hd
  · cases hd
  · split at hd
    · cases topic with
      | state =>
        unfold mergeMessage mergeStateMessage at hd
        dsimp only at hd
        split at hd
        · split at hd
          · cases hd
          · cases hd
        · exact (Prod.mk.inj (Except.ok.inj hd)).1.symm
      | ledger =>
        unfold mergeMessage mergeLedgerMessage at hd
        dsimp only at hd
        split at hd
        · split at hd
          · cases hd
          · split at hd
            · cases hd
            · cases hd
        · exact (Prod.mk.inj (Except.ok.inj hd)).1.symm
    · exact (Prod.mk.inj (Except.ok.inj hd)).1.symm

theorem deliver_state_taken (hd : deliver codec consensus .state now h bytes = .ok (h', true)) :
    ∃ document snapshot signer documents,
      openGossip P codec bytes = .ok (.stateSnapshot document snapshot, signer) ∧
      h.node.authorises signer "state" now = true ∧
      h.documents.mergeSnapshot document (codec.blob snapshot) = .ok documents ∧
      h' = { h with documents } := by
  unfold deliver at hd
  split at hd
  · cases hd
  · rename_i message signer hopen
    split at hd
    · rename_i hauth
      unfold mergeMessage mergeStateMessage at hd
      dsimp only at hd
      split at hd
      · rename_i document snapshot
        split at hd
        · cases hd
        · rename_i documents hmerge
          exact ⟨document, snapshot, signer, documents, hopen, hauth, hmerge,
            (Prod.mk.inj (Except.ok.inj hd)).1.symm⟩
      · cases hd
    · cases hd

theorem deliver_ledger_taken (hd : deliver codec consensus .ledger now h bytes = .ok (h', true)) :
    ∃ blockBytes signer block node, openGossip P codec bytes = .ok (.ledgerBlock blockBytes, signer) ∧
      h.node.authorises signer "ledger" now = true ∧ codec.block blockBytes = some block ∧
      h.node.appendLedgerBlock P block consensus = (node, .ok ()) ∧ h' = { h with node } := by
  unfold deliver at hd
  split at hd
  · cases hd
  · rename_i message signer hopen
    split at hd
    · rename_i hauth
      unfold mergeMessage mergeLedgerMessage at hd
      dsimp only at hd
      split at hd
      · rename_i blockBytes
        split at hd
        · cases hd
        · rename_i block hblock
          split at hd
          · cases hd
          · rename_i node happend
            exact ⟨blockBytes, signer, block, node, hopen, hauth, hblock, happend,
              (Prod.mk.inj (Except.ok.inj hd)).1.symm⟩
      · cases hd
    · cases hd

/-- What should become of a message is what one of the loops does. -/
theorem settleGossip_taken (hs : (settleGossip codec consensus clock n h m).2 = true) :
    deliver codec consensus .state (clock n) h m.bytes =
        .ok ((settleGossip codec consensus clock n h m).1, true) ∨
      deliver codec consensus .ledger (clock n) h m.bytes =
        .ok ((settleGossip codec consensus clock n h m).1, true) := by
  unfold settleGossip at hs ⊢
  split
  · rename_i h₁ hstate
    exact Or.inl hstate
  · rename_i hnot
    split
    · rename_i h₁ hledger
      exact Or.inr hledger
    · rename_i hnot'
      split at hs
      · rename_i h₁ hstate
        exact absurd hstate (hnot h₁)
      · split at hs
        · rename_i h₁ hledger
          exact absurd hledger (hnot' h₁)
        · cases hs

theorem settleGossip_untaken (hs : (settleGossip codec consensus clock n h m).2 = false) :
    (settleGossip codec consensus clock n h m).1 = h := by
  unfold settleGossip at hs ⊢
  split at hs
  · cases hs
  · split at hs
    · cases hs
    · rfl

theorem settleGossip_of_state (hd : deliver codec consensus .state (clock n) h m.bytes = .ok (h', true)) :
    settleGossip codec consensus clock n h m = (h', true) := by
  unfold settleGossip
  rw [hd]

/-- A message has one content, so what the second loop takes the first one does not. -/
theorem settleGossip_of_ledger
    (hd : deliver codec consensus .ledger (clock n) h m.bytes = .ok (h', true)) :
    settleGossip codec consensus clock n h m = (h', true) := by
  unfold settleGossip
  split
  · rename_i h₁ hstate
    obtain ⟨_, _, _, _, hopen, _⟩ := deliver_state_taken hstate
    obtain ⟨_, _, _, _, hopen', _⟩ := deliver_ledger_taken hd
    rw [hopen] at hopen'
    cases hopen'
  · rw [hd]

theorem due_of_settled (hs : (settleGossip codec consensus clock n h m).2 = true) :
    Due codec consensus clock ⟨n, h, m⟩ := by
  unfold Due
  rcases settleGossip_taken hs with hstate | hledger
  · obtain ⟨document, snapshot, signer, documents, hopen, hauth, hmerge, _⟩ :=
      deliver_state_taken hstate
    dsimp only
    rw [hopen]
    refine ⟨hauth, ?_⟩
    unfold StateStore.mergeSnapshot at hmerge
    split at hmerge
    · cases hmerge
    · rename_i ops hload
      exact ⟨ops, hload⟩
  · obtain ⟨blockBytes, signer, block, node, hopen, hauth, hblock, happend, _⟩ :=
      deliver_ledger_taken hledger
    dsimp only
    rw [hopen]
    exact ⟨hauth, block, hblock, congrArg Prod.snd happend⟩

/-- **The loops do what should be done**, to the messages they take. -/
theorem agrees (codec : GossipCodec A) (consensus : ConsensusEngine P) (topic : Topic)
    (clock : ℕ → ℕ) : Batch.Agrees (gossipBody codec consensus topic clock)
      (settleGossip codec consensus clock) (Due codec consensus clock) where
  takes := by
    intro n h m h' hb
    unfold gossipBody at hb
    split at hb
    · cases hb
    · cases topic with
      | state => exact settleGossip_of_state hb
      | ledger => exact settleGossip_of_ledger hb
  skips := by
    intro n h m h' hb
    unfold gossipBody at hb
    split at hb
    · exact (Prod.mk.inj (Except.ok.inj hb)).1.symm
    · exact deliver_skipped hb
  keeps := fun n h m => settleGossip_untaken
  due := fun n h m => due_of_settled

end Peerless.Node
