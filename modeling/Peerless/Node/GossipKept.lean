import Peerless.Node.Gossip

/-!
# When gossip is kept

Two ways to lose a message are in the loops: the call of the other topic drains it, and a message before
it ends the call.  This module says that there are no others.

* `gossip_kept_iff` — a sequence of calls takes every authorised snapshot and every acceptable
  block of the queue exactly if each is in reach of the first call and none comes after a message that
  ends it.
-/

namespace Peerless.Node

open Text HashMap Peerless.Core Identity Protocol Chain State

variable {P : Primitives} {α : Type} [DecidableEq α] {A : Automerge α}

/-- The content of a message fits a topic and can be merged now. -/
def Mergeable (codec : GossipCodec A) (consensus : ConsensusEngine P) (h : Holdings A) :
    Topic → Message → Prop
  | .state, .stateSnapshot document snapshot =>
    ∃ documents, h.documents.mergeSnapshot document (codec.blob snapshot) = .ok documents
  | .ledger, .ledgerBlock bytes =>
    ∃ block, codec.block bytes = some block ∧ (h.node.appendLedgerBlock P block consensus).2 = .ok ()
  | _, _ => False

/-- The content of a message fits a topic and cannot be merged now. -/
def Unmergeable (codec : GossipCodec A) (consensus : ConsensusEngine P) (h : Holdings A) :
    Topic → Message → Prop
  | .state, .stateSnapshot document snapshot =>
    ∃ err, h.documents.mergeSnapshot document (codec.blob snapshot) = .error err
  | .ledger, .ledgerBlock bytes => ∀ block, codec.block bytes = some block →
    (h.node.appendLedgerBlock P block consensus).2 ≠ .ok ()
  | _, _ => False

/-- A message in reach of the calls of a topic: it was published there and can be merged at its turn. -/
def InReach (codec : GossipCodec A) (consensus : ConsensusEngine P) (topic : Topic)
    (t : Batch.Turn (Holdings A) Gossip) : Prop :=
  t.message.topic = topic.name ∧ ∃ message signer,
    openGossip P codec t.message.bytes = .ok (message, signer) ∧
      Mergeable codec consensus t.state topic message

/-- A message that ends a call of a topic: published there, it does not open, or its signer is authorised
and it cannot be merged. -/
def Obstructs (codec : GossipCodec A) (consensus : ConsensusEngine P) (topic : Topic) (clock : ℕ → ℕ)
    (t : Batch.Turn (Holdings A) Gossip) : Prop :=
  t.message.topic = topic.name ∧
    ((∃ err, openGossip P codec t.message.bytes = .error err) ∨
      ∃ message signer, openGossip P codec t.message.bytes = .ok (message, signer) ∧
        t.state.node.authorises signer topic.permission (clock t.pos) = true ∧
        Unmergeable codec consensus t.state topic message)

/-- **The condition on the first call.** -/
def GossipNode.Unobstructed (codec : GossipCodec A) (consensus : ConsensusEngine P) (topic : Topic)
    (clock : ℕ → ℕ) (g : GossipNode A) : Prop :=
  ∀ t ∈ g.turns codec consensus clock, Due codec consensus clock t → InReach codec consensus topic t ∧
    ∀ u ∈ g.turns codec consensus clock, u.pos < t.pos → ¬ Obstructs codec consensus topic clock u

/-- A message is reflected: the snapshot's operations are in the document, the block is in the ledger. -/
def Kept (P : Primitives) (codec : GossipCodec A) (m : Gossip) (h : Holdings A) : Prop :=
  match openGossip P codec m.bytes with
  | .ok (.stateSnapshot document snapshot, _) => ∃ incoming ops,
    loadFile A (codec.blob snapshot) = .ok incoming ∧ h.documents.fileOps document = some ops ∧
      ∀ o ∈ incoming, o ∈ ops
  | .ok (.ledgerBlock bytes, _) => ∃ block, codec.block bytes = some block ∧
    block ∈ h.node.ledger.blocks
  | _ => True

variable {codec : GossipCodec A} {consensus : ConsensusEngine P} {n : ℕ} {clock : ℕ → ℕ}
  {h : Holdings A} {m : Gossip}

/-! ### The condition -/

/-- The end of the loop merges, fails or passes over a message. -/
theorem mergeMessage_cases (codec : GossipCodec A) (consensus : ConsensusEngine P) (topic : Topic)
    (h : Holdings A) (message : Message) :
    ((∃ h', mergeMessage codec consensus topic h message = .ok (h', true)) ∧
      Mergeable codec consensus h topic message ∧ ¬ Unmergeable codec consensus h topic message) ∨
    ((∃ err, mergeMessage codec consensus topic h message = .error err) ∧
      ¬ Mergeable codec consensus h topic message ∧ Unmergeable codec consensus h topic message) ∨
    (mergeMessage codec consensus topic h message = .ok (h, false) ∧
      ¬ Mergeable codec consensus h topic message ∧ ¬ Unmergeable codec consensus h topic message) := by
  cases topic with
  | state =>
    cases message with
    | stateSnapshot document snapshot =>
      simp only [mergeMessage, mergeStateMessage, Mergeable, Unmergeable]
      cases h.documents.mergeSnapshot document (codec.blob snapshot) with
      | error err => exact Or.inr (Or.inl ⟨⟨_, rfl⟩, by simp, err, rfl⟩)
      | ok documents => exact Or.inl ⟨⟨_, rfl⟩, ⟨documents, rfl⟩, by simp⟩
    | _ => exact Or.inr (Or.inr ⟨rfl, id, id⟩)
  | ledger =>
    cases message with
    | ledgerBlock bytes =>
      simp only [mergeMessage, mergeLedgerMessage, Mergeable, Unmergeable]
      cases codec.block bytes with
      | none => exact Or.inr (Or.inl ⟨⟨_, rfl⟩, by simp, by simp⟩)
      | some block =>
        rcases happend : h.node.appendLedgerBlock P block consensus with ⟨node, result⟩
        cases result with
        | error err =>
          refine Or.inr (Or.inl ⟨⟨.node err, ?_⟩, ?_, ?_⟩)
          · simp only [happend]
          · simp [happend]
          · simp [happend]
        | ok _ =>
          refine Or.inl ⟨⟨{ h with node }, ?_⟩, ⟨block, rfl, congrArg Prod.snd happend⟩, ?_⟩
          · simp only [happend]
          · simp [happend]
    | _ => exact Or.inr (Or.inr ⟨rfl, id, id⟩)

variable {t : Batch.Turn (Holdings A) Gossip} {topic : Topic}

theorem due_authorised (hdue : Due codec consensus clock t) {message : Message} {signer : NodeId}
    (hopen : openGossip P codec t.message.bytes = .ok (message, signer))
    (hmerge : Mergeable codec consensus t.state topic message) :
    t.state.node.authorises signer topic.permission (clock t.pos) = true := by
  unfold Due at hdue
  rw [hopen] at hdue
  cases topic with
  | state =>
    cases message with
    | stateSnapshot document snapshot => exact hdue.1
    | _ => exact hmerge.elim
  | ledger =>
    cases message with
    | ledgerBlock bytes => exact hdue.1
    | _ => exact hmerge.elim

/-- A call takes what is due exactly if it is in reach. -/
theorem takes_iff_inReach (hdue : Due codec consensus clock t) :
    Batch.Takes (gossipBody codec consensus topic clock) t ↔ InReach codec consensus topic t := by
  unfold Batch.Takes gossipBody
  by_cases htopic : t.message.topic = topic.name
  · rw [if_neg (not_not.mpr htopic)]
    unfold deliver
    constructor
    · rintro ⟨h', htakes⟩
      split at htakes
      · cases htakes
      · rename_i message signer hopen
        split at htakes
        · refine ⟨htopic, message, signer, hopen, ?_⟩
          rcases mergeMessage_cases codec consensus topic t.state message with
            ⟨_, hmerge, _⟩ | ⟨⟨err, herr⟩, _⟩ | ⟨hskip, _⟩
          · exact hmerge
          · rw [herr] at htakes; cases htakes
          · rw [hskip] at htakes; cases htakes
        · cases htakes
    · rintro ⟨_, message, signer, hopen, hmerge⟩
      rw [hopen]
      dsimp only
      rw [if_pos (due_authorised hdue hopen hmerge)]
      rcases mergeMessage_cases codec consensus topic t.state message with
        ⟨htaken, _⟩ | ⟨_, hnot, _⟩ | ⟨_, hnot, _⟩
      · exact htaken
      · exact absurd hmerge hnot
      · exact absurd hmerge hnot
  · rw [if_pos htopic]
    constructor
    · rintro ⟨h', htakes⟩
      cases htakes
    · rintro ⟨hcarried, _⟩
      exact absurd hcarried htopic

theorem fails_iff_obstructs :
    Batch.Fails (gossipBody codec consensus topic clock) t ↔
      Obstructs codec consensus topic clock t := by
  unfold Batch.Fails gossipBody
  by_cases htopic : t.message.topic = topic.name
  · rw [if_neg (not_not.mpr htopic)]
    unfold deliver
    constructor
    · rintro ⟨err, hfails⟩
      refine ⟨htopic, ?_⟩
      split at hfails
      · rename_i err' hopen
        exact Or.inl ⟨err', hopen⟩
      · rename_i message signer hopen
        split at hfails
        · rename_i hauth
          refine Or.inr ⟨message, signer, hopen, hauth, ?_⟩
          rcases mergeMessage_cases codec consensus topic t.state message with
            ⟨⟨h', htaken⟩, _⟩ | ⟨_, _, hnot⟩ | ⟨hskip, _⟩
          · rw [htaken] at hfails; cases hfails
          · exact hnot
          · rw [hskip] at hfails; cases hfails
        · cases hfails
    · rintro ⟨_, ⟨err, hopen⟩ | ⟨message, signer, hopen, hauth, hnot⟩⟩
      · rw [hopen]
        exact ⟨_, rfl⟩
      · rw [hopen]
        dsimp only
        rw [if_pos hauth]
        rcases mergeMessage_cases codec consensus topic t.state message with
          ⟨_, _, hcan⟩ | ⟨hfails, _⟩ | ⟨_, _, hcan⟩
        · exact absurd hnot hcan
        · exact hfails
        · exact absurd hnot hcan
  · rw [if_pos htopic]
    constructor
    · rintro ⟨err, hfails⟩
      cases hfails
    · rintro ⟨hcarried, _⟩
      exact absurd hcarried htopic

theorem clear_iff_unobstructed (g : GossipNode A) (topic : Topic) :
    Batch.Clear (gossipBody codec consensus topic clock) (Due codec consensus clock)
        (g.turns codec consensus clock) ↔ g.Unobstructed codec consensus topic clock := by
  unfold Batch.Clear GossipNode.Unobstructed
  constructor
  · intro hclear t ht hdue
    obtain ⟨htakes, hbefore⟩ := hclear t ht hdue
    exact ⟨(takes_iff_inReach hdue).mp htakes, fun u hu hlt hobstructs =>
      hbefore u hu hlt (fails_iff_obstructs.mpr hobstructs)⟩
  · intro hclear t ht hdue
    obtain ⟨hreach, hbefore⟩ := hclear t ht hdue
    exact ⟨(takes_iff_inReach hdue).mpr hreach, fun u hu hlt hfails =>
      hbefore u hu hlt (fails_iff_obstructs.mp hfails)⟩

/-! ### What is merged stays -/

/-- **A message that is merged at its turn is reflected.** -/
theorem kept_of_settled (hA : A.Lawful)
    (hs : (settleGossip codec consensus clock n h m).2 = true) :
    Kept P codec m (settleGossip codec consensus clock n h m).1 := by
  unfold Kept
  rcases settleGossip_taken hs with hstate | hledger
  · obtain ⟨document, snapshot, signer, documents, hopen, _, hmerge, hh'⟩ :=
      deliver_state_taken hstate
    rw [hopen, hh']
    obtain ⟨incoming, ops, hload, hfile, hunion⟩ := StateStore.mergeSnapshot_ok hA hmerge
    exact ⟨incoming, ops, hload, hfile, (joined_grows hunion).2⟩
  · obtain ⟨blockBytes, signer, block, node, hopen, _, hblock, happend, hh'⟩ :=
      deliver_ledger_taken hledger
    rw [hopen, hh']
    refine ⟨block, hblock, ?_⟩
    show block ∈ node.ledger.blocks
    rw [(appendLedgerBlock_ok happend).2.2]
    exact List.mem_append_right _ List.mem_cons_self

/-- What a message changes only adds to documents and ledger. -/
theorem settleGossip_grows (hA : A.Lawful) (codec : GossipCodec A) (consensus : ConsensusEngine P)
    (clock : ℕ → ℕ) (n : ℕ) (h : Holdings A) (m : Gossip) :
    (∀ document ops, h.documents.fileOps document = some ops → ∃ ops',
      (settleGossip codec consensus clock n h m).1.documents.fileOps document = some ops' ∧
        ∀ o ∈ ops, o ∈ ops') ∧
    ∀ block ∈ h.node.ledger.blocks,
      block ∈ (settleGossip codec consensus clock n h m).1.node.ledger.blocks := by
  cases hs : (settleGossip codec consensus clock n h m).2 with
  | false =>
    rw [settleGossip_untaken hs]
    exact ⟨fun _ ops hfile => ⟨ops, hfile, fun _ ho => ho⟩, fun _ hblock => hblock⟩
  | true =>
    rcases settleGossip_taken hs with hstate | hledger
    · obtain ⟨_, _, _, documents, _, _, hmerge, hh'⟩ := deliver_state_taken hstate
      rw [hh']
      exact ⟨fun _ _ hfile => StateStore.mergeSnapshot_grows hA hmerge hfile, fun _ hblock => hblock⟩
    · obtain ⟨_, _, _, node, _, _, _, happend, hh'⟩ := deliver_ledger_taken hledger
      rw [hh']
      refine ⟨fun _ ops hfile => ⟨ops, hfile, fun _ ho => ho⟩, fun b hb => ?_⟩
      show b ∈ node.ledger.blocks
      rw [(appendLedgerBlock_ok happend).2.2]
      exact List.mem_append_left _ hb

theorem kept_stays (hA : A.Lawful) {m' : Gossip} (hkept : Kept P codec m' h) :
    Kept P codec m' (settleGossip codec consensus clock n h m).1 := by
  obtain ⟨hdocuments, hblocks⟩ := settleGossip_grows hA codec consensus clock n h m
  unfold Kept at hkept ⊢
  split
  · rename_i document snapshot signer hopen
    rw [hopen] at hkept
    obtain ⟨incoming, ops, hload, hfile, hsub⟩ := hkept
    obtain ⟨ops', hfile', hgrow⟩ := hdocuments document ops hfile
    exact ⟨incoming, ops', hload, hfile', fun o ho => hgrow o (hsub o ho)⟩
  · rename_i bytes signer hopen
    rw [hopen] at hkept
    obtain ⟨block, hblock, hmem⟩ := hkept
    exact ⟨block, hblock, hblocks block hmem⟩
  · trivial

/-! ### Sequences of calls -/

/-- Once the queue is drained, further calls find nothing. -/
theorem mergeAll_empty : ∀ (calls : List (Topic × (ℕ → ℕ))) (g : GossipNode A), g.queue = [] →
    g.mergeAll codec consensus calls = (g, []) := by
  intro calls
  induction calls with
  | nil => intro g _; rfl
  | cons call calls ih =>
    intro g hempty
    obtain ⟨holdings, queue⟩ := g
    obtain rfl : queue = [] := hempty
    show ((GossipNode.mergeAll codec consensus calls ⟨holdings, []⟩).1,
      [] ++ (GossipNode.mergeAll codec consensus calls ⟨holdings, []⟩).2) = _
    rw [ih ⟨holdings, []⟩ rfl]
    rfl

/-- **No gossip is lost exactly if nothing obstructs the first call.**  Whatever calls follow, they take
every due message of the queue if and only if each is in reach of the first call and none comes after a
message that ends it; and then every due snapshot is in its document and every due block in the
ledger. -/
theorem gossip_kept_iff (hA : A.Lawful) (codec : GossipCodec A) (consensus : ConsensusEngine P)
    (g : GossipNode A) (topic : Topic) (clock : ℕ → ℕ) (calls : List (Topic × (ℕ → ℕ))) :
    ((∀ t ∈ g.turns codec consensus clock, Due codec consensus clock t →
        t.pos ∈ (g.mergeAll codec consensus ((topic, clock) :: calls)).2) ↔
      g.Unobstructed codec consensus topic clock) ∧
    (g.Unobstructed codec consensus topic clock →
      ∀ t ∈ g.turns codec consensus clock, Due codec consensus clock t →
        Kept P codec t.message (g.mergeAll codec consensus ((topic, clock) :: calls)).1.holdings) := by
  have hall : g.mergeAll codec consensus ((topic, clock) :: calls) =
      (⟨(Batch.drain (gossipBody codec consensus topic clock) 0 g.holdings g.queue).1, []⟩,
        (Batch.drain (gossipBody codec consensus topic clock) 0 g.holdings g.queue).2.1) := by
    show ((GossipNode.mergeAll codec consensus calls ⟨_, []⟩).1,
      _ ++ (GossipNode.mergeAll codec consensus calls ⟨_, []⟩).2) = _
    rw [mergeAll_empty calls _ rfl, List.append_nil]
    rfl
  have hagrees := agrees codec consensus topic clock
  rw [hall]
  constructor
  · rw [← clear_iff_unobstructed]
    exact Batch.drained_iff hagrees g.queue 0 g.holdings
  · intro hclear t ht hdue
    rw [← clear_iff_unobstructed] at hclear
    show Kept P codec t.message
      (Batch.drain (gossipBody codec consensus topic clock) 0 g.holdings g.queue).1
    rw [Batch.drain_eq_ideal hagrees g.queue 0 g.holdings hclear]
    obtain ⟨s', htakes⟩ := (hclear t ht hdue).1
    have hsettled : (settleGossip codec consensus clock t.pos t.state t.message).2 = true := by
      rw [hagrees.takes _ _ _ _ htakes]
    exact Batch.ideal_of_turn (Q := fun t h => Kept P codec t.message h)
      (fun n h m hs => kept_of_settled hA hs) (fun t n h m hkept => kept_stays hA hkept)
      g.queue 0 g.holdings t ht hsettled

/-! ### Nodes with snapshots in their queues -/

section Samples

open Sample

/-- Envelopes of the key string `[1]`: `[0]` is none, `[1]` is a question, and every other message is a
snapshot of the document `notes`. -/
def notesCodec : GossipCodec sampleAutomerge where
  envelope := fun bytes =>
    if bytes = [0] then none else (SignedEnvelope.seal bytes (identity [1])).toOption
  message := fun bytes => some (if bytes = [1] then .getCapability else .stateSnapshot "notes" [])
  block := fun _ => none
  blob := fun _ => [creation 1]

/-- An engine that accepts every block. -/
def lenientEngine : ConsensusEngine primitives := ⟨fun block _ => (block, .ok ()), fun _ => .ok true⟩

/-- A new node with one snapshot in its queue. -/
def notesNode : GossipNode sampleAutomerge where
  holdings := ⟨PeerlessNode.blank ⟨none, none, []⟩ ⟨[]⟩, ∅⟩
  queue := [⟨Topic.state.name, [2]⟩]

theorem notes_due {t : Batch.Turn (Holdings sampleAutomerge) Gossip} (hbytes : t.message.bytes = [2])
    (hauth : t.state.node.authorises (member [1]) "state" 7 = true) :
    Due notesCodec lenientEngine (fun _ => 7) t := by
  have hopen : openGossip primitives notesCodec [2] = .ok (.stateSnapshot "notes" [], member [1]) := by
    decide +kernel
  unfold Due
  rw [hbytes, hopen]
  exact ⟨hauth, [creation 1], rfl⟩

/-- The snapshot among what is not due: garbage and a question on the topic of the ledger, and a question on
its own topic. -/
def crowdedNode : GossipNode sampleAutomerge where
  holdings := notesNode.holdings
  queue := [⟨Topic.ledger.name, [0]⟩, ⟨Topic.state.name, [1]⟩, ⟨Topic.state.name, [2]⟩,
    ⟨Topic.ledger.name, [1]⟩, ⟨Topic.state.name, [2]⟩]

theorem crowded_due {t : Batch.Turn (Holdings sampleAutomerge) Gossip}
    (ht : t ∈ crowdedNode.turns notesCodec lenientEngine fun _ => 7)
    (hdue : Due notesCodec lenientEngine (fun _ => 7) t) : t.pos ∈ [2, 4] := by
  have hturns : (crowdedNode.turns notesCodec lenientEngine fun _ => 7).all (fun t =>
      t.message.bytes = [0] ∨ t.message.bytes = [1] ∨ t.pos ∈ [2, 4]) = true := by
    decide +kernel
  have hgarbage : openGossip primitives notesCodec [0] = .error .json := by decide +kernel
  have hquestion : openGossip primitives notesCodec [1] = .ok (.getCapability, member [1]) := by
    decide +kernel
  unfold Due at hdue
  rcases of_decide_eq_true (List.all_eq_true.mp hturns t ht) with hbytes | hbytes | hpos
  · rw [hbytes, hgarbage] at hdue
    exact hdue.elim
  · rw [hbytes, hquestion] at hdue
    exact hdue.elim
  · exact hpos

/-- A call for state gossip that comes first passes over the rest and takes the snapshot both times. -/
theorem taken_by_its_own :
    crowdedNode.Unobstructed notesCodec lenientEngine .state (fun _ => 7) ∧
    (crowdedNode.mergeAll notesCodec lenientEngine [(.state, fun _ => 7), (.ledger, fun _ => 8)]).2 =
      [2, 4] ∧
    ∃ t ∈ crowdedNode.turns notesCodec lenientEngine fun _ => 7, t.pos = 4 ∧
      Due notesCodec lenientEngine (fun _ => 7) t ∧
      Kept primitives notesCodec t.message (crowdedNode.mergeAll notesCodec lenientEngine
        [(.state, fun _ => 7), (.ledger, fun _ => 8)]).1.holdings := by
  have hkept := gossip_kept_iff sampleAutomerge_lawful notesCodec lenientEngine crowdedNode .state
    (fun _ => 7) [(.ledger, fun _ => 8)]
  have htaken : (crowdedNode.mergeAll notesCodec lenientEngine
      [(.state, fun _ => 7), (.ledger, fun _ => 8)]).2 = [2, 4] := by
    decide +kernel
  have hfree := hkept.1.mp fun t ht hdue => by
    rw [htaken]
    exact crowded_due ht hdue
  have hlast : (crowdedNode.turns notesCodec lenientEngine fun _ => 7)[4]?.any (fun t => t.pos = 4 ∧
      t.message.bytes = [2] ∧ t.state.node.authorises (member [1]) "state" 7 = true) = true := by
    decide +kernel
  obtain ⟨t, hturn, hfacts⟩ := (Option.any_eq_true ..).mp hlast
  obtain ⟨hpos, hbytes, hauth⟩ := of_decide_eq_true hfacts
  have ht := List.mem_of_getElem? hturn
  have hdue := notes_due hbytes hauth
  exact ⟨hfree, htaken, t, ht, hpos, hdue, hkept.2 hfree t ht hdue⟩

/-- **Drained by the other call.**  The call for ledger gossip comes first: it drains the queue and
passes over the snapshot, and the call for state gossip finds nothing. -/
theorem drained_by_the_other :
    ∃ t ∈ notesNode.turns notesCodec lenientEngine fun _ => 7,
      Due notesCodec lenientEngine (fun _ => 7) t ∧
      ∃ g, notesNode.mergeAll notesCodec lenientEngine [(.ledger, fun _ => 7), (.state, fun _ => 8)] =
          (g, []) ∧ g.queue = [] ∧ g.holdings.documents.fileOps "notes" = none := by
  refine ⟨⟨0, notesNode.holdings, ⟨Topic.state.name, [2]⟩⟩, List.mem_singleton.mpr rfl,
    notes_due rfl (by decide +kernel),
    (notesNode.mergeAll notesCodec lenientEngine [(.ledger, fun _ => 7), (.state, fun _ => 8)]).1,
    Prod.ext rfl ?_, ?_, ?_⟩
  · decide +kernel
  · rfl
  · rfl

end Samples

end Peerless.Node
