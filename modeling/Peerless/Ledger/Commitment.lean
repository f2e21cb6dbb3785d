import Peerless.Ledger.Reopen

/-!
# What the signed bytes and the events root fix

The members of a quorum sign version, previous hash, height, timestamp and events root; the hash of a
block covers the whole block.

* `tip_eq_iff` — among accepted blocks with the same signed bytes and as many events,
  the block hash adds exactly the consensus proof.  With one proof the two ledgers take the same
  successors; with two proofs no block is a successor of both;
* `eventsRoot_commits_iff` — a root fixes the event list unless the lists differ only by
  the blocks that padding repeats, and then `append` takes one list in the place of the other.
-/

namespace Peerless.Chain

open Text JsonText Peerless.Core Identity Sample

variable {P : Primitives}

theorem verifyEvents_eq_true_iff : ∀ es : List SignedEvent,
    verifyEvents P es = .ok true ↔ ∀ e ∈ es, e.verify P = .ok true := by
  intro es
  induction es with
  | nil => simp [verifyEvents]
  | cons e es ih =>
    rw [verifyEvents, List.forall_mem_cons, ← ih]
    cases e.verify P with
    | error err => simp
    | ok v =>
      cases verifyEvents P es with
      | error err => simp
      | ok r => simp

/-! ### The tip -/

theorem Ledger.tip_append (l : Ledger) (b : Block) :
    Ledger.tip P ⟨l.blocks ++ [b]⟩ = some (b.hash P) := by
  simp [Ledger.tip]

/-- The strings hashed for two blocks and their events. -/
def blockStrings (P : Primitives) (a b : Block) : List Bytes :=
  hashedStrings P a.events ++ hashedStrings P b.events ++ [a.encode, b.encode]

variable {l₁ l₂ : Ledger} {b : Block}

/-- Accepted blocks with the same signed bytes and as many events carry the same events. -/
theorem events_eq_of_proposal {e₁ e₂ : ConsensusEngine P} {a : Block}
    (hcf : PairTree.CollisionFree P.sha256 (blockStrings P a b)) (ha : l₁.Accepts P e₁ a)
    (hb : l₂.Accepts P e₂ b) (hprop : a.proposalBytes = b.proposalBytes)
    (hlen : a.events.length = b.events.length) : a.events = b.events := by
  have hroot : eventsRoot P a.events = eventsRoot P b.events := by
    rw [← ha.root, ← hb.root, (Block.proposalBytes_eq_iff.mp hprop).2.2.2.2]
  have hsub := hcf.mono (List.subset_append_left _ _)
  exact PairTree.eq_of_padded_eq hlen ((eventsRoot_eq_iff hsub).mp hroot)

theorem hash_eq_iff {e₁ e₂ : ConsensusEngine P} {a : Block}
    (hcf : PairTree.CollisionFree P.sha256 (blockStrings P a b)) (ha : l₁.Accepts P e₁ a)
    (hb : l₂.Accepts P e₂ b) (hprop : a.proposalBytes = b.proposalBytes)
    (hlen : a.events.length = b.events.length) : a.hash P = b.hash P ↔ a.consensus = b.consensus := by
  constructor
  · intro h
    have henc := hcf a.encode (by simp [blockStrings]) b.encode (by simp [blockStrings]) h
    rw [Block.encode_injective henc]
  · intro h
    have hevents := events_eq_of_proposal hcf ha hb hprop hlen
    obtain ⟨hv, hp, hh, ht, hr⟩ := Block.proposalBytes_eq_iff.mp hprop
    have hab : a = b := by
      cases a
      cases b
      simp only at hv hp hh ht hr hevents h
      rw [hv, hp, hh, ht, hr, hevents, h]
    rw [hab]

/-- Ledgers of one length with one tip and one last timestamp accept the same blocks. -/
theorem accepts_congr {e : ConsensusEngine P} {c : Block} (hlen : l₁.blocks.length = l₂.blocks.length)
    (htip : l₁.tip P = l₂.tip P)
    (htime : l₁.blocks.getLast?.map Block.timestamp = l₂.blocks.getLast?.map Block.timestamp)
    (h : l₁.Accepts P e c) : l₂.Accepts P e c where
  events := h.events
  height := h.height.trans hlen
  previous := h.previous.trans htip
  version := h.version
  timestamp := by
    intro x hx
    have hmap : l₁.blocks.getLast?.map Block.timestamp = some x.timestamp := by
      rw [htime, Option.mem_def.mp hx]
      rfl
    obtain ⟨y, hy, hyx⟩ := Option.map_eq_some_iff.mp hmap
    rw [← hyx]
    exact h.timestamp y hy
  root := h.root
  consensus := h.consensus
  size := h.size

/-- **The consensus proof is part of the block's identity.**  Two blocks with the same signed bytes
and as many events, appended to the same ledger: the new tips agree exactly when the proofs
do.  Then the next block of one is the next block of the other and both take the same successors;
otherwise no block is a successor of both. -/
theorem tip_eq_iff {l l₁ l₂ : Ledger} {d₁ d₂ d₁' d₂' : Dir} {h₁ h₂ : Digest} {e : ConsensusEngine P}
    {a b : Block} (hcf : PairTree.CollisionFree P.sha256 (blockStrings P a b))
    (ha : l.append P d₁ a e = .ok (d₁', l₁, h₁)) (hb : l.append P d₂ b e = .ok (d₂', l₂, h₂))
    (hprop : a.proposalBytes = b.proposalBytes) (hlen : a.events.length = b.events.length) :
    (l₁.tip P = l₂.tip P ↔ a.consensus = b.consensus) ∧
    (a.consensus = b.consensus →
      (∀ events timestamp networkId, l₁.nextBlock P events timestamp networkId =
        l₂.nextBlock P events timestamp networkId) ∧
      ∀ (e' : ConsensusEngine P) (c : Block), l₁.Accepts P e' c ↔ l₂.Accepts P e' c) ∧
    (a.consensus ≠ b.consensus →
      ∀ (e₁ e₂ : ConsensusEngine P) (c : Block), ¬ (l₁.Accepts P e₁ c ∧ l₂.Accepts P e₂ c)) := by
  obtain ⟨hacc, _, hra⟩ := Ledger.append_eq_ok_iff.mp ha
  obtain ⟨hbcc, _, hrb⟩ := Ledger.append_eq_ok_iff.mp hb
  simp only [Prod.mk.injEq] at hra hrb
  obtain ⟨_, rfl, _⟩ := hra
  obtain ⟨_, rfl, _⟩ := hrb
  have htip : Ledger.tip P ⟨l.blocks ++ [a]⟩ = Ledger.tip P ⟨l.blocks ++ [b]⟩ ↔
      a.consensus = b.consensus := by
    rw [Ledger.tip_append, Ledger.tip_append, Option.some.injEq]
    exact hash_eq_iff hcf hacc hbcc hprop hlen
  have hcount : (l.blocks ++ [a]).length = (l.blocks ++ [b]).length := by simp
  have htime : (l.blocks ++ [a]).getLast?.map Block.timestamp =
      (l.blocks ++ [b]).getLast?.map Block.timestamp := by
    simp [(Block.proposalBytes_eq_iff.mp hprop).2.2.2.1]
  refine ⟨htip, fun hc => ⟨?_, fun e' c => ?_⟩, fun hc e₁ e₂ c => ?_⟩
  · intro events timestamp networkId
    simp only [Ledger.nextBlock, htip.mpr hc, hcount]
  · exact ⟨accepts_congr hcount (htip.mpr hc) htime,
      accepts_congr hcount.symm (htip.mpr hc).symm htime.symm⟩
  · intro ⟨hc₁, hc₂⟩
    exact hc (htip.mp (hc₁.previous.symm.trans hc₂.previous))

/-- The first block of the sample node. -/
def firstBlock : Block := soloBlock ⟨[]⟩ "local"

/-- The same block, relayed with its only entry repeated. -/
def relayedBlock : Block :=
  firstBlock.withSignatures (firstBlock.consensus.signatures ++ firstBlock.consensus.signatures)

/-- What appending a block to the empty ledger returns. -/
def afterFirst (b : Block) : Dir × Ledger × Digest := ([b.file primitives], ⟨[b]⟩, b.hash primitives)

theorem append_afterFirst {e : ConsensusEngine primitives}
    (h : (Ledger.append primitives [] ⟨[]⟩ b e).toOption.isSome = true) :
    Ledger.append primitives [] ⟨[]⟩ b e = .ok (afterFirst b) := by
  cases happend : Ledger.append primitives [] ⟨[]⟩ b e with
  | error err => rw [happend] at h; cases h
  | ok result => exact congrArg Except.ok (Ledger.append_eq_ok_iff.mp happend).2.2

theorem append_firstBlock : Ledger.append primitives [] ⟨[]⟩ firstBlock
    ((soloEngine "local").engine primitives) = .ok (afterFirst firstBlock) :=
  append_afterFirst (by decide +kernel)

theorem append_relayedBlock : Ledger.append primitives [] ⟨[]⟩ relayedBlock
    ((soloEngine "local").engine primitives) = .ok (afterFirst relayedBlock) :=
  append_afterFirst (by decide +kernel)

/-- The block built on one copy does not follow both. -/
theorem relayed_no_common_successor :
    Ledger.tip primitives ⟨[firstBlock]⟩ ≠ Ledger.tip primitives ⟨[relayedBlock]⟩ ∧
    ¬ (Ledger.Accepts primitives ⟨[firstBlock]⟩ ((soloEngine "local").engine primitives)
        (soloBlock ⟨[firstBlock]⟩ "local") ∧
      Ledger.Accepts primitives ⟨[relayedBlock]⟩ ((soloEngine "local").engine primitives)
        (soloBlock ⟨[firstBlock]⟩ "local")) := by
  have hcf : PairTree.CollisionFree primitives.sha256
      (blockStrings primitives firstBlock relayedBlock) := by
    unfold PairTree.CollisionFree
    decide +kernel
  have hproofs : firstBlock.consensus ≠ relayedBlock.consensus := by decide +kernel
  have htips := tip_eq_iff hcf append_firstBlock append_relayedBlock rfl rfl
  exact ⟨fun h => hproofs (htips.1.mp h), htips.2.2 hproofs _ _ _⟩

/-- **One proposal, two tips.**  Both copies are accepted under the same engine with the same signed
bytes, and the ledgers end in different hashes. -/
theorem relayed_tip_differs : firstBlock.proposalBytes = relayedBlock.proposalBytes ∧
    Ledger.append primitives [] ⟨[]⟩ firstBlock ((soloEngine "local").engine primitives) =
      .ok (afterFirst firstBlock) ∧
    Ledger.append primitives [] ⟨[]⟩ relayedBlock ((soloEngine "local").engine primitives) =
      .ok (afterFirst relayedBlock) ∧
    (afterFirst firstBlock).2.1.tip primitives ≠ (afterFirst relayedBlock).2.1.tip primitives := by
  exact ⟨rfl, append_firstBlock, append_relayedBlock, by decide +kernel⟩

/-! ### The events root -/

/-- The engine looks at the signed bytes and the proof of a block only. -/
def ReadsProposal (e : ConsensusEngine P) : Prop :=
  ∀ a b : Block, a.proposalBytes = b.proposalBytes → a.consensus = b.consensus →
    e.verify a = e.verify b

theorem QuorumConsensus.readsProposal (e : QuorumConsensus) : ReadsProposal (e.engine P) :=
  fun _ _ hp hc => e.verify_congr hp hc

theorem BftConsensus.readsProposal (e : BftConsensus) : ReadsProposal (e.engine P) := by
  intro a b hp hc
  show e.verify P a = e.verify P b
  rw [BftConsensus.verify, BftConsensus.verify, hc, (Block.proposalBytes_eq_iff.mp hp).2.2.1,
    e.inner.verify_congr hp hc]

/-- The block with another event list under the same signed bytes. -/
def Block.withEvents (b : Block) (events : List SignedEvent) : Block := { b with events }

/-- What decides whether another event list passes in the place of the accepted one. -/
theorem accepts_withEvents_iff {l : Ledger} {e : ConsensusEngine P} (he : ReadsProposal e)
    {events : List SignedEvent} (hb : l.Accepts P e b)
    (hcf : PairTree.CollisionFree P.sha256 (hashedStrings P b.events ++ hashedStrings P events)) :
    l.Accepts P e (b.withEvents events) ↔ PairTree.padded b.events = PairTree.padded events ∧
      (b.withEvents events).encodePretty.length ≤ maxBlockBytes := by
  have hroot := eventsRoot_eq_iff hcf
  constructor
  · intro h
    exact ⟨hroot.mp (hb.root.symm.trans h.root), h.size⟩
  · intro ⟨hpad, hsize⟩
    have hsub : ∀ x ∈ events, x ∈ b.events := by
      intro x hx
      apply PairTree.mem_of_mem_padded
      rw [hpad]
      exact (PairTree.prefix_padded events).subset hx
    refine ⟨?_, hb.height, hb.previous, hb.version, hb.timestamp, ?_, ?_, hsize⟩
    · refine (verifyEvents_eq_true_iff _).mpr fun x hx => ?_
      exact (verifyEvents_eq_true_iff _).mp hb.events x (hsub x hx)
    · exact hb.root.trans (hroot.mpr hpad)
    · rw [he (b.withEvents events) b rfl rfl]
      exact hb.consensus

/-- **What an events root commits to.**  For two event lists without a hash collision: equal roots
give equal lists exactly when the lists are equal or differ beyond the blocks that padding
repeats.  Lists of one length always do.  And an accepted block is accepted with another event list
exactly when the two lists have one padded form (and the file is not too large). -/
theorem eventsRoot_commits_iff {es₁ es₂ : List SignedEvent}
    (hcf : PairTree.CollisionFree P.sha256 (hashedStrings P es₁ ++ hashedStrings P es₂)) :
    ((eventsRoot P es₁ = eventsRoot P es₂ → es₁ = es₂) ↔
      (es₁ = es₂ ∨ PairTree.padded es₁ ≠ PairTree.padded es₂)) ∧
    (es₁.length = es₂.length → eventsRoot P es₁ = eventsRoot P es₂ → es₁ = es₂) ∧
    (∀ (l : Ledger) (e : ConsensusEngine P) (b : Block), ReadsProposal e → b.events = es₁ →
      l.Accepts P e b → (l.Accepts P e (b.withEvents es₂) ↔
        PairTree.padded es₁ = PairTree.padded es₂ ∧
          (b.withEvents es₂).encodePretty.length ≤ maxBlockBytes)) := by
  have hroot := eventsRoot_eq_iff hcf
  refine ⟨?_, ?_, ?_⟩
  · rw [hroot]
    constructor
    · intro h
      by_cases hp : PairTree.padded es₁ = PairTree.padded es₂
      · exact Or.inl (h hp)
      · exact Or.inr hp
    · intro h hp
      rcases h with h | h
      · exact h
      · exact absurd hp h
  · intro hlen h
    exact PairTree.eq_of_padded_eq hlen (hroot.mp h)
  · intro l e b he hes hb
    subst hes
    exact accepts_withEvents_iff he hb hcf

/-- The sample event of a task, signed with the sample key. -/
def sampleEvent (taskId : String) : SignedEvent :=
  ⟨.taskCreated taskId, member [1], [1], 1 :: write (LedgerEvent.taskCreated taskId).toJson⟩

/-- Two events in either order have different roots. -/
theorem eventsRoot_ordered : eventsRoot primitives [sampleEvent "a", sampleEvent "b"] ≠
    eventsRoot primitives [sampleEvent "b", sampleEvent "a"] := by
  intro h
  have hcf : PairTree.CollisionFree primitives.sha256
      (hashedStrings primitives [sampleEvent "a", sampleEvent "b"] ++
        hashedStrings primitives [sampleEvent "b", sampleEvent "a"]) := by
    unfold PairTree.CollisionFree
    decide +kernel
  exact absurd ((eventsRoot_commits_iff hcf).2.1 rfl h) (by decide +kernel)

/-- A block with three events, finalized by the sample node. -/
def threeEvents : Block :=
  ((soloEngine "local").finalize (Ledger.nextBlock primitives ⟨[]⟩
    [sampleEvent "a", sampleEvent "b", sampleEvent "c"] 0 "local") [identity [1]]).1

set_option maxRecDepth 20000 in
/-- **Three events, or four.**  The last event can be repeated: the root stays, and both blocks are
accepted on the quorum's one set of signatures. -/
theorem threeEvents_repeated :
    threeEvents.events ≠ threeEvents.events ++ [sampleEvent "c"] ∧
    eventsRoot primitives threeEvents.events =
      eventsRoot primitives (threeEvents.events ++ [sampleEvent "c"]) ∧
    Ledger.append primitives [] ⟨[]⟩ threeEvents ((soloEngine "local").engine primitives) =
      .ok (afterFirst threeEvents) ∧
    Ledger.append primitives [] ⟨[]⟩ (threeEvents.withEvents (threeEvents.events ++ [sampleEvent "c"]))
        ((soloEngine "local").engine primitives) =
      .ok (afterFirst (threeEvents.withEvents (threeEvents.events ++ [sampleEvent "c"]))) := by
  -- one evaluation for all four: the blocks share their events, their root and their signatures
  have heval : threeEvents.events ≠ threeEvents.events ++ [sampleEvent "c"] ∧
      eventsRoot primitives threeEvents.events =
        eventsRoot primitives (threeEvents.events ++ [sampleEvent "c"]) ∧
      (Ledger.append primitives [] ⟨[]⟩ threeEvents
        ((soloEngine "local").engine primitives)).toOption.isSome = true ∧
      (Ledger.append primitives [] ⟨[]⟩
        (threeEvents.withEvents (threeEvents.events ++ [sampleEvent "c"]))
        ((soloEngine "local").engine primitives)).toOption.isSome = true := by
    decide +kernel
  exact ⟨heval.1, heval.2.1, append_afterFirst heval.2.2.1, append_afterFirst heval.2.2.2⟩

end Peerless.Chain
