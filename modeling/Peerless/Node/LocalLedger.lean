import Peerless.Node.Policy

/-!
# The node's own ledger events

`append_ledger_event`: a node records its own events in blocks of the network `local`, of which it is
the only member.
-/

namespace Peerless.Node

open Text JsonText Peerless.Core Identity Chain

variable {P : Primitives}

/-- The node alone. -/
def ownMembers (own : NodeIdentity P) : MemberSet where
  ids := [own.nodeId]
  nodup := List.nodup_singleton _
  fits := by rw [List.length_singleton]; omega

/-- The finalized block of one event of the node, with the engine made for it. -/
def eventBlock (own : NodeIdentity P) (l : Ledger) (event : LedgerEvent) (now : ℕ) :
    Except LedgerError (QuorumConsensus × Block) :=
  match SignedEvent.seal event own with
  | .error err => .error err
  | .ok signed =>
    match QuorumConsensus.new "local" (ownMembers own) 1 with
    | .error err => .error err
    | .ok consensus =>
      match consensus.finalize (l.nextBlock P [signed] now "local") [own] with
      | (_, .error err) => .error err
      | (block, .ok ()) => .ok (consensus, block)

/-- `append_ledger_event`; `written` says whether the file system took the block file. -/
def appendLedgerEvent (own : NodeIdentity P) (dir : Dir) (l : Ledger) (event : LedgerEvent) (now : ℕ)
    (written : Bool) : Except LedgerError (Dir × Ledger) :=
  match eventBlock own l event now with
  | .error err => .error err
  | .ok (consensus, block) =>
    match l.append P dir block (consensus.engine P) with
    | .error err => .error err
    | .ok (dir, l, _) => if written then .ok (dir, l) else .error .io

variable {own : NodeIdentity P} {dir : Dir} {l : Ledger} {event : LedgerEvent} {now : ℕ}
  {written : Bool}

theorem eventBlock_ok {c : QuorumConsensus} {b : Block} (h : eventBlock own l event now = .ok (c, b)) :
    ∃ signed, signed.event = event ∧ b.events = [signed] := by
  unfold eventBlock at h
  split at h
  · cases h
  · rename_i signed hseal
    split at h
    · cases h
    · rename_i consensus _
      split at h
      · cases h
      · rename_i block hfin
        obtain ⟨rfl, rfl⟩ := Prod.mk.inj (Except.ok.inj h)
        refine ⟨signed, ?_, ?_⟩
        · unfold SignedEvent.seal at hseal
          split at hseal
          · cases hseal
          · rw [← Except.ok.inj hseal]
        · have hevents := consensus.finalize_events (l.nextBlock P [signed] now "local") [own]
          rw [hfin] at hevents
          exact hevents

theorem appendLedgerEvent_ok {dir' : Dir} {l' : Ledger}
    (h : appendLedgerEvent own dir l event now written = .ok (dir', l')) :
    ∃ b signed, l' = ⟨l.blocks ++ [b]⟩ ∧ b.events = [signed] ∧ signed.event = event := by
  unfold appendLedgerEvent at h
  split at h
  · cases h
  · rename_i consensus block hblock
    obtain ⟨signed, hevent, hevents⟩ := eventBlock_ok hblock
    split at h
    · cases h
    · rename_i dir₁ l₁ d happend
      obtain ⟨_, _, hr⟩ := Ledger.append_eq_ok_iff.mp happend
      split at h
      · obtain ⟨_, rfl⟩ := Prod.mk.inj (Except.ok.inj h)
        obtain ⟨_, hl, _⟩ := by simpa only [Prod.mk.injEq] using hr
        exact ⟨block, signed, hl, hevents, hevent⟩
      · cases h

/-! ### When the call succeeds -/

/-- What the environment must provide for an append: a clock that is not behind the last block, a
block that fits, a free name, and the write. -/
def appendable (own : NodeIdentity P) (dir : Dir) (l : Ledger) (event : LedgerEvent) (now : ℕ)
    (written : Bool) : Bool :=
  written && l.blocks.length < 2 ^ 64 && l.blocks.getLast?.all (fun last => last.timestamp ≤ now) &&
    match eventBlock own l event now with
    | .ok (_, block) =>
      block.encodePretty.length ≤ maxBlockBytes && !(dir.map Prod.fst).contains (block.fileName P)
    | .error _ => true

/-- With lawful primitives the node's block is finalized and passes every check of `append` but
those on the clock and the size. -/
theorem eventBlock_of_lawful (hP : P.Lawful) (own : NodeIdentity P) (l : Ledger) (event : LedgerEvent)
    (now : ℕ) : ∃ c b signed signatures, eventBlock own l event now = .ok (c, b) ∧
      b = { l.nextBlock P [signed] now "local" with consensus := ⟨"local", signatures⟩ } ∧
      signed.verify P = .ok true ∧ c.verify P b = .ok true := by
  obtain ⟨signed, hseal, _, hver⟩ := SignedEvent.verify_seal hP event own
  let consensus : QuorumConsensus := ⟨"local", ownMembers own, 1, by omega, le_refl _⟩
  have hnew : QuorumConsensus.new "local" (ownMembers own) 1 = .ok consensus := rfl
  obtain ⟨g, hfin, hacc⟩ := consensus.finalize_solo hP (l.nextBlock P [signed] now "local")
    (List.mem_singleton_self own.nodeId) rfl
  refine ⟨consensus, _, signed, _, ?_, rfl, hver, hacc⟩
  unfold eventBlock
  rw [hseal]
  simp only [hnew, hfin]
  rfl

/-- **The environment decides whether a node can record its event.** -/
theorem appendLedgerEvent_of_appendable (hP : P.Lawful)
    (h : appendable own dir l event now written = true) :
    ∃ r, appendLedgerEvent own dir l event now written = .ok r := by
  obtain ⟨c, b, signed, signatures, hblock, rfl, hsigned, hver⟩ :=
    eventBlock_of_lawful hP own l event now
  simp only [appendable, hblock, Bool.and_eq_true, decide_eq_true_eq, Bool.not_eq_true'] at h
  obtain ⟨⟨⟨hwritten, hroom⟩, hclock⟩, hsize, hfree⟩ := h
  have haccepts : l.Accepts P (c.engine P)
      { l.nextBlock P [signed] now "local" with consensus := ⟨"local", signatures⟩ } := by
    refine ⟨?_, Nat.mod_eq_of_lt hroom, rfl, rfl, ?_, rfl, hver, hsize⟩
    · show verifyEvents P [signed] = .ok true
      simp [verifyEvents, hsigned]
    · intro last hlast
      rw [Option.mem_def.mp hlast] at hclock
      exact of_decide_eq_true hclock
  have hname : Block.fileName P { l.nextBlock P [signed] now "local" with
      consensus := ⟨"local", signatures⟩ } ∉ dir.map Prod.fst := by
    intro hmem
    rw [List.contains_iff_mem.mpr hmem] at hfree
    cases hfree
  unfold appendLedgerEvent
  rw [hblock]
  simp only [Ledger.append_eq_ok_iff.mpr ⟨haccepts, hname, rfl⟩, hwritten, if_true]
  exact ⟨_, rfl⟩

end Peerless.Node
