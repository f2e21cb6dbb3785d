import Peerless.Lib.Threads
import Peerless.Node.Revocation

/-!
# Concurrent appends

A call of `append_ledger_block` takes three locks one after another: the ledger for the block, the
revoked set for the block's changes, the policy for its entries.  Between two of them other calls run, so
the changes of two blocks can reach the revoked set in another order than the blocks reached the ledger.

* `revoked_follows_iff` — with no call in progress, the revoked set is the ledger's exactly if
  for every member the change applied last is the change appended last;
* `revoked_follows_run` — so it is if the changes are applied in the order of the blocks.
-/

namespace Peerless.Node

open Text HashMap Peerless.Core Identity Chain Sample

variable {P : Primitives}

/-! ### The sections of a call -/

/-- Where a call of `append_ledger_block` stands. -/
inductive AppendPoint (P : Primitives) where
  | called (block : Block) (consensus : ConsensusEngine P)
  | applying (changes : List (NodeId × Bool))
  | retaining (snapshot : Finset NodeId)
  | returned (result : Except NodeError Unit)

/-- The call is over. -/
def AppendPoint.hasReturned : AppendPoint P → Bool
  | .returned _ => true
  | _ => false

/-- The node, and the change lists in the order in which they were applied, which only the statements
below look at. -/
structure Appending where
  node : PeerlessNode
  applied : List (List (NodeId × Bool))

/-- A call with its block and its consensus engine. -/
def AppendPoint.start (request : Block × ConsensusEngine P) : AppendPoint P :=
  .called request.1 request.2

/-- The next section of a call: `Ledger::append`, then the two halves of `apply_revocations`. -/
def appendSection (_ : Unit) (s : Appending) : AppendPoint P → Option (Appending × AppendPoint P)
  | .called block consensus =>
    match s.node.ledger.append P s.node.disk.blocks block consensus with
    | .error err => some (s, .returned (.error (.ledger err)))
    | .ok (blocks, ledger, _) =>
      some (⟨{ s.node with ledger, disk := { s.node.disk with blocks } }, s.applied⟩,
        .applying (changesOf block.events))
  | .applying changes =>
    let revoked := applyChanges s.node.revoked changes
    some (⟨{ s.node with revoked }, s.applied ++ [changes]⟩, .retaining revoked)
  | .retaining snapshot =>
    some (⟨{ s.node with policy := s.node.policy.map fun p =>
        { p with permissions := retain (fun member _ => decide (member ∉ snapshot)) p.permissions } },
      s.applied⟩, .returned (.ok ()))
  | .returned _ => none

/-- Any number of calls, in any interleaving of their sections. -/
def appendStep : Threads.Pool Appending (AppendPoint P) → Threads.Act (Block × ConsensusEngine P) Unit →
    Option (Threads.Pool Appending (AppendPoint P)) :=
  Threads.step AppendPoint.start appendSection

theorem advance_alone {s s' : Appending} {t t' : AppendPoint P}
    (h : appendSection () s t = some (s', t')) :
    appendStep ⟨s, [t]⟩ (.advance 0 ()) = some ⟨s', [t']⟩ := by
  show (appendSection () s t).map _ = _
  rw [h]
  rfl

/-- **A call alone** is the call as a whole. -/
theorem append_alone (s : Appending) (block : Block) (consensus : ConsensusEngine P) :
    ∃ n p, Runs.run appendStep ⟨s, []⟩
        (.arrive (block, consensus) :: List.replicate n (.advance 0 ())) = some p ∧
      p.shared.node = (s.node.appendLedgerBlock P block consensus).1 ∧
      p.threads = [.returned (s.node.appendLedgerBlock P block consensus).2] := by
  have hcalled : ∀ acts, Runs.run appendStep ⟨s, []⟩ (.arrive (block, consensus) :: acts) =
      Runs.run appendStep ⟨s, [.called block consensus]⟩ acts := fun acts => rfl
  rw [PeerlessNode.appendLedgerBlock]
  cases happend : s.node.ledger.append P s.node.disk.blocks block consensus with
  | error err =>
    have hfirst : appendSection () s (.called block consensus) =
        some (s, .returned (.error (.ledger err))) := by
      rw [appendSection, happend]
    refine ⟨1, ⟨s, [.returned (.error (.ledger err))]⟩, ?_, rfl, rfl⟩
    rw [hcalled, List.replicate_one, Runs.run_of_step (advance_alone hfirst), Runs.run]
  | ok r =>
    obtain ⟨blocks, ledger, hash⟩ := r
    have hfirst : appendSection () s (.called block consensus) =
        some (⟨{ s.node with ledger, disk := { s.node.disk with blocks } }, s.applied⟩,
          .applying (changesOf block.events)) := by
      rw [appendSection, happend]
    have hall : Runs.run appendStep ⟨s, [.called block consensus]⟩
        [.advance 0 (), .advance 0 (), .advance 0 ()] = some
          ⟨⟨({ s.node with ledger, disk := { s.node.disk with blocks } } : PeerlessNode).applyRevocations
              (changesOf block.events), s.applied ++ [changesOf block.events]⟩,
            [.returned (.ok ())]⟩ := by
      rw [Runs.run_of_step (advance_alone hfirst), Runs.run_of_step (advance_alone rfl),
        Runs.run_of_step (advance_alone rfl)]
      rfl
    exact ⟨3, _, (hcalled _).trans hall, rfl, rfl⟩

/-! ### What was applied -/

/-- The changes a call has appended and not yet applied. -/
def AppendPoint.pending : AppendPoint P → Option (List (NodeId × Bool))
  | .applying changes => some changes
  | _ => none

/-- The changes of a block. -/
def Block.changes (b : Block) : List (NodeId × Bool) := changesOf b.events

theorem changesOf_flatMap (blocks : List Block) :
    changesOf (blocks.flatMap Block.events) = (blocks.map Block.changes).flatten := by
  rw [changesOf, List.filterMap_flatMap, List.flatMap_def]
  rfl

/-- From the node `s₀` on: the blocks appended since, whose changes are the ones applied and the ones still
held by calls, and the revoked set as the ones applied leave it. -/
structure Accounted (s₀ : PeerlessNode) (p : Threads.Pool Appending (AppendPoint P)) : Prop where
  blocks : ∃ new, p.shared.node.ledger.blocks = s₀.ledger.blocks ++ new ∧
    (p.shared.applied ++ p.threads.filterMap AppendPoint.pending).Perm (new.map Block.changes)
  revoked : p.shared.node.revoked = applyChanges s₀.revoked p.shared.applied.flatten

theorem accounted_start (s₀ : PeerlessNode) :
    Accounted s₀ (⟨⟨s₀, []⟩, []⟩ : Threads.Pool Appending (AppendPoint P)) where
  blocks := ⟨[], (List.append_nil _).symm, List.Perm.nil⟩
  revoked := rfl

/-- The lists held by calls, with one call moved on. -/
theorem pending_split {ts : List (AppendPoint P)} {i : ℕ} {t : AppendPoint P} (h : ts[i]? = some t) :
    ∃ others : List (List (NodeId × Bool)),
      (ts.filterMap AppendPoint.pending).Perm (t.pending.toList ++ others) ∧
      ∀ u : AppendPoint P, ((ts.set i u).filterMap AppendPoint.pending).Perm
        (u.pending.toList ++ others) := by
  obtain ⟨before, later, hts, hset⟩ := Threads.exists_split h
  have hsplit : ∀ u : AppendPoint P, ((before ++ u :: later).filterMap AppendPoint.pending).Perm
      (u.pending.toList ++ (before.filterMap AppendPoint.pending ++
        later.filterMap AppendPoint.pending)) := by
    intro u
    rw [List.filterMap_append, List.filterMap_cons]
    cases u.pending with
    | none => exact List.Perm.refl _
    | some changes => exact List.perm_middle
  refine ⟨_, hts ▸ hsplit t, fun u => ?_⟩
  rw [hset]
  exact hsplit u

variable {s₀ : PeerlessNode} {p p' : Threads.Pool Appending (AppendPoint P)}
  {a : Threads.Act (Block × ConsensusEngine P) Unit}

/-- **What a section does to the account**: nothing, a block is appended and its changes are held, or held
changes are applied. -/
theorem appendSection_cases {s s' : Appending} {t t' : AppendPoint P}
    (h : appendSection () s t = some (s', t')) :
    (s'.node.ledger.blocks = s.node.ledger.blocks ∧ s'.applied = s.applied ∧
      s'.node.revoked = s.node.revoked ∧ t.pending = none ∧ t'.pending = none) ∨
    (∃ block, s'.node.ledger.blocks = s.node.ledger.blocks ++ [block] ∧ s'.applied = s.applied ∧
      s'.node.revoked = s.node.revoked ∧ t.pending = none ∧ t'.pending = some (Block.changes block)) ∨
    ∃ changes, s'.node.ledger.blocks = s.node.ledger.blocks ∧ s'.applied = s.applied ++ [changes] ∧
      s'.node.revoked = applyChanges s.node.revoked changes ∧ t.pending = some changes ∧
      t'.pending = none := by
  cases t with
  | called block consensus =>
    rw [appendSection] at h
    cases happend : s.node.ledger.append P s.node.disk.blocks block consensus with
    | error err =>
      rw [happend] at h
      cases h
      exact .inl ⟨rfl, rfl, rfl, rfl, rfl⟩
    | ok r =>
      obtain ⟨_, _, hr⟩ := Ledger.append_eq_ok_iff.mp happend
      rw [happend, hr] at h
      cases h
      exact .inr (.inl ⟨block, rfl, rfl, rfl, rfl, rfl⟩)
  | applying changes =>
    cases h
    exact .inr (.inr ⟨changes, rfl, rfl, rfl, rfl, rfl⟩)
  | retaining snapshot =>
    cases h
    exact .inl ⟨rfl, rfl, rfl, rfl, rfl⟩
  | returned result => cases h

theorem accounted_step (hp : Accounted s₀ p) (hstep : appendStep p a = some p') : Accounted s₀ p' := by
  obtain ⟨new, hblocks, hperm⟩ := hp.blocks
  rcases Threads.step_cases hstep with ⟨request, rfl, rfl⟩ | ⟨i, env, t, s', t', rfl, ht, hnext, rfl⟩
  · refine ⟨⟨new, hblocks, ?_⟩, hp.revoked⟩
    rw [List.filterMap_append]
    show (p.shared.applied ++ (p.threads.filterMap AppendPoint.pending ++ [])).Perm _
    rw [List.append_nil]
    exact hperm
  · obtain ⟨others, hbefore, hafter⟩ := pending_split ht
    have hheld := (hbefore.append_left p.shared.applied).symm.trans hperm
    have hmoved := (hafter t').append_left s'.applied
    rcases appendSection_cases hnext with ⟨hb, ha, hr, hold, hnew⟩ | ⟨block, hb, ha, hr, hold, hnew⟩ |
      ⟨changes, hb, ha, hr, hold, hnew⟩
    · rw [hold] at hheld
      rw [hnew, ha] at hmoved
      refine ⟨⟨new, hb.trans hblocks, ?_⟩, ?_⟩
      · rw [ha]
        exact hmoved.trans hheld
      · rw [hr, ha]
        exact hp.revoked
    · -- the call now holds the changes of the new block
      rw [hold] at hheld
      rw [hnew, ha] at hmoved
      refine ⟨⟨new ++ [block], ?_, ?_⟩, ?_⟩
      · rw [hb, hblocks, List.append_assoc]
      · rw [ha, List.map_append]
        exact hmoved.trans ((List.perm_middle.trans (hheld.cons _)).trans
          (List.perm_append_singleton (Block.changes block) _).symm)
      · rw [hr, ha]
        exact hp.revoked
    · rw [hold] at hheld
      rw [hnew, ha, List.append_assoc, List.append_assoc] at hmoved
      refine ⟨⟨new, hb.trans hblocks, ?_⟩, ?_⟩
      · rw [ha, List.append_assoc]
        exact hmoved.trans hheld
      · rw [hr, ha, hp.revoked, List.flatten_append, applyChanges_append, List.flatten_singleton]

/-! ### The order of the changes -/

theorem latestChange_eq_none_iff {member : NodeId} {changes : List (NodeId × Bool)} :
    latestChange member changes = none ↔ ∀ c ∈ changes, c.1 ≠ member := by
  rw [latestChange, List.getLast?_eq_none_iff, List.map_eq_nil_iff, List.filter_eq_nil_iff]
  simp

/-- **The same changes in two orders** leave the same set exactly if the latest change of every member is
the same. -/
theorem applyChanges_eq_iff_of_perm {xs ys : List (NodeId × Bool)} (h : xs.Perm ys)
    (revoked : Finset NodeId) : applyChanges revoked xs = applyChanges revoked ys ↔
      ∀ member, latestChange member xs = latestChange member ys := by
  constructor
  · intro heq member
    have hmem : member ∈ applyChanges revoked xs ↔ member ∈ applyChanges revoked ys := by rw [heq]
    rw [applyChanges_mem_iff, applyChanges_mem_iff] at hmem
    have hnone : latestChange member xs = none ↔ latestChange member ys = none := by
      rw [latestChange_eq_none_iff, latestChange_eq_none_iff]
      exact ⟨fun hx c hc => hx c (h.mem_iff.mpr hc), fun hy c hc => hy c (h.mem_iff.mp hc)⟩
    cases hx : latestChange member xs with
    | none => exact (hnone.mp hx).symm
    | some b =>
      cases hy : latestChange member ys with
      | none => rw [hnone.mpr hy] at hx; cases hx
      | some c =>
        simp only [hx, hy, Option.some.injEq, reduceCtorEq, false_and, or_false] at hmem
        exact congrArg some (Bool.eq_iff_iff.mpr hmem)
  · intro hlatest
    ext member
    rw [applyChanges_mem_iff, applyChanges_mem_iff, hlatest]

/-- With no call in progress, everything appended is applied. -/
theorem Accounted.quiet (hp : Accounted s₀ p) (hstart : Follows s₀)
    (hquiet : ∀ t ∈ p.threads, t.hasReturned = true) :
    ∃ new, p.shared.node.ledger.blocks = s₀.ledger.blocks ++ new ∧
      p.shared.applied.Perm (new.map Block.changes) ∧
      (Follows p.shared.node ↔ applyChanges s₀.revoked p.shared.applied.flatten =
        applyChanges s₀.revoked (new.map Block.changes).flatten) := by
  obtain ⟨new, hblocks, hperm⟩ := hp.blocks
  have hpending : p.threads.filterMap AppendPoint.pending = [] := by
    rw [List.filterMap_eq_nil_iff]
    intro t ht
    have hreturned := hquiet t ht
    cases t with
    | returned result => rfl
    | called block consensus => cases hreturned
    | applying changes => cases hreturned
    | retaining snapshot => cases hreturned
  rw [hpending, List.append_nil] at hperm
  refine ⟨new, hblocks, hperm, ?_⟩
  rw [Follows, hp.revoked, hblocks, List.flatMap_append, changesOf_append, applyChanges_append, ← hstart,
    changesOf_flatMap]

/-- **The revoked set and the ledger.**  After any interleaving of the sections of any calls, once no call
is in progress, the revoked set is what the ledger's blocks give in order exactly if for every member the
change applied last, among the blocks appended since the start, is the change appended last. -/
theorem revoked_follows_iff {s₀ : PeerlessNode} (hstart : Follows s₀)
    {acts : List (Threads.Act (Block × ConsensusEngine P) Unit)}
    {p : Threads.Pool Appending (AppendPoint P)}
    (hrun : Runs.run appendStep ⟨⟨s₀, []⟩, []⟩ acts = some p)
    (hquiet : ∀ t ∈ p.threads, t.hasReturned = true) :
    Follows p.shared.node ↔ ∀ member, latestChange member p.shared.applied.flatten =
      latestChange member (changesOf
        ((p.shared.node.ledger.blocks.drop s₀.ledger.blocks.length).flatMap Block.events)) := by
  have haccounted := Runs.run_invariant' (fun _ _ _ => accounted_step) (accounted_start s₀) hrun
  obtain ⟨new, hblocks, hperm, hfollows⟩ := haccounted.quiet hstart hquiet
  rw [hfollows, hblocks, List.drop_left, changesOf_flatMap,
    ← applyChanges_eq_iff_of_perm hperm.flatten s₀.revoked]

/-! ### Applying in the order of the blocks -/

/-- **The condition on a step**: what a call applies are the changes of the first block that has not been
applied. -/
def appliesNext (s₀ : PeerlessNode) (p : Threads.Pool Appending (AppendPoint P)) :
    Threads.Act (Block × ConsensusEngine P) Unit → Bool
  | .arrive _ => true
  | .advance i _ => (p.threads[i]?.bind AppendPoint.pending).all fun changes =>
      ((p.shared.node.ledger.blocks.drop s₀.ledger.blocks.length).map Block.changes)[
        p.shared.applied.length]? = some changes

/-- The account, with the changes applied in the order of the blocks. -/
structure InOrder (s₀ : PeerlessNode) (p : Threads.Pool Appending (AppendPoint P)) : Prop where
  accounted : Accounted s₀ p
  applied : p.shared.applied <+:
    (p.shared.node.ledger.blocks.drop s₀.ledger.blocks.length).map Block.changes

theorem inOrder_step (hp : InOrder s₀ p) (hok : appliesNext s₀ p a = true)
    (hstep : appendStep p a = some p') : InOrder s₀ p' := by
  refine ⟨accounted_step hp.accounted hstep, ?_⟩
  have happlied := hp.applied
  rcases Threads.step_cases hstep with ⟨request, rfl, rfl⟩ | ⟨i, env, t, s', t', rfl, ht, hnext, rfl⟩
  · exact happlied
  · show s'.applied <+: (s'.node.ledger.blocks.drop s₀.ledger.blocks.length).map Block.changes
    rcases appendSection_cases hnext with ⟨hb, ha, _⟩ | ⟨block, hb, ha, _⟩ | ⟨changes, hb, ha, _, hheld, _⟩
    · rw [ha, hb]
      exact happlied
    · obtain ⟨new, hblocks, _⟩ := hp.accounted.blocks
      rw [hblocks, List.drop_left] at happlied
      rw [ha, hb, hblocks, List.append_assoc, List.drop_left, List.map_append]
      exact happlied.trans (List.prefix_append _ _)
    · rw [appliesNext, ht, Option.bind_some, hheld] at hok
      have hnth := of_decide_eq_true hok
      obtain ⟨rest, hrest⟩ := happlied
      rw [← hrest, List.getElem?_append_right (le_refl _), Nat.sub_self] at hnth
      rw [ha, hb, ← hrest]
      rcases rest with _ | ⟨first, rest⟩
      · cases hnth
      · rw [← Option.some.inj hnth]
        refine ⟨rest, ?_⟩
        rw [List.append_assoc]
        rfl

/-- **Second sections in the order of the appends** leave the revoked set of the ledger. -/
theorem revoked_follows_run (hstart : Follows s₀)
    {acts : List (Threads.Act (Block × ConsensusEngine P) Unit)}
    (hmeets : Runs.Meets appendStep (fun p a => appliesNext s₀ p a = true) ⟨⟨s₀, []⟩, []⟩ acts)
    (hrun : Runs.run appendStep ⟨⟨s₀, []⟩, []⟩ acts = some p)
    (hquiet : ∀ t ∈ p.threads, t.hasReturned = true) : Follows p.shared.node := by
  have hp : InOrder s₀ p := Runs.run_invariant (I := InOrder s₀)
    (fun _ _ _ hv hok hstep => inOrder_step hv hok hstep) acts _ p
    ⟨accounted_start s₀, List.nil_prefix⟩ hmeets hrun
  obtain ⟨new, hblocks, hperm, hfollows⟩ := hp.accounted.quiet hstart hquiet
  have happlied := hp.applied
  rw [hblocks, List.drop_left] at happlied
  rw [hfollows, happlied.eq_of_length hperm.length_eq]

/-! ### A member that was readmitted -/

/-- The block that readmits the member the sample block revoked. -/
def readmittingBlock : Block :=
  let e : LedgerEvent := .nodeJoined (member [2])
  ((soloEngine "mesh").finalize (Ledger.nextBlock primitives ⟨[revokingBlock]⟩
    [⟨e, member [1], [1], 1 :: JsonText.write e.toJson⟩] 0 "mesh") [identity [1]]).1

def sampleEngine : ConsensusEngine primitives := (soloEngine "mesh").engine primitives

/-- Two calls append their blocks in order; the schedule says in which order they apply them. -/
def twoAppends (order : List ℕ) : Option (Threads.Pool Appending (AppendPoint primitives)) :=
  Runs.run appendStep ⟨⟨PeerlessNode.blank ⟨none, none, []⟩ ⟨[]⟩, []⟩, []⟩
    (.arrive (revokingBlock, sampleEngine) :: .arrive (readmittingBlock, sampleEngine) ::
      .advance 0 () :: .advance 1 () :: order.map fun i => .advance i ())

/-- Both schedules, evaluated at once: they share what it takes to append the blocks. -/
theorem twoAppends_eval :
    (twoAppends [0, 1, 1, 0]).map (fun p =>
      (p.shared.applied, changesOf (p.shared.node.ledger.blocks.flatMap Block.events),
        p.shared.node.ledger.blocks.length, p.threads.all AppendPoint.hasReturned)) =
      some ([[(member [2], true)], [(member [2], false)]], [(member [2], true), (member [2], false)], 2,
        true) ∧
    (twoAppends [1, 0, 0, 1]).map (fun p =>
      decide ((∀ t ∈ p.threads, t.hasReturned = true) ∧
        changesOf (p.shared.node.ledger.blocks.flatMap Block.events) =
          [(member [2], true), (member [2], false)] ∧
        member [2] ∈ p.shared.node.revoked ∧
        member [2] ∉ (PeerlessNode.blank p.shared.node.disk
          p.shared.node.ledger).refreshRevocationsFromLedger.revoked)) = some true := by
  decide +kernel

/-- The applications run in the order of the blocks: the member is readmitted. -/
theorem appends_in_order : ∃ p, twoAppends [0, 1, 1, 0] = some p ∧
    (∀ t ∈ p.threads, t.hasReturned = true) ∧ p.shared.node.ledger.blocks.length = 2 ∧
    Follows p.shared.node := by
  obtain ⟨p, hrun, hfacts⟩ := Option.map_eq_some_iff.mp twoAppends_eval.1
  obtain ⟨happlied, hfacts⟩ := Prod.mk.inj hfacts
  obtain ⟨hchanges, hfacts⟩ := Prod.mk.inj hfacts
  obtain ⟨hlength, hthreads⟩ := Prod.mk.inj hfacts
  have hquiet := List.all_eq_true.mp hthreads
  have hstart : Follows (PeerlessNode.blank ⟨none, none, []⟩ ⟨[]⟩) := rfl
  refine ⟨p, hrun, hquiet, hlength, (revoked_follows_iff hstart hrun hquiet).mpr fun m => ?_⟩
  show _ = latestChange m (changesOf (p.shared.node.ledger.blocks.flatMap Block.events))
  rw [happlied, hchanges]
  rfl

/-- **The second application overtakes the first**: both calls have returned, the ledger ends with the
member's return, and the member is revoked. -/
theorem readmitted_member_revoked : ∃ p, twoAppends [1, 0, 0, 1] = some p ∧
    (∀ t ∈ p.threads, t.hasReturned = true) ∧
    changesOf (p.shared.node.ledger.blocks.flatMap Block.events) =
      [(member [2], true), (member [2], false)] ∧
    member [2] ∈ p.shared.node.revoked ∧
    member [2] ∉ (PeerlessNode.blank p.shared.node.disk
      p.shared.node.ledger).refreshRevocationsFromLedger.revoked := by
  obtain ⟨p, hrun, hfacts⟩ := Option.map_eq_some_iff.mp twoAppends_eval.2
  exact ⟨p, hrun, of_decide_eq_true hfacts⟩

end Peerless.Node
