import Peerless.Ledger.History
import Peerless.Ledger.Inclusion

/-!
# Making inclusion proofs

`merkle_proof` runs its own copy of the level loop of `merkle_root`, with a cursor that is flipped for the
sibling and halved for the next level; `Block::proof` and `LedgerApi::proof` call it.  An index out of range
stops the program: the outer `none` of a result is that stop, the inner one the answer `None`.

* `every_event_has_a_proof` — proofs exist exactly below the end of the list, and every proof
  the ledger interface hands out verifies.
-/

namespace Peerless.Chain

open Text Peerless.Core Identity Protocol Sample

variable {P : Primitives} {parse : Bytes → Option Block}

/-! ### The loop -/

variable (P)

/-- The level after `level.push(*level.last()?)`, if the level is odd. -/
def grownLevel (level : List Digest) : Option (List Digest) :=
  if level.length % 2 = 1 then level.getLast?.map fun last => level ++ [last] else some level

/-- The loop of `merkle_proof`.  A level of `n` hashes is followed by one of half as many, rounded up, so
`n` rounds are never used up. -/
def proofLevels : ℕ → List Digest → ℕ → List Digest → Option (Option (List Digest))
  | 0, _, _, siblings => some (some siblings)
  | fuel + 1, level, cursor, siblings =>
    if level.length ≤ 1 then some (some siblings)
    else
      match grownLevel level with
      | none => some none
      | some level =>
        match level[cursor ^^^ 1]? with
        | none => none
        | some sibling =>
          proofLevels fuel (PairTree.pairUp (pairHash P) level) (cursor / 2) (siblings ++ [sibling])

def merkleProof (leaves : List Digest) (index : ℕ) : Option (Option MerkleProof) :=
  if index ≥ leaves.length then some none
  else (proofLevels P leaves.length leaves index []).map fun siblings =>
    siblings.map fun siblings => ⟨index, siblings⟩

def Block.proof (b : Block) (index : ℕ) : Option (Option MerkleProof) :=
  merkleProof P (b.events.map (SignedEvent.hash P)) index

/-! ### The interface of a node -/

structure AuditProof where
  blockHeight : UInt64
  event : SignedEvent
  root : Digest
  proof : MerkleProof
  deriving DecidableEq

/-- The event records the completion of the task. -/
def SignedEvent.completes (taskId : String) (e : SignedEvent) : Bool :=
  match e.event with
  | .taskCompleted record => record.taskId = taskId
  | _ => false

/-- The first of the events, numbered from `index`, that completes the task. -/
def firstCompleted (taskId : String) : ℕ → List SignedEvent → Option (ℕ × SignedEvent)
  | _, [] => none
  | index, e :: es => if e.completes taskId then some (index, e) else firstCompleted taskId (index + 1) es

/-- `LedgerApi::proof` on the blocks of the ledger. -/
def LedgerApi.proof (taskId : String) : List Block → Option (Option AuditProof)
  | [] => some none
  | block :: blocks =>
    match firstCompleted taskId 0 block.events with
    | none => LedgerApi.proof taskId blocks
    | some (index, event) => (block.proof P index).map fun proof =>
      proof.map fun proof => ⟨block.height, event, block.eventsRoot, proof⟩

variable {P}

/-! ### Every leaf has a proof -/

theorem grownLevel_eq {level : List Digest} (h : 1 < level.length) :
    grownLevel level = some (PairTree.padOdd level) := by
  unfold grownLevel PairTree.padOdd
  split
  · rw [List.getLast?_eq_some_getLast (List.ne_nil_of_length_pos (by omega))]
    rfl
  · rfl

/-- **The loop collects the path of its cursor.** -/
theorem proofLevels_eq : ∀ (fuel : ℕ) (level : List Digest) (cursor : ℕ) (front : List Digest),
    proofLevels P fuel level cursor front =
      (PairTree.siblings (pairHash P) fuel level cursor).map fun rest => some (front ++ rest) := by
  intro fuel
  induction fuel with
  | zero =>
    intro level cursor front
    simp [proofLevels, PairTree.siblings]
  | succ fuel ih =>
    intro level cursor front
    rw [proofLevels, PairTree.siblings]
    by_cases hone : level.length ≤ 1
    · rw [if_pos hone, if_pos hone, Option.map_some, List.append_nil]
    · rw [if_neg hone, if_neg hone, grownLevel_eq (by omega)]
      dsimp only
      cases (PairTree.padOdd level)[cursor ^^^ 1]? with
      | none => rfl
      | some sibling =>
        dsimp only
        rw [ih, Option.bind_some, Option.map_map]
        refine congrArg (fun g => Option.map g _) (funext fun rest => ?_)
        simp

theorem merkleProof_some {leaves : List Digest} {index : ℕ} {leaf : Digest}
    (h : leaves[index]? = some leaf) :
    ∃ proof, merkleProof P leaves index = some (some proof) ∧
      proof.siblings.length = Nat.clog 2 leaves.length ∧
      proof.verify P leaf (merkleRoot P leaves) = true := by
  have hlt := (List.getElem?_eq_some_iff.mp h).1
  obtain ⟨ss, hss, hlength, hclimb⟩ :=
    PairTree.siblings_spec (pairHash P) leaves.length leaves index (by omega) h
  refine ⟨⟨index, ss⟩, ?_, hlength, ?_⟩
  · rw [merkleProof, if_neg (by omega), proofLevels_eq, hss]
    rfl
  · have hroot : merkleRoot P leaves = PairTree.climb (pairHash P) leaf index ss := by
      rw [merkleRoot, PairTree.root, hclimb, Option.getD_some]
    rw [MerkleProof.verify, decide_eq_true_eq, hroot]

theorem merkleProof_none {leaves : List Digest} {index : ℕ} (h : leaves.length ≤ index) :
    merkleProof P leaves index = some none := if_pos h

/-! ### The roots of a ledger -/

/-- The validation loop of `open` checks the roots. -/
theorem rooted_of_run : ∀ (bs : List Block) (c c' : Cursor), Runs.run (checkBlock P) c bs = some c' →
    ∀ b ∈ bs, b.eventsRoot = eventsRoot P b.events := by
  intro bs
  induction bs with
  | nil => exact fun c c' _ b hb => absurd hb List.not_mem_nil
  | cons a bs ih =>
    intro c c' hrun b hb
    obtain ⟨c₁, hstep, hrest⟩ := Runs.run_cons hrun
    have hchecks := (checkBlock_eq_some_iff.mp hstep).1
    rcases List.mem_cons.mp hb with rfl | hb
    · exact hchecks.2.2.2.1
    · exact ih c₁ c' hrest b hb

/-- **The blocks of a ledger carry the roots of their events**, however they got into it. -/
theorem built_rooted {dir : Dir} {l : Ledger} (hl : Built P parse dir l) :
    ∀ b ∈ l.blocks, b.eventsRoot = eventsRoot P b.events := by
  induction hl with
  | opened _ _ hopen =>
    unfold Ledger.open at hopen
    dsimp only at hopen
    split at hopen
    · cases hopen
    · unfold validate at hopen
      split at hopen
      · cases hopen
      · rename_i c hrun
        obtain rfl := Except.ok.inj hopen
        exact rooted_of_run _ Cursor.start c hrun
  | appended _ happend ih =>
    obtain ⟨haccepts, _, hr⟩ := Ledger.append_eq_ok_iff.mp happend
    rw [Prod.mk.injEq, Prod.mk.injEq] at hr
    rw [hr.2.1]
    intro b hb
    rcases List.mem_append.mp hb with hb | hb
    · exact ih b hb
    · rw [List.mem_singleton.mp hb]
      exact haccepts.root

/-! ### The proofs a node hands out -/

theorem firstCompleted_some {taskId : String} : ∀ {es : List SignedEvent} {start index : ℕ}
    {e : SignedEvent}, firstCompleted taskId start es = some (index, e) →
      ∃ k, index = start + k ∧ es[k]? = some e ∧ e.completes taskId = true := by
  intro es
  induction es with
  | nil => exact fun h => absurd h (by simp [firstCompleted])
  | cons a es ih =>
    intro start index e h
    rw [firstCompleted] at h
    split at h
    · rename_i hcompletes
      simp only [Option.some.injEq, Prod.mk.injEq] at h
      exact ⟨0, h.1.symm, congrArg some h.2, h.2 ▸ hcompletes⟩
    · obtain ⟨k, hindex, hk⟩ := ih h
      exact ⟨k + 1, by omega, hk⟩

theorem firstCompleted_none_iff {taskId : String} : ∀ (es : List SignedEvent) (start : ℕ),
    firstCompleted taskId start es = none ↔ ∀ e ∈ es, e.completes taskId = false := by
  intro es
  induction es with
  | nil => simp [firstCompleted]
  | cons a es ih =>
    intro start
    rw [firstCompleted, List.forall_mem_cons, ← ih (start + 1)]
    cases a.completes taskId <;> simp

/-- What the interface answers about blocks whose roots are in order. -/
theorem LedgerApi.proof_spec (taskId : String) : ∀ (blocks : List Block),
    (∀ b ∈ blocks, b.eventsRoot = eventsRoot P b.events) →
      ∃ found, LedgerApi.proof P taskId blocks = some found ∧
        (found.isSome = true ↔ ∃ b ∈ blocks, ∃ e ∈ b.events, e.completes taskId = true) ∧
        ∀ audit, found = some audit → audit.proof.verify P (audit.event.hash P) audit.root = true := by
  intro blocks
  induction blocks with
  | nil =>
    intro _
    exact ⟨none, rfl, by simp, by simp⟩
  | cons b blocks ih =>
    intro hroots
    rw [LedgerApi.proof]
    cases hfirst : firstCompleted taskId 0 b.events with
    | none =>
      obtain ⟨found, hproof, hsome, hverify⟩ := ih fun c hc => hroots c (List.mem_cons_of_mem _ hc)
      have hhere := (firstCompleted_none_iff b.events 0).mp hfirst
      refine ⟨found, hproof, ?_, hverify⟩
      rw [hsome]
      constructor
      · rintro ⟨c, hc, hcompletes⟩
        exact ⟨c, List.mem_cons_of_mem _ hc, hcompletes⟩
      · rintro ⟨c, hc, e, he, hcompletes⟩
        rcases List.mem_cons.mp hc with rfl | hc
        · rw [hhere e he] at hcompletes
          cases hcompletes
        · exact ⟨c, hc, e, he, hcompletes⟩
    | some found =>
      obtain ⟨index, e⟩ := found
      obtain ⟨k, hindex, hk, hcompletes⟩ := firstCompleted_some hfirst
      have hleaf : (b.events.map (SignedEvent.hash P))[index]? = some (e.hash P) := by
        rw [hindex, Nat.zero_add, List.getElem?_map, hk]
        rfl
      obtain ⟨proof, hproof, _, hverify⟩ := merkleProof_some hleaf
      refine ⟨some ⟨b.height, e, b.eventsRoot, proof⟩, ?_, ?_, ?_⟩
      · dsimp only
        rw [Block.proof, hproof]
        rfl
      · exact ⟨fun _ => ⟨b, List.mem_cons_self, e, List.mem_of_getElem? hk, hcompletes⟩, fun _ => rfl⟩
      · intro audit haudit
        obtain rfl := Option.some.inj haudit
        rw [hroots b List.mem_cons_self]
        exact hverify

/-- **Every event has a proof.**  Below the end of a list of hashes `merkle_proof` answers with a proof of
one sibling per level that verifies against the root, at and past the end with `None`, and it never reads
out of range.  The ledger interface finds a proof exactly if the task has completed in one of the blocks,
and what it finds verifies. -/
theorem every_event_has_a_proof (P : Primitives) (parse : Bytes → Option Block) :
    (∀ (leaves : List Digest) (index : ℕ) (leaf : Digest), leaves[index]? = some leaf →
        ∃ proof, merkleProof P leaves index = some (some proof) ∧
          proof.siblings.length = Nat.clog 2 leaves.length ∧
          proof.verify P leaf (merkleRoot P leaves) = true) ∧
      (∀ (leaves : List Digest) (index : ℕ), leaves.length ≤ index →
        merkleProof P leaves index = some none) ∧
      ∀ (dir : Dir) (l : Ledger), Built P parse dir l → ∀ taskId : String,
        ∃ found, LedgerApi.proof P taskId l.blocks = some found ∧
          (found.isSome = true ↔ ∃ b ∈ l.blocks, ∃ e ∈ b.events, e.completes taskId = true) ∧
          ∀ audit, found = some audit → audit.proof.verify P (audit.event.hash P) audit.root = true := by
  refine ⟨fun leaves index leaf => merkleProof_some, fun leaves index => merkleProof_none, ?_⟩
  intro dir l hl taskId
  exact LedgerApi.proof_spec taskId l.blocks (built_rooted hl)

/-- A record of the sample node. -/
def sampleRecord : ExecutionRecord :=
  let content : ContentId := ⟨primitives.sha256 []⟩
  ⟨"b", member [1], content, content, content, content, 1, 2⟩

/-- A block with three events, the last of them the completion of a task. -/
def completedBlock : Block :=
  ((soloEngine "local").finalize (Ledger.nextBlock primitives ⟨[]⟩
    [sampleEvent "a", sampleEvent "b", ⟨.taskCompleted sampleRecord, member [1], [1],
      1 :: JsonText.write (LedgerEvent.taskCompleted sampleRecord).toJson⟩] 0 "local") [identity [1]]).1

set_option maxRecDepth 20000 in
/-- The proof of a completed task in the ledger of that block; a proof of the second of two hashes. -/
theorem completed_task_proved :
    (∃ proof, merkleProof primitives [primitives.sha256 [], primitives.sha256 [1]] 1 = some (some proof) ∧
        proof.siblings.length = 1 ∧ proof.verify primitives (primitives.sha256 [1])
          (merkleRoot primitives [primitives.sha256 [], primitives.sha256 [1]]) = true) ∧
      merkleProof primitives [primitives.sha256 []] 1 = some none ∧
      ∃ audit, LedgerApi.proof primitives "b" [completedBlock] = some (some audit) ∧
        audit.proof.verify primitives (audit.event.hash primitives) audit.root = true := by
  have heval : (Ledger.append primitives [] ⟨[]⟩ completedBlock
        ((soloEngine "local").engine primitives)).toOption.isSome = true ∧
      (completedBlock.events.any fun e => e.completes "b") = true := by
    decide +kernel
  have hempty : Built primitives (fun _ => none) [] ⟨[]⟩ :=
    .opened List.nodup_nil (List.Perm.refl []) rfl
  have hbuilt : Built primitives (fun _ => none) [completedBlock.file primitives] ⟨[completedBlock]⟩ :=
    .appended hempty (append_afterFirst heval.1)
  have hall := every_event_has_a_proof primitives (fun _ => none)
  obtain ⟨found, hfound, hsome, hverify⟩ := hall.2.2 _ _ hbuilt "b"
  obtain ⟨e, he, hcompletes⟩ := List.any_eq_true.mp heval.2
  have hpresent := hsome.mpr ⟨completedBlock, List.mem_singleton.mpr rfl, e, he, hcompletes⟩
  obtain ⟨audit, rfl⟩ := Option.isSome_iff_exists.mp hpresent
  exact ⟨hall.1 _ 1 _ rfl, hall.2.1 _ 1 (Nat.le_refl 1), audit, hfound, hverify audit rfl⟩

end Peerless.Chain
