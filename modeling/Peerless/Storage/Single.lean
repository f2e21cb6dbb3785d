import Peerless.Storage.Atomic

/-!
# One `atomic_create` by itself

A call of `atomic_create` that no other call disturbs, with every way its system calls may be answered.
Its file is in place once the `hard_link` is done, but two more calls follow, and an error of either is
returned all the same.
-/

namespace Peerless.Storage

open Text Files

/-- One system call of a call that runs by itself. -/
def createStep (path : Path) (s : Disk × Call) (answer : Answer) : Option (Disk × Call) :=
  s.2.next path answer s.1

/-- What a call returned, if it is over. -/
def Point.outcome : Point → Option (Except Error Unit)
  | .failed error => some (.error error)
  | .returned result => some result
  | _ => none

/-- `atomic_create` begins. -/
def createStart (process : Process) (bytes : Bytes) (disk : Disk) : Disk × Call :=
  (disk, Call.start ⟨process, .create, bytes⟩)

/-- `atomic_create`; `answers` are those its system calls get, one each. -/
def atomicCreate (path : Path) (process : Process) (bytes : Bytes) (answers : List Answer) (disk : Disk) :
    Option (Disk × Except Error Unit) :=
  match Runs.run (createStep path) (createStart process bytes disk) answers with
  | none => none
  | some s => if s.2.crashed then none else s.2.point.outcome.map fun result => (s.1, result)

/-- The answer does not fail a call after the `hard_link`. -/
def spares (s : Disk × Call) (answer : Answer) : Bool :=
  match s.2.point, answer with
  | .unlinking _ _, .failed _ => false
  | .syncing, .failed _ => false
  | _, _ => true

/-! ### What the call leaves alone -/

/-- Between two system calls of an `atomic_create`: its temporary file is its own, and of the real names
only the path may have changed, to what is created. -/
structure Alone (path : Path) (bytes : Bytes) (first : Disk) (s : Disk × Call) : Prop where
  operation : s.2.operation = .create
  content : s.2.bytes = bytes
  kept : ∀ x ∈ s.2.hold, x.Kept (Scratch path) s.1.files
  others : ∀ p, ¬Scratch path p → p ≠ path → s.1.files.read p = first.files.read p
  before : s.2.published = false → s.1.files.read path = first.files.read path
  after : s.2.published = true → first.files.read path = none ∧ s.1.files.read path = some bytes

theorem alone_start (path : Path) (process : Process) (bytes : Bytes) (disk : Disk) :
    Alone path bytes disk (createStart process bytes disk) where
  operation := rfl
  content := rfl
  kept := fun x hx => by cases hx
  others := fun _ _ _ => rfl
  before := fun _ => rfl
  after := fun h => by cases h

variable {s s' : Disk × Call}

/-- **One system call changes nothing but the path.** -/
theorem alone_step {path : Path} {bytes : Bytes} {first : Disk} {answer : Answer}
    (h : Alone path bytes first s) (hstep : createStep path s answer = some s') :
    Alone path bytes first s' := by
  obtain ⟨hrequest, out, heffect, hout⟩ := next_moves hstep
  have hoperation : s'.2.operation = .create := by
    rw [hrequest]
    exact h.operation
  have hcontent : s'.2.bytes = bytes := by
    rw [hrequest]
    exact h.content
  have hothers : ∀ p, ¬Scratch path p → p ≠ path → s'.1.files.read p = first.files.read p := by
    intro p hreal hp
    refine (heffect.read_eq h.kept hreal fun manner hpublished => ?_).trans (h.others p hreal hp)
    rcases hout with ⟨rfl, _⟩ | ⟨rfl, _⟩
    · cases hpublished
    · exact hp (Prod.mk.inj (Option.some.inj hpublished)).2.symm
  rcases hout with ⟨rfl, hsame⟩ | ⟨rfl, hall, hfirst, hpublished⟩
  · have hread : s'.1.files.read path = s.1.files.read path :=
      heffect.read_eq h.kept (not_scratch path) fun manner hnone => by cases hnone
    refine ⟨hoperation, hcontent, heffect.kept h.kept, hothers, ?_, ?_⟩
    · intro hbefore
      rw [hread]
      exact h.before (hsame.symm.trans hbefore)
    · intro hafter
      rw [hread]
      exact h.after (hsame.symm.trans hafter)
  · obtain ⟨x, hx, hread, hfree⟩ := heffect.read_target h.kept
    have hlink : s.2.operation.manner = .link := by
      rw [h.operation]
      rfl
    refine ⟨hoperation, hcontent, heffect.kept h.kept, hothers, ?_, ?_⟩
    · intro hbefore
      rw [hpublished] at hbefore
      cases hbefore
    · intro _
      rw [hread, hall x hx, h.content]
      exact ⟨(h.before hfirst).symm.trans (hfree hlink), rfl⟩

/-! ### Errors after the file is in place -/

/-- The call has returned an error with its file in place. -/
def Point.late : Point → Bool
  | .returned (.error _) => true
  | _ => false

/-- A point reached by one system call, and what it took to return an error late. -/
theorem advance_late {path : Path} {call : Call} {answer : Answer} {disk disk' : Disk} {point : Point}
    (hkept : ∀ x ∈ call.hold, x.Kept (Scratch path) disk.files)
    (h : call.advance path answer disk = some (disk', point)) :
    point.late = !spares (disk, call) answer := by
  obtain ⟨request, before, crashed⟩ := call
  unfold Call.advance at h
  cases before with
  | entered =>
    dsimp only at h
    split at h
    · cases h; rfl
    · split at h
      · cases h; rfl
      · cases h; rfl
  | preparing draft =>
    have hprepared : ∀ r, some (prepared r) = some (disk', point) → point.late = false := by
      rintro ⟨disk₁, result⟩ hr
      cases result with
      | ok draft => cases hr; rfl
      | error error => cases hr; rfl
    cases draft with
    | ready name inode =>
      dsimp only at h
      split at h
      · split at h
        · cases h; rfl
        · cases h; rfl
      · split at h
        · cases h; rfl
        · cases h; rfl
    | numbering => exact hprepared _ h
    | creating sequence => exact hprepared _ h
    | writing file => exact hprepared _ h
    | discarding file error => exact hprepared _ h
  | unlinking name inode =>
    -- the temporary name is there, so that only the answer can fail its removal
    have hthere : disk.files.unlink name = .ok (disk.files.leave name) := by
      have hk : disk.files.lookup name = some inode := (hkept _ rfl).entry
      unfold FileSystem.unlink
      rw [if_pos (by rw [hk]; rfl)]
    dsimp only at h
    cases answer with
    | failed error => cases h; rfl
    | done count =>
      rw [show (Answer.done count).call (disk.files.unlink name) = .ok (disk.files.leave name) from
        hthere] at h
      cases h; rfl
    | crashed =>
      rw [show Answer.crashed.call (disk.files.unlink name) = .ok (disk.files.leave name) from
        hthere] at h
      cases h; rfl
  | syncing =>
    cases answer with
    | failed error => cases h; rfl
    | done count => cases h; rfl
    | crashed => cases h; rfl
  | failed error => cases h
  | returned result => cases h

theorem next_late {path : Path} {answer : Answer}
    (hkept : ∀ x ∈ s.2.hold, x.Kept (Scratch path) s.1.files) (hearly : s.2.point.late = false)
    (h : createStep path s answer = some s') :
    s'.2.point.late = !spares s answer ∧ (s'.2.point.late = true → s'.2.crashed = false) := by
  unfold createStep Call.next at h
  split at h
  · cases h
  · rename_i hcrashed
    split at h
    · rename_i hanswer
      rw [← Option.some.inj h, hanswer]
      have hspares : spares s .crashed = true := by
        unfold spares
        split
        · cases ‹Answer.crashed = Answer.failed _›
        · cases ‹Answer.crashed = Answer.failed _›
        · rfl
      rw [hspares]
      refine ⟨hearly, fun hlate => ?_⟩
      rw [show s.2.point.late = true from hlate] at hearly
      cases hearly
    · obtain ⟨⟨disk', point⟩, hadvance, rfl⟩ := Option.map_eq_some_iff.mp h
      exact ⟨advance_late hkept hadvance, fun _ => Bool.eq_false_iff.mpr hcrashed⟩

/-- A call that has returned takes no further step. -/
theorem run_returned {path : Path} (hlate : s.2.point.late = true) :
    ∀ answers, Runs.run (createStep path) s answers = some s' → s'.2.crashed = false → s' = s := by
  intro answers
  cases answers with
  | nil => intro h _; exact (Option.some.inj h).symm
  | cons answer answers =>
    intro h hcrashed
    obtain ⟨s₁, hstep, hrest⟩ := Runs.run_cons h
    unfold createStep Call.next at hstep
    split at hstep
    · cases hstep
    · split at hstep
      · -- the process ended, and does not come back
        rw [← Option.some.inj hstep] at hrest
        cases answers with
        | nil =>
          rw [← Option.some.inj hrest] at hcrashed
          cases hcrashed
        | cons answer answers =>
          obtain ⟨s₂, hstep₂, _⟩ := Runs.run_cons hrest
          cases hstep₂
      · have hnone : s.2.advance path answer s.1 = none := by
          unfold Call.advance
          cases hpoint : s.2.point with
          | returned result => rfl
          | failed error => rfl
          | _ => rw [hpoint] at hlate; cases hlate
        rw [hnone] at hstep
        cases hstep

/-- **An error comes late exactly if an answer made it so.** -/
theorem late_iff {path : Path} {bytes : Bytes} {first : Disk} :
    ∀ (answers : List Answer) (s s' : Disk × Call), Alone path bytes first s → s.2.point.late = false →
      Runs.run (createStep path) s answers = some s' → s'.2.crashed = false →
      (s'.2.point.late = false ↔
        Runs.Meets (createStep path) (fun s answer => spares s answer = true) s answers) := by
  intro answers
  induction answers with
  | nil =>
    intro s s' _ hearly hrun _
    rw [← Option.some.inj hrun]
    exact ⟨fun _ => trivial, fun _ => hearly⟩
  | cons answer answers ih =>
    intro s s' halone hearly hrun hcrashed
    obtain ⟨s₁, hstep, hrest⟩ := Runs.run_cons hrun
    obtain ⟨hlate, _⟩ := next_late halone.kept hearly hstep
    cases hspares : spares s answer with
    | true =>
      rw [hspares] at hlate
      have hih := ih s₁ s' (alone_step halone hstep) hlate hrest hcrashed
      constructor
      · intro h
        refine ⟨hspares, fun s₂ hs₂ => ?_⟩
        rw [hstep] at hs₂
        rw [← Option.some.inj hs₂]
        exact hih.mp h
      · intro h
        exact hih.mpr (h.2 s₁ hstep)
    | false =>
      rw [hspares] at hlate
      have hsame := run_returned hlate answers hrest hcrashed
      constructor
      · intro h
        rw [hsame, hlate] at h
        cases h
      · intro h
        exact absurd (hspares.symm.trans h.1) Bool.false_ne_true

/-- **What `atomic_create` returns and leaves.**  Either the file did not take its place, and the call
returned an error with nothing failing afterwards; or it did, on a free path, and the result is an error
exactly if a call after the `hard_link` failed. -/
theorem atomicCreate_cases {path : Path} {process : Process} {bytes : Bytes} {answers : List Answer}
    {disk disk' : Disk} {result : Except Error Unit}
    (h : atomicCreate path process bytes answers disk = some (disk', result)) :
    (∀ p, ¬Scratch path p → p ≠ path → disk'.files.read p = disk.files.read p) ∧
    (((∃ error, result = .error error) ∧ disk'.files.read path = disk.files.read path ∧
        Runs.Meets (createStep path) (fun s answer => spares s answer = true)
          (createStart process bytes disk) answers) ∨
      (disk.files.read path = none ∧ disk'.files.read path = some bytes ∧
        (result = .ok () ↔ Runs.Meets (createStep path) (fun s answer => spares s answer = true)
          (createStart process bytes disk) answers))) := by
  unfold atomicCreate at h
  split at h
  · cases h
  · rename_i s hrun
    split at h
    · cases h
    · rename_i hcrashed
      obtain ⟨result', houtcome, hpair⟩ := Option.map_eq_some_iff.mp h
      obtain ⟨rfl, rfl⟩ := Prod.mk.inj hpair
      have halone : Alone path bytes disk s :=
        Runs.run_invariant' (fun _ _ _ => alone_step) (alone_start path process bytes disk) hrun
      have hlate := late_iff answers _ s (alone_start path process bytes disk) rfl hrun
        (Bool.eq_false_iff.mpr hcrashed)
      refine ⟨halone.others, ?_⟩
      obtain ⟨disk', request, point, crashed⟩ := s
      cases point with
      | failed error =>
        exact Or.inl ⟨⟨error, (Option.some.inj houtcome).symm⟩, halone.before rfl, hlate.mp rfl⟩
      | returned result =>
        obtain rfl := Option.some.inj houtcome
        obtain ⟨hfree, hbytes⟩ := halone.after rfl
        refine Or.inr ⟨hfree, hbytes, Iff.trans ?_ hlate⟩
        cases result with
        | ok => exact ⟨fun _ => rfl, fun _ => rfl⟩
        | error error => exact ⟨fun h => (by cases h), fun h => (by cases h)⟩
      | _ => cases houtcome

end Peerless.Storage
