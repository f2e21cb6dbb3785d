import Peerless.Node.Reservations

/-!
# Idempotence of task ids

The `completed` map under all interleavings.  `completed` and `pending` are guarded by different
locks, so a commit that found no completed entry may start an execution after another one has
completed (`startsFresh` rules this out), and an expired commit may give the id of a running
execution free (`sparesRunning`, as for the reservations).

* `completed_once` — **PROVED**: in every run without these at most one execution of an id
  completes, its entry never changes, and every `TaskResult` for the id is the entry's, to the
  entry's requester.
-/

namespace Peerless.Node

open Text HashMap Peerless.Core Identity Protocol Chain Sample

variable {P : Primitives} {own : NodeIdentity P}

/-! ### What a thread has to do with `completed` -/

/-- The execution of a thread that has not reached `completed` yet, the entry the thread put there
with its id, and the `TaskResult` the thread returns. -/
structure View where
  fresh : Option Execution
  produced : Option (String × CompletedTask)
  result : Option (Commit × SignedExecutionRecord)

/-- The `TaskResult` of an outcome. -/
def resultOf (c : Commit) : Except NodeError SignedExecutionRecord →
    Option (Commit × SignedExecutionRecord)
  | .ok r => some (c, r)
  | .error _ => none

def Thread.view : Thread → View
  | .commitRow x => ⟨some x, none, none⟩
  | .commitRun x => ⟨some x, none, none⟩
  | .commitInsert x _ => ⟨some x, none, none⟩
  | .commitLedger x result => ⟨none, some (x.taskId, x.entry result), none⟩
  | .commitCompletedRow x result => ⟨none, some (x.taskId, x.entry result), none⟩
  | .commitEvent x result => ⟨none, some (x.taskId, x.entry result), none⟩
  | .commitRemove x produced outcome =>
    ⟨none, produced.map fun e => (x.taskId, e), resultOf x.commit outcome⟩
  | .committed c produced outcome =>
    ⟨none, produced.map fun e => (c.taskId, e), resultOf c outcome⟩
  | _ => ⟨none, none, none⟩

variable {t : Thread}

theorem execution_of_fresh {x : Execution} (h : t.view.fresh = some x) : t.execution = some x := by
  cases t <;> first | exact h | exact absurd h (by simp [Thread.view])

/-- A commit that starts an execution finds no completed entry for its id. -/
def startsFresh (env : Env) (s : Shared) : Thread → Bool
  | .commitPending c => (s.pending.lookup c.taskId).all fun accepted =>
      !(accepted.requester = c.signer && !accepted.expired env && !accepted.running &&
        (s.completed.lookup c.taskId).isSome)
  | _ => true

/-- `completed` and a thread's part in it, before and after a section. -/
inductive Completes : Map String CompletedTask → View → Map String CompletedTask → View → Prop
  | quiet (m v) : Completes m v m v
  | abandon (m x) : Completes m ⟨some x, none, none⟩ m ⟨none, none, none⟩
  | start (m) (x : Execution) (h : m.lookup x.taskId = none) :
      Completes m ⟨none, none, none⟩ m ⟨some x, none, none⟩
  | replay (m) (c : Commit) (e : CompletedTask) (h : m.lookup c.taskId = some e)
      (howner : e.requester = c.signer) :
      Completes m ⟨none, none, none⟩ m ⟨none, none, some (c, e.result)⟩
  | insert (m) (x : Execution) (result : SignedExecutionRecord) :
      Completes m ⟨some x, none, none⟩ (m.insert x.taskId (x.entry result))
        ⟨none, some (x.taskId, x.entry result), none⟩
  | answer (m) (x : Execution) (result : SignedExecutionRecord) :
      Completes m ⟨none, some (x.taskId, x.entry result), none⟩ m
        ⟨none, some (x.taskId, x.entry result), some (x.commit, result)⟩

theorem write_completes (s : Shared) (env : Env) (call : Metadata → Metadata) {done failed : Thread}
    {v : View} (hdone : Completes s.completed v s.completed done.view)
    (hfailed : Completes s.completed v s.completed failed.view) :
    Completes s.completed v (s.write env call done failed).1.completed
      (s.write env call done failed).2.view := by
  unfold Shared.write
  split
  · exact hdone
  · exact hfailed

theorem consult_completes (c : Commit) (s : Shared) :
    Completes s.completed ⟨none, none, none⟩ s.completed (c.consultCompleted s).view := by
  unfold Commit.consultCompleted
  split
  · rename_i completed hlookup
    split
    · exact .quiet _ _
    · rename_i howner
      exact .replay _ c completed hlookup (not_not.mp howner)
  · exact .quiet _ _

variable {s : Shared} {env : Env}

theorem begin_completes (c : Commit) (hfresh : startsFresh env s (.commitPending c) = true) :
    Completes s.completed ⟨none, none, none⟩ (c.begin s env).1.completed (c.begin s env).2.view := by
  unfold Commit.begin
  split
  · exact .quiet _ _
  · rename_i accepted hlookup
    split
    · exact .quiet _ _
    · rename_i hrequester
      split
      · exact .quiet _ _
      · rename_i hlive
        split
        · exact .quiet _ _
        · rename_i hidle
          refine .start _ ⟨c.taskId, c.signer, accepted.task⟩ ?_
          simpa [startsFresh, hlookup, not_not.mp hrequester, hlive, hidle] using hfresh

/-- **The sections of the code**, as far as `completed` is concerned. -/
theorem next_completes {r : Shared × Thread} (hfresh : startsFresh env s t = true)
    (h : next own env s t = some r) : Completes s.completed t.view r.1.completed r.2.view := by
  cases t with
  | commitCompleted c =>
    cases h
    exact consult_completes c s
  | commitPending c =>
    cases h
    exact begin_completes c hfresh
  | commitRow x =>
    cases h
    exact write_completes s env _ (.quiet _ _) (.abandon _ x)
  | commitRun x =>
    cases h
    show Completes s.completed ⟨some x, none, none⟩ s.completed (x.work own env).view
    unfold Execution.work
    split
    · exact .abandon _ x
    · exact .quiet _ _
  | commitInsert x result =>
    cases h
    exact .insert _ x result
  | commitEvent x result =>
    cases h
    exact write_completes s env _ (.answer _ x result) (.quiet _ _)
  | answered answer => exact absurd h (by simp [next])
  | committed c produced outcome => exact absurd h (by simp [next])
  | _ =>
    -- the other sections neither touch `completed` nor change the thread's part in it
    cases h
    simp only [Offer.check, Offer.consultCompleted, Offer.reserve, Shared.write, Execution.record]
    repeat' split
    all_goals exact .quiet _ _

/-! ### The invariant -/

/-- `completed` bears a thread's part out. -/
structure Settled (m : Map String CompletedTask) (v : View) : Prop where
  fresh : ∀ x, v.fresh = some x → m.lookup x.taskId = none
  produced : ∀ id e, v.produced = some (id, e) → m.lookup id = some e
  result : ∀ c r, v.result = some (c, r) →
    ∃ e, m.lookup c.taskId = some e ∧ e.result = r ∧ e.requester = c.signer

/-- Two threads have not produced an entry for one id. -/
def ProducedApart (t u : Thread) : Prop :=
  ∀ id e e', t.view.produced = some (id, e) → u.view.produced ≠ some (id, e')

/-- No entry of `base` has changed. -/
def Keeps (base m : Map String CompletedTask) : Prop :=
  ∀ id e, base.lookup id = some e → m.lookup id = some e

/-- Every product stands since `base`, and every answer is one of them. -/
abbrev Once (base : Map String CompletedTask) : Executor → Prop :=
  Threads.Inv (fun s => Keeps base s.completed) (fun s t => Settled s.completed t.view) ProducedApart

section Effect

variable {m m' : Map String CompletedTask} {v v' w : View}

theorem Completes.keeps (h : Completes m v m' v') (hv : Settled m v) : Keeps m m' := by
  intro id e he
  cases h with
  | insert x result =>
    have hnone := hv.fresh x rfl
    have hne : id ≠ x.taskId := by
      rintro rfl
      rw [hnone] at he
      cases he
    rw [AList.lookup_insert_ne hne, he]
  | _ => exact he

theorem Completes.settled (h : Completes m v m' v') (hv : Settled m v) : Settled m' v' := by
  cases h with
  | quiet => exact hv
  | abandon x => exact ⟨by simp, by simp, by simp⟩
  | start x hnone =>
    refine ⟨?_, by simp, by simp⟩
    intro y hy
    rw [← Option.some.inj hy]
    exact hnone
  | replay c e he howner =>
    refine ⟨by simp, by simp, ?_⟩
    intro c' r hr
    cases hr
    exact ⟨e, he, rfl, howner⟩
  | insert x result =>
    refine ⟨by simp, ?_, by simp⟩
    intro id e he
    cases he
    exact AList.lookup_insert m
  | answer x result =>
    refine ⟨by simp, hv.produced, ?_⟩
    intro c r hr
    cases hr
    exact ⟨x.entry result, hv.produced _ _ rfl, rfl, rfl⟩

/-- The part of another thread is not disturbed, if its execution is for another id. -/
theorem Completes.other (h : Completes m v m' v') (hv : Settled m v) (hw : Settled m w)
    (hne : ∀ x y, v.fresh = some x → w.fresh = some y → x.taskId ≠ y.taskId) : Settled m' w := by
  have hkeeps := h.keeps hv
  refine ⟨?_, fun id e he => hkeeps id e (hw.produced id e he), ?_⟩
  · intro y hy
    have hnone := hw.fresh y hy
    cases h with
    | insert x result => rw [AList.lookup_insert_ne (Ne.symm (hne x y rfl hy)), hnone]
    | _ => exact hnone
  · intro c r hr
    obtain ⟨e, he, hfields⟩ := hw.result c r hr
    exact ⟨e, hkeeps _ e he, hfields⟩

/-- A new product is for an id nobody has produced. -/
theorem Completes.produced (h : Completes m v m' v') (hv : Settled m v) {id : String}
    {e : CompletedTask} (he : v'.produced = some (id, e)) :
    v.produced = some (id, e) ∨ m.lookup id = none := by
  cases h with
  | insert x result =>
    obtain ⟨rfl, _⟩ := Prod.mk.inj (Option.some.inj he)
    exact .inr (hv.fresh x rfl)
  | answer x result => exact .inl he
  | quiet => exact .inl he
  | _ => cases he

end Effect

/-! ### Runs -/

/-- The thread that moves spares running executions and starts none for a completed id. -/
def orderly (env : Env) (s : Shared) (t : Thread) : Bool := sparesRunning env s t && startsFresh env s t

def Orderly (p : Executor) (a : Threads.Act Request Env) : Prop := Threads.locally orderly p a = true

variable {p : Executor}

theorem Orderly.spares {a : Threads.Act Request Env} (h : Orderly p a) : Spares p a :=
  Threads.locally_mono (fun _ _ _ hok => (Bool.and_eq_true_iff.mp hok).1) h

theorem Orderly.fresh {i : ℕ} (h : Orderly p (.advance i env)) (ht : p.threads[i]? = some t) :
    startsFresh env p.shared t = true :=
  (Bool.and_eq_true_iff.mp (Threads.ok_of_locally h ht)).2

theorem once_step {base : Map String CompletedTask} {p' : Executor} {a : Threads.Act Request Env}
    (hp : Held p ∧ Once base p) (hok : Orderly p a) (hstep : executorStep own p a = some p') :
    Held p' ∧ Once base p' := by
  obtain ⟨hheld, honce⟩ := hp
  refine ⟨held_step hheld hok.spares hstep, ?_⟩
  refine Threads.inv_step (fun p a => Held p ∧ Orderly p a) ?_ ?_ ?_ ?_ honce ⟨hheld, hok⟩ hstep
  · intro t u h id e e' he he'
    exact h id e' e he' he
  · intro s request _
    cases request <;> exact ⟨by simp [Request.start, Thread.view],
      by simp [Request.start, Thread.view], by simp [Request.start, Thread.view]⟩
  · intro request u id e e' he
    cases request <;> exact absurd he (by simp [Request.start, Thread.view])
  · intro p i env t s' t' honce hok ht hnext
    obtain ⟨hheld, hok⟩ := hok
    have heff := next_completes (Orderly.fresh hok ht) hnext
    have hsettled := honce.each i t ht
    have hkeeps := heff.keeps hsettled
    refine ⟨fun id e he => hkeeps id e (honce.shared id e he), heff.settled hsettled, ?_⟩
    intro j u hji hu
    have hother := honce.each j u hu
    refine ⟨heff.other hsettled hother ?_, ?_⟩
    · intro x y hx hy
      exact hheld.apart i j t u (Ne.symm hji) ht hu x y (execution_of_fresh hx) (execution_of_fresh hy)
    · intro id e e' he he'
      rcases heff.produced hsettled he with hold | hnone
      · exact honce.apart i j t u (Ne.symm hji) ht hu id e e' hold he'
      · have hsome := hother.produced id e' he'
        rw [hnone] at hsome
        cases hsome

theorem once_start (base : Map String CompletedTask) (h : Keeps base s.completed) :
    Once base ⟨s, []⟩ :=
  Threads.inv_nil h

/-- The invariant restarts from any state of a run: from there on its entries are the base. -/
theorem Once.rebase {base : Map String CompletedTask} (h : Once base p) :
    Once p.shared.completed p :=
  ⟨fun _ _ he => he, h.each, h.apart⟩

/-- **Task ids are idempotent.**  In every interleaving in which no commit finds its reservation
expired while an execution is running on it, and no commit starts an execution for an id that is
already completed: at most one request has put an entry for a given id into `completed`, that entry
is what `completed` holds, an entry present at some moment is the same at every later moment, and
every `TaskResult` for an id carries the record of the id's entry and goes to the entry's requester.
-/
theorem completed_once {s : Shared} (hempty : s.pending = ∅)
    {acts later : List (Threads.Act Request Env)} {p q : Executor}
    (hmeets : Runs.Meets (executorStep own) Orderly ⟨s, []⟩ acts)
    (hrun : Runs.run (executorStep own) ⟨s, []⟩ acts = some p)
    (hmeets' : Runs.Meets (executorStep own) Orderly p later)
    (hrun' : Runs.run (executorStep own) p later = some q) :
    (∀ (i j : ℕ) (t u : Thread) id e e', q.threads[i]? = some t → q.threads[j]? = some u →
      t.view.produced = some (id, e) → u.view.produced = some (id, e') → i = j) ∧
    (∀ (i : ℕ) (t : Thread) id e, q.threads[i]? = some t → t.view.produced = some (id, e) →
      q.shared.completed.lookup id = some e) ∧
    (∀ id e, p.shared.completed.lookup id = some e → q.shared.completed.lookup id = some e) ∧
    (∀ (i : ℕ) (t : Thread) c r, q.threads[i]? = some t → t.view.result = some (c, r) →
      ∃ e, q.shared.completed.lookup c.taskId = some e ∧ e.result = r ∧ e.requester = c.signer) := by
  have hstart : Held ⟨s, []⟩ ∧ Once s.completed ⟨s, []⟩ :=
    ⟨held_start hempty, once_start s.completed fun _ _ he => he⟩
  obtain ⟨hheld, honce⟩ :=
    Runs.run_invariant (fun _ _ _ => once_step) acts _ p hstart hmeets hrun
  obtain ⟨_, hq⟩ :=
    Runs.run_invariant (fun _ _ _ => once_step) later p q ⟨hheld, honce.rebase⟩ hmeets' hrun'
  refine ⟨?_, fun i t id e ht => (hq.each i t ht).produced id e, hq.shared,
    fun i t c r ht => (hq.each i t ht).result c r⟩
  intro i j t u id e e' ht hu he he'
  by_contra hij
  exact hq.apart i j t u hij ht hu id e e' he he'

/-! ### A repeated offer and two commits -/

/-- An offer, its commit to the end, and the commit again. -/
def finishJob : List (Threads.Act Request Env) :=
  offerUntil "job" 100 :: sections 0 1 6 ++ commitTo "job" :: sections 1 2 9

def replayJob : List (Threads.Act Request Env) := commitTo "job" :: sections 2 3 1

/-- The entry of the finished task is still there after the replay. -/
theorem finishJob_replayed : ∃ p q e, Runs.run (executorStep executor) freshNode finishJob = some p ∧
    Runs.run (executorStep executor) p replayJob = some q ∧
    p.shared.completed.lookup "job" = some e ∧ q.shared.completed.lookup "job" = some e := by
  have hfacts : (Runs.run (Runs.guarded (executorStep executor) (Threads.locally orderly)) freshNode
      finishJob).bind (fun p => (p.shared.completed.lookup "job").bind fun _ =>
        Runs.run (Runs.guarded (executorStep executor) (Threads.locally orderly)) p replayJob)
          |>.isSome := by
    decide +kernel
  obtain ⟨q, hq⟩ := Option.isSome_iff_exists.mp hfacts
  obtain ⟨p, hp, hrest⟩ := Option.bind_eq_some_iff.mp hq
  obtain ⟨e, he, hq⟩ := Option.bind_eq_some_iff.mp hrest
  obtain ⟨hmeets, hrun⟩ := Runs.run_guarded _ _ _ hp
  obtain ⟨hmeets', hrun'⟩ := Runs.run_guarded _ _ _ hq
  exact ⟨p, q, e, hrun, hrun', he, (completed_once rfl hmeets hrun hmeets' hrun').2.2.1 "job" e he⟩

/-- Two offers with long leases and two commits: both offers and both commits look into `completed`
before the first commit runs to its end; then the second offer reserves again and the second commit
starts. -/
def raceJob : List (Threads.Act Request Env) :=
  offerUntil "job" 100 :: sections 0 1 6 ++
  offerUntil "job" 100 :: sections 1 2 2 ++
  commitTo "job" :: sections 2 3 1 ++
  commitTo "job" :: sections 3 3 1 ++
  sections 2 4 8 ++ sections 1 5 4 ++ sections 3 6 8

/-- The start times on the records the requests put into `completed`. -/
def producedAt (p : Executor) : List (String × ℕ) :=
  p.threads.filterMap fun t => t.view.produced.map fun e => (e.1, e.2.result.record.startedAt)

/-- The start times on the records the requests returned. -/
def returnedAt (p : Executor) : List (String × ℕ) :=
  p.threads.filterMap fun t => t.view.result.map fun r => (r.1.taskId, r.2.record.startedAt)

/-- **The same task is executed twice within its lease, with two different results.** -/
theorem raceJob_two_results : (readings raceJob).Pairwise (· ≤ ·) ∧
    (Runs.run (executorStep executor) freshNode raceJob).map (fun p =>
      (producedAt p, returnedAt p,
        (p.shared.completed.lookup "job").map fun e => e.result.record.startedAt)) =
      some ([("job", 4), ("job", 6)], [("job", 4), ("job", 6)], some 6) := by
  decide +kernel

end Peerless.Node
