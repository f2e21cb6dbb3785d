import Peerless.Node.Idempotence

/-!
# No result without a record

An execution writes to `completed`, to the ledger and to the metadata store, in this order, and any
of the writes may fail.  The ledger and the table `tasks` under all interleavings, with the stages
an execution goes through (`Stage`).

* `result_recorded` — if the writes succeed (`keepsRecords`) and no commit is answered from
  `completed` before its execution has written its records (`waitsForRecords`), every `TaskResult`
  has its ledger event and its replayable row.
-/

namespace Peerless.Node

open Text HashMap Peerless.Core Identity Protocol Chain Sample

variable {P : Primitives} {own : NodeIdentity P}

/-! ### Records and stages -/

/-- The ledger contains the `TaskCompleted` event of a record. -/
def Logged (l : Ledger) (record : ExecutionRecord) : Prop :=
  ∃ b ∈ l.blocks, ∃ e ∈ b.events, e.event = .taskCompleted record

/-- The table `tasks` holds the row from which an entry is replayed after a restart. -/
def Stored (tasks : Map String TaskRow) (e : CompletedTask) : Prop :=
  ∃ row, tasks.lookup e.task.taskId = some row ∧ row.replayable = some (e.task, e.requester, e.result)

/-- What is written down outside the process. -/
structure Books where
  ledger : Ledger
  tasks : Map String TaskRow

def Shared.books (s : Shared) : Books := ⟨s.ledger, s.metadata.tasks⟩

structure Recorded (b : Books) (e : CompletedTask) : Prop where
  logged : Logged b.ledger e.result.record
  stored : Stored b.tasks e

/-- How far an execution has got with its records since it entered `completed`. -/
inductive Stage where
  | out
  | inserted (x : Execution) (result : SignedExecutionRecord)
  | logged (x : Execution) (result : SignedExecutionRecord)
  | stored (x : Execution) (result : SignedExecutionRecord)

def Thread.stage : Thread → Stage
  | .commitLedger x result => .inserted x result
  | .commitCompletedRow x result => .logged x result
  | .commitEvent x result => .stored x result
  | _ => .out

/-- The entry whose records are still missing. -/
def Stage.missing : Stage → Option (String × CompletedTask)
  | .inserted x result => some (x.taskId, x.entry result)
  | .logged x result => some (x.taskId, x.entry result)
  | _ => none

variable {t : Thread} {x : Execution}

theorem eq_of_logged {result : SignedExecutionRecord} (h : t.stage = .logged x result) :
    t = .commitCompletedRow x result := by
  cases t <;> simp [Thread.stage] at h
  rw [h.1, h.2]

theorem eq_of_stored {result : SignedExecutionRecord} (h : t.stage = .stored x result) :
    t = .commitEvent x result := by
  cases t <;> simp [Thread.stage] at h
  rw [h.1, h.2]

/-! ### What a section writes -/

/-- The writes after the insertion into `completed` succeed, and no offer writes the row of a
completed id. -/
def keepsRecords (own : NodeIdentity P) (env : Env) (s : Shared) : Thread → Bool
  | .commitLedger _ result =>
    appendable own s.blocks s.ledger (.taskCompleted result.record) env.now env.written
  | .commitCompletedRow _ _ => env.written
  | .offerRow o => !(env.written && (s.completed.lookup o.task.taskId).isSome)
  | _ => true

/-- The books and the stage of a thread before and after a section, under a `completed` map. -/
inductive Records (m : Map String CompletedTask) : Books → Stage → Books → Stage → Prop
  | quiet (b g) : Records m b g b g
  | enter (b x result) : Records m b .out b (.inserted x result)
  | leave (b x result) : Records m b (.stored x result) b .out
  | mark (b : Books) (id row) (h : m.lookup id = none) :
      Records m b .out ⟨b.ledger, b.tasks.insert id row⟩ .out
  | log (b : Books) (x) (result : SignedExecutionRecord) (block : Block)
      (h : ∃ e ∈ block.events, e.event = .taskCompleted result.record) :
      Records m b (.inserted x result) ⟨⟨b.ledger.blocks ++ [block]⟩, b.tasks⟩ (.logged x result)
  | complete (b : Books) (x : Execution) (result) (row : TaskRow)
      (h : row.replayable = some (x.task, x.signer, result)) :
      Records m b (.logged x result) ⟨b.ledger, b.tasks.insert x.task.taskId row⟩
        (.stored x result)

variable {s : Shared} {env : Env}

theorem record_records (hP : P.Lawful) (x : Execution) {result : SignedExecutionRecord}
    (hok : appendable own s.blocks s.ledger (.taskCompleted result.record) env.now env.written = true) :
    Records s.completed s.books (.inserted x result) (x.record own s env result).1.books
      (x.record own s env result).2.stage := by
  obtain ⟨⟨blocks, ledger⟩, happend⟩ := appendLedgerEvent_of_appendable hP hok
  obtain ⟨block, signed, rfl, hevents, hevent⟩ := appendLedgerEvent_ok happend
  unfold Execution.record
  rw [happend]
  refine .log s.books x result block ⟨signed, ?_, hevent⟩
  rw [hevents]
  exact List.mem_singleton_self signed

/-- A call that marks the row of an id that is not completed. -/
theorem write_marks (s : Shared) (env : Env) (id : String) (state : TaskState)
    (executor : Option NodeId) {done failed : Thread} (hdone : done.stage = .out)
    (hfailed : failed.stage = .out) (hnone : env.written = true → s.completed.lookup id = none) :
    Records s.completed s.books .out
      (s.write env (·.task id state executor env.now) done failed).1.books
      (s.write env (·.task id state executor env.now) done failed).2.stage := by
  unfold Shared.write
  split
  · rename_i hwritten
    rw [hdone]
    exact .mark s.books id _ (hnone hwritten)
  · rw [hfailed]
    exact .quiet _ _

variable {r : Shared × Thread}

/-- **The sections of the code**, as far as the records are concerned. -/
theorem next_records (hP : P.Lawful) (hok : keepsRecords own env s t = true)
    (hfresh : ∀ x, t.view.fresh = some x → s.completed.lookup x.taskId = none)
    (h : next own env s t = some r) : Records s.completed s.books t.stage r.1.books r.2.stage := by
  cases t with
  | offerRow o =>
    cases h
    refine write_marks s env _ _ _ rfl rfl ?_
    intro hwritten
    simpa [keepsRecords, hwritten] using hok
  | commitRow x =>
    cases h
    exact write_marks s env _ _ _ rfl rfl fun _ => hfresh x rfl
  | commitInsert x result =>
    cases h
    exact .enter s.books x result
  | commitLedger x result =>
    cases h
    exact record_records hP x hok
  | commitCompletedRow x result =>
    cases h
    have hwritten : env.written = true := hok
    show Records s.completed s.books (.logged x result) (s.write env _ _ _).1.books
      (s.write env _ _ _).2.stage
    unfold Shared.write
    rw [if_pos hwritten]
    exact .complete s.books x result _ rfl
  | commitEvent x result =>
    cases h
    show Records s.completed s.books (.stored x result) (s.write env _ _ _).1.books
      (s.write env _ _ _).2.stage
    unfold Shared.write
    split <;> exact .leave s.books x result
  | answered answer => exact absurd h (by simp [next])
  | committed c produced outcome => exact absurd h (by simp [next])
  | _ =>
    -- the other sections write neither to the ledger nor to the table
    cases h
    simp only [Offer.check, Offer.consultCompleted, Offer.reserve, Shared.write,
      Commit.consultCompleted, Commit.begin, Execution.work]
    repeat' split
    all_goals exact .quiet s.books .out

/-- Where a `TaskResult` comes from: it was there, its execution has just stored its records, or the
commit was answered from `completed`. -/
theorem next_result {w : Commit × SignedExecutionRecord} (h : next own env s t = some r)
    (hresult : r.2.view.result = some w) :
    t.view.result = some w ∨ (∃ x, t = .commitEvent x w.2 ∧ w.1 = x.commit) ∨
      t = .commitCompleted w.1 := by
  cases t with
  | commitCompleted c =>
    cases h
    have hview : (c.consultCompleted s).view.result = some w := hresult
    unfold Commit.consultCompleted at hview
    split at hview
    · split at hview
      · exact absurd hview (by simp [Thread.view, resultOf])
      · rw [← Option.some.inj hview]
        exact .inr (.inr rfl)
    · exact absurd hview (by simp [Thread.view])
  | commitEvent x result =>
    cases h
    have hview : (s.write env _ _ _).2.view.result = some w := hresult
    unfold Shared.write at hview
    split at hview
    · rw [← Option.some.inj hview]
      exact .inr (.inl ⟨x, rfl, rfl⟩)
    · exact absurd hview (by simp [Thread.view, resultOf])
  | commitRemove x produced outcome =>
    cases h
    exact .inl hresult
  | answered answer => exact absurd h (by simp [next])
  | committed c produced outcome => exact absurd h (by simp [next])
  | _ =>
    cases h
    refine absurd hresult ?_
    simp only [Offer.check, Offer.consultCompleted, Offer.reserve, Shared.write, Commit.begin,
      Execution.work, Execution.record]
    repeat' split
    all_goals simp [Thread.view, resultOf]

/-! ### The invariant -/

/-- A thread's part in the records is borne out. -/
def Stage.Backed (b : Books) : Stage → Prop
  | .logged _ result => Logged b.ledger result.record
  | .stored x result => Recorded b (x.entry result)
  | _ => True

/-- Every completed entry is filed under its task's id and has its records, or its execution is
about to write them; every result is the result of an entry with its records. -/
structure Trail (p : Executor) : Prop where
  keyed : ∀ id e, p.shared.completed.lookup id = some e → e.task.taskId = id
  entry : ∀ id e, p.shared.completed.lookup id = some e → Recorded p.shared.books e ∨
    ∃ (i : ℕ) (t : Thread), p.threads[i]? = some t ∧ t.stage.missing = some (id, e)
  stage : ∀ (i : ℕ) (t : Thread), p.threads[i]? = some t → t.stage.Backed p.shared.books
  result : ∀ (i : ℕ) (t : Thread) c r e, p.threads[i]? = some t → t.view.result = some (c, r) →
    p.shared.completed.lookup c.taskId = some e → Recorded p.shared.books e

section Effect

variable {m : Map String CompletedTask} {b b' : Books} {g g' : Stage}

theorem Records.logged_mono (h : Records m b g b' g') {record : ExecutionRecord}
    (hlogged : Logged b.ledger record) : Logged b'.ledger record := by
  cases h with
  | log x result block _ =>
    obtain ⟨a, ha, hevent⟩ := hlogged
    exact ⟨a, List.mem_append_left _ ha, hevent⟩
  | _ => exact hlogged

/-- The records of a completed entry stay: rows are only marked for ids that are not completed, and an
execution stores the row of its own entry. -/
theorem Records.recorded_mono (h : Records m b g b' g') {id : String} {e : CompletedTask}
    (he : m.lookup id = some e) (hkey : e.task.taskId = id)
    (hown : ∀ x result, g = .logged x result → x.task.taskId = id → e = x.entry result)
    (hrec : Recorded b e) : Recorded b' e := by
  refine ⟨h.logged_mono hrec.logged, ?_⟩
  obtain ⟨row, hrow, hreplay⟩ := hrec.stored
  cases h with
  | mark id' row' hnone =>
    have hne : e.task.taskId ≠ id' := by
      rintro rfl
      rw [hkey, he] at hnone
      cases hnone
    exact ⟨row, by rw [AList.lookup_insert_ne hne, hrow], hreplay⟩
  | complete x result row' hrow' =>
    by_cases hne : e.task.taskId = x.task.taskId
    · obtain rfl := hown x result rfl (hne.symm.trans hkey)
      exact ⟨row', AList.lookup_insert _, hrow'⟩
    · exact ⟨row, by rw [AList.lookup_insert_ne hne, hrow], hreplay⟩
  | _ => exact ⟨row, hrow, hreplay⟩

/-- An execution that is missing records goes on missing them, or has just written the last one. -/
theorem Records.missing (h : Records m b g b' g') (hg : g.Backed b) {id : String} {e : CompletedTask}
    (hmissing : g.missing = some (id, e)) : g'.missing = some (id, e) ∨ Recorded b' e := by
  cases h with
  | quiet => exact .inl hmissing
  | log x result block _ => exact .inl hmissing
  | complete x result row hrow =>
    obtain ⟨_, rfl⟩ := Prod.mk.inj (Option.some.inj hmissing)
    exact .inr ⟨hg, row, AList.lookup_insert _, hrow⟩
  | _ => exact absurd hmissing (by simp [Stage.missing])

theorem Records.backed (h : Records m b g b' g') (hg : g.Backed b) : g'.Backed b' := by
  cases h with
  | quiet => exact hg
  | log x result block hblock =>
    exact ⟨block, List.mem_append_right _ (List.mem_singleton_self _), hblock⟩
  | complete x result row hrow => exact ⟨hg, row, AList.lookup_insert _, hrow⟩
  | _ => trivial

end Effect

/-! ### Runs -/

/-- A commit that looks into `completed` finds no entry whose records are still missing. -/
def waitsForRecords (p : Executor) : Threads.Act Request Env → Bool
  | .arrive _ => true
  | .advance i _ =>
    match p.threads[i]? with
    | some (.commitCompleted c) =>
      p.threads.all fun u => u.stage.missing.all fun w => w.1 ≠ c.taskId
    | _ => true

/-- The condition on a step: orderly, no failing write, no early replay. -/
def recording (own : NodeIdentity P) (p : Executor) (a : Threads.Act Request Env) : Bool :=
  Threads.locally orderly p a && Threads.locally (keepsRecords own) p a && waitsForRecords p a

variable {p : Executor}

theorem missing_ne_of_waits {i j : ℕ} {c : Commit} {u : Thread}
    (h : waitsForRecords p (.advance i env) = true) (ht : p.threads[i]? = some (.commitCompleted c))
    (hu : p.threads[j]? = some u) {e : CompletedTask} : u.stage.missing ≠ some (c.taskId, e) := by
  intro hmissing
  simp only [waitsForRecords, ht, List.all_eq_true] at h
  have hall := h u (List.mem_of_getElem? hu)
  rw [hmissing] at hall
  simp at hall

/-- The task of an execution is filed under its id. -/
theorem Held.task_keyed (h : Held p) {i : ℕ} (ht : p.threads[i]? = some t) (hx : t.execution = some x) :
    x.task.taskId = x.taskId := by
  obtain ⟨v, hv, _, htask, _⟩ := h.each i t ht x hx
  rw [← htask]
  exact h.shared.keyed _ v hv

/-- A completed entry after a section was there before, or the section has put it there. -/
theorem next_entry (h : next own env s t = some r) {id : String} {e : CompletedTask}
    (he : r.1.completed.lookup id = some e) : s.completed.lookup id = some e ∨
      ∃ x, t.execution = some x ∧ id = x.taskId ∧ e.task = x.task ∧
        r.2.stage.missing = some (id, e) := by
  cases t with
  | commitInsert x result =>
    cases h
    by_cases hid : id = x.taskId
    · subst hid
      have hentry : (s.completed.insert x.taskId (x.entry result)).lookup x.taskId = some e := he
      rw [AList.lookup_insert] at hentry
      rw [← Option.some.inj hentry]
      exact .inr ⟨x, rfl, rfl, rfl, rfl⟩
    · have hentry : (s.completed.insert x.taskId (x.entry result)).lookup id = some e := he
      rw [AList.lookup_insert_ne hid] at hentry
      exact .inl hentry
  | answered answer => exact absurd h (by simp [next])
  | committed c produced outcome => exact absurd h (by simp [next])
  | _ =>
    -- only an insertion changes `completed`
    cases h
    refine .inl ?_
    revert he
    simp only [Offer.reserve, Shared.write, Commit.begin, Execution.record]
    repeat' split
    all_goals exact fun he => he

theorem trail_arrive (h : Trail p) (request : Request) :
    Trail ⟨p.shared, p.threads ++ [request.start]⟩ := by
  have hnew : ∀ (j : ℕ) (u : Thread), (p.threads ++ [request.start])[j]? = some u →
      p.threads[j]? = some u ∨ u = request.start := by
    intro j u hu
    exact (Threads.getElem?_arrive hu).imp_right And.right
  refine ⟨h.keyed, ?_, ?_, ?_⟩
  · intro id e he
    refine (h.entry id e he).imp_right ?_
    rintro ⟨j, u, hu, hmissing⟩
    have hj : j < p.threads.length := (List.getElem?_eq_some_iff.mp hu).1
    exact ⟨j, u, by rw [List.getElem?_append_left hj]; exact hu, hmissing⟩
  · intro j u hu
    rcases hnew j u hu with hu | rfl
    · exact h.stage j u hu
    · cases request <;> trivial
  · intro j u c r e hu hr he
    rcases hnew j u hu with hu | rfl
    · exact h.result j u c r e hu hr he
    · cases request <;> exact absurd hr (by simp [Request.start, Thread.view])

section Advance

variable {base : Map String CompletedTask} {p : Executor} {i : ℕ} {env : Env} {t t' : Thread}
  {s' : Shared}

theorem recorded_advance (hheld : Held p) (honce : Once base p) (htrail : Trail p)
    (ht : p.threads[i]? = some t)
    (hrec : Records p.shared.completed p.shared.books t.stage s'.books t'.stage) {id : String}
    {e : CompletedTask} (he : p.shared.completed.lookup id = some e)
    (h : Recorded p.shared.books e) : Recorded s'.books e := by
  refine hrec.recorded_mono he (htrail.keyed id e he) ?_ h
  intro x result hstage hid
  obtain rfl := eq_of_logged hstage
  have hentry : p.shared.completed.lookup x.taskId = some (x.entry result) :=
    (honce.each i _ ht).produced _ _ rfl
  rw [← hheld.task_keyed ht rfl, hid, he] at hentry
  exact Option.some.inj hentry

/-- A thread that returns a result after a section returns that of an entry with its records. -/
theorem result_advance (honce : Once base p) (htrail : Trail p)
    (hwaits : waitsForRecords p (.advance i env) = true) (ht : p.threads[i]? = some t)
    (hnext : next own env p.shared t = some (s', t')) {c : Commit} {r : SignedExecutionRecord}
    (hr : t'.view.result = some (c, r)) :
    ∃ e, p.shared.completed.lookup c.taskId = some e ∧ Recorded p.shared.books e := by
  rcases next_result hnext hr with hold | ⟨x, rfl, rfl⟩ | rfl
  · obtain ⟨e, he, _⟩ := (honce.each i t ht).result c r hold
    exact ⟨e, he, htrail.result i t c r e ht hold he⟩
  · exact ⟨x.entry r, (honce.each i _ ht).produced _ _ rfl, htrail.stage i _ ht⟩
  · -- the commit was answered from an entry, which nobody is still recording
    obtain rfl := (Prod.mk.inj (Option.some.inj hnext)).2
    have hview : (c.consultCompleted p.shared).view.result = some (c, r) := hr
    unfold Commit.consultCompleted at hview
    split at hview
    · rename_i e he
      refine ⟨e, he, (htrail.entry _ e he).resolve_right ?_⟩
      rintro ⟨j, u, hu, hmissing⟩
      exact missing_ne_of_waits hwaits ht hu hmissing
    · exact absurd hview (by simp [Thread.view])

theorem trail_advance (hP : P.Lawful) (hheld : Held p) (honce : Once base p) (htrail : Trail p)
    (hfresh : startsFresh env p.shared t = true) (hkeeps : keepsRecords own env p.shared t = true)
    (hwaits : waitsForRecords p (.advance i env) = true) (ht : p.threads[i]? = some t)
    (hnext : next own env p.shared t = some (s', t')) : Trail ⟨s', p.threads.set i t'⟩ := by
  have hsettled := honce.each i t ht
  have hstay := (next_completes hfresh hnext).keeps hsettled
  have hrec := next_records hP hkeeps hsettled.fresh hnext
  have hmono : ∀ id e, p.shared.completed.lookup id = some e → Recorded p.shared.books e →
      Recorded s'.books e := fun id e he => recorded_advance hheld honce htrail ht hrec he
  have hi : i < p.threads.length := (List.getElem?_eq_some_iff.mp ht).1
  refine ⟨?_, ?_, ?_, ?_⟩
  · intro id e he
    rcases next_entry hnext he with hold | ⟨x, hx, rfl, htask, _⟩
    · exact htrail.keyed id e hold
    · rw [htask]
      exact hheld.task_keyed ht hx
  · intro id e he
    rcases next_entry hnext he with hold | ⟨x, _, _, _, hmissing⟩
    · rcases htrail.entry id e hold with hrecorded | ⟨j, u, hu, hmissing⟩
      · exact .inl (hmono id e hold hrecorded)
      · by_cases hij : i = j
        · subst hij
          obtain rfl : t = u := Option.some.inj (ht.symm.trans hu)
          rcases hrec.missing (htrail.stage i t ht) hmissing with hstill | hdone
          · exact .inr ⟨i, t', List.getElem?_set_self hi, hstill⟩
          · exact .inl hdone
        · exact .inr ⟨j, u, by rw [List.getElem?_set_ne hij]; exact hu, hmissing⟩
    · exact .inr ⟨i, t', List.getElem?_set_self hi, hmissing⟩
  · intro j u hu
    rcases Threads.getElem?_advance hu with ⟨_, rfl⟩ | ⟨_, huOld⟩
    · exact hrec.backed (htrail.stage i t ht)
    · have hbacked := htrail.stage j u huOld
      cases hstage : u.stage with
      | out => trivial
      | inserted x result => trivial
      | logged x result =>
        rw [hstage] at hbacked
        exact hrec.logged_mono hbacked
      | stored x result =>
        rw [hstage] at hbacked
        obtain rfl := eq_of_stored hstage
        exact hmono _ _ ((honce.each j _ huOld).produced _ _ rfl) hbacked
  · intro j u c r e hu hr he
    have hentry : ∃ e₀, p.shared.completed.lookup c.taskId = some e₀ ∧
        Recorded p.shared.books e₀ := by
      rcases Threads.getElem?_advance hu with ⟨_, rfl⟩ | ⟨_, huOld⟩
      · exact result_advance honce htrail hwaits ht hnext hr
      · obtain ⟨e₀, he₀, _⟩ := (honce.each j u huOld).result c r hr
        exact ⟨e₀, he₀, htrail.result j u c r e₀ huOld hr he₀⟩
    obtain ⟨e₀, he₀, hrecorded⟩ := hentry
    obtain rfl : e₀ = e := Option.some.inj ((hstay _ _ he₀).symm.trans he)
    exact hmono _ e₀ he₀ hrecorded

end Advance

theorem trail_step (hP : P.Lawful) {base : Map String CompletedTask} {p' : Executor}
    {a : Threads.Act Request Env} (h : (Held p ∧ Once base p) ∧ Trail p) (hok : recording own p a = true)
    (hstep : executorStep own p a = some p') : (Held p' ∧ Once base p') ∧ Trail p' := by
  obtain ⟨hp, htrail⟩ := h
  simp only [recording, Bool.and_eq_true] at hok
  obtain ⟨⟨horderly, hkeeps⟩, hwaits⟩ := hok
  refine ⟨once_step hp horderly hstep, ?_⟩
  rcases Threads.step_cases hstep with ⟨request, rfl, rfl⟩ | ⟨i, env, t, s', t', rfl, ht, hnext, rfl⟩
  · exact trail_arrive htrail request
  · exact trail_advance hP hp.1 hp.2 htrail (Orderly.fresh horderly ht)
      (Threads.ok_of_locally hkeeps ht) hwaits ht hnext

/-- **No result without a record.**  A node starts with completed entries that have their
records.  In every interleaving that is orderly, in which no write fails after an insertion into
`completed`, no offer writes the row of a completed id, and no commit is answered from an entry
whose records are still being written: whenever a commit returns `TaskResult(r)`, the ledger
contains the `TaskCompleted` event of `r`'s record, and `completed_tasks` returns the row with `r`,
a task of that id and the requester it went to. -/
theorem result_recorded (hP : P.Lawful) {s : Shared} (hempty : s.pending = ∅)
    (hstart : ∀ id e, s.completed.lookup id = some e → e.task.taskId = id ∧ Recorded s.books e)
    {acts : List (Threads.Act Request Env)} {p : Executor}
    (hmeets : Runs.Meets (executorStep own) (fun p a => recording own p a = true) ⟨s, []⟩ acts)
    (hrun : Runs.run (executorStep own) ⟨s, []⟩ acts = some p) :
    ∀ (i : ℕ) (t : Thread) c r, p.threads[i]? = some t → t.view.result = some (c, r) →
      (∃ b ∈ p.shared.ledger.blocks, ∃ e ∈ b.events, e.event = .taskCompleted r.record) ∧
      ∃ task, task.taskId = c.taskId ∧ (task, c.signer, r) ∈ p.shared.metadata.completedTasks := by
  have hinit : (Held ⟨s, []⟩ ∧ Once s.completed ⟨s, []⟩) ∧ Trail ⟨s, []⟩ :=
    ⟨⟨held_start hempty, once_start s.completed fun _ _ he => he⟩,
      fun id e he => (hstart id e he).1, fun id e he => .inl (hstart id e he).2,
      fun _ _ ht => absurd ht (by simp), fun _ _ _ _ _ ht => absurd ht (by simp)⟩
  obtain ⟨⟨_, honce⟩, htrail⟩ :=
    Runs.run_invariant (fun _ _ _ => trail_step hP) acts _ p hinit hmeets hrun
  intro i t c r ht hr
  obtain ⟨e, he, rfl, howner⟩ := (honce.each i t ht).result c r hr
  obtain ⟨hlogged, row, hrow, hreplay⟩ := htrail.result i t c _ e ht hr he
  refine ⟨hlogged, e.task, htrail.keyed _ e he, ?_⟩
  rw [← howner]
  exact List.mem_filterMap.mpr ⟨row, mem_vals_of_lookup hrow, hreplay⟩

/-! ### A failed append and a retry -/

/-- The result of the finished sample task has its ledger event and its row. -/
theorem finishJob_recorded : ∃ p r, Runs.run (executorStep executor) freshNode finishJob = some p ∧
    (p.threads[1]?.bind fun t => t.view.result) = some (⟨"job", member [2]⟩, r) ∧
    (∃ b ∈ p.shared.ledger.blocks, ∃ e ∈ b.events, e.event = .taskCompleted r.record) ∧
    ∃ task, task.taskId = "job" ∧ (task, member [2], r) ∈ p.shared.metadata.completedTasks := by
  have hfacts : ((Runs.run (Runs.guarded (executorStep executor) (recording executor)) freshNode
      finishJob).bind fun p => p.threads[1]?.bind fun t => t.view.result.map Prod.fst) =
        some ⟨"job", member [2]⟩ := by
    decide +kernel
  obtain ⟨p, hguarded, hp⟩ := Option.bind_eq_some_iff.mp hfacts
  obtain ⟨t, ht, hresult⟩ := Option.bind_eq_some_iff.mp hp
  obtain ⟨⟨c, r⟩, hr, rfl⟩ := Option.map_eq_some_iff.mp hresult
  obtain ⟨hmeets, hrun⟩ := Runs.run_guarded _ _ _ hguarded
  have hnone : ∀ id e, freshNode.shared.completed.lookup id = some e → e.task.taskId = id ∧
      Recorded freshNode.shared.books e := fun id e he => absurd he (by simp [freshNode])
  exact ⟨p, r, hrun, by rw [ht]; exact hr,
    result_recorded compact_lawful rfl hnone hmeets hrun 1 t _ r ht hr⟩

/-- The disk is full. -/
def failing (now : ℕ) : Env := { calm now with written := false }

/-- The first commit puts its result into `completed` and fails to append its block; the requester
sends the commit again. -/
def unrecordedJob : List (Threads.Act Request Env) :=
  offerUntil "job" 100 :: sections 0 1 6 ++
  commitTo "job" :: sections 1 2 5 ++ .advance 1 (failing 2) :: sections 1 2 1 ++
  commitTo "job" :: sections 2 3 1

/-- **The retry gets the result, although neither the ledger nor the metadata store has a trace of
it.** -/
theorem unrecordedJob_returned : (readings unrecordedJob).Pairwise (· ≤ ·) ∧
    (Runs.run (executorStep executor) freshNode unrecordedJob).map (fun p =>
      (returnedAt p, p.shared.ledger.blocks.length, p.shared.metadata.completedTasks.length)) =
        some ([("job", 2)], 0, 0) := by
  decide +kernel

end Peerless.Node
