import Peerless.Node.Executor
import Peerless.Sample

/-!
# Reservations of running executions

The `pending` map under all interleavings of offers, commits, cancellations and `capability`.  What
a section can do to the map is said once (`Reserves`); every section but one keeps the entries of
running executions.  The exception is a commit that finds its reservation expired: it removes the
entry whether or not an execution is running on it (`sparesRunning` rules this out).

* `running_reserved` — in every run whose expired commits meet no running execution,
  every execution has its own entry, no more than `MAX_CONCURRENT_TASKS` run at once, and
  `capability` subtracts the memory of all of them.
-/

namespace Peerless.Node

open Text HashMap Peerless.Core Identity Protocol Chain Compute Sample

variable {P : Primitives} {own : NodeIdentity P}

/-! ### What a section does to the reservations -/

/-- The reservations and the thread's execution, before and after a section. -/
inductive Reserves : Map String PendingTask → Option Execution → Map String PendingTask →
    Option Execution → Prop
  | keep (m x) : Reserves m x m x
  | prune (m) (keep : String → PendingTask → Bool)
      (h : ∀ id v, v.running = true → keep id v = true) : Reserves m none (retain keep m) none
  | reserve (m) (id : String) (v : PendingTask) (hnew : m.lookup id = none)
      (hroom : size m < maxConcurrentTasks) (hid : v.task.taskId = id) :
      Reserves m none (m.insert id v) none
  | release (m) (id : String) (h : ∀ v, m.lookup id = some v → v.running = false) :
      Reserves m none (m.erase id) none
  | start (m) (x : Execution) (v : PendingTask) (h : m.lookup x.taskId = some v)
      (hidle : v.running = false) (htask : v.task = x.task) (howner : v.requester = x.signer) :
      Reserves m none (m.insert x.taskId { v with running := true }) (some x)
  | finish (m) (x : Execution) : Reserves m (some x) (m.erase x.taskId) none

/-- A commit that finds its reservation expired finds no execution running on it. -/
def sparesRunning (env : Env) (s : Shared) : Thread → Bool
  | .commitPending c => (s.pending.lookup c.taskId).all fun accepted =>
      !(accepted.requester = c.signer && accepted.expired env && accepted.running)
  | _ => true

theorem capability_reserves (own : NodeIdentity P) (s : Shared) (observedAt : ℕ)
    (system : SystemInfo) :
    Reserves s.pending none (s.capability own observedAt system).1.pending none := by
  refine .prune s.pending (fun _ reservation => reservation.live observedAt) ?_
  intro id v hrunning
  simp [PendingTask.live, hrunning]

theorem reserve_reserves (o : Offer) (s : Shared) (observedAt : ℕ) (capability : NodeCapability) :
    Reserves s.pending none (o.reserve s observedAt capability).1.pending
      (o.reserve s observedAt capability).2.execution := by
  unfold Offer.reserve
  split
  · exact .keep _ _
  · rename_i hnew
    split
    · exact .keep _ _
    · rename_i hroom
      have hsize : size s.pending < maxConcurrentTasks := by
        by_contra hfull
        exact hroom (by simp [not_lt.mp hfull])
      exact .reserve _ _ _ hnew hsize rfl

variable {s : Shared}

theorem begin_reserves (c : Commit) {env : Env} (hspare : sparesRunning env s (.commitPending c) = true) :
    Reserves s.pending none (c.begin s env).1.pending (c.begin s env).2.execution := by
  unfold Commit.begin
  split
  · exact .keep _ _
  · rename_i accepted hlookup
    split
    · exact .keep _ _
    · rename_i hrequester
      have howner : accepted.requester = c.signer := not_not.mp hrequester
      split
      · rename_i hexpired
        refine .release _ _ ?_
        intro v hv
        obtain rfl : accepted = v := Option.some.inj (hlookup.symm.trans hv)
        simpa [sparesRunning, hlookup, howner, hexpired] using hspare
      · split
        · exact .keep _ _
        · rename_i hidle
          exact .start _ ⟨c.taskId, c.signer, accepted.task⟩ accepted hlookup
            (Bool.eq_false_iff.mpr hidle) rfl howner

theorem cancel_reserves (c : Commit) (s : Shared) :
    Reserves s.pending none (c.cancel s).1.pending none := by
  unfold Commit.cancel
  split
  · rename_i task hlookup
    split
    · rename_i hcancel
      refine .release _ _ ?_
      intro v hv
      obtain rfl : task = v := Option.some.inj (hlookup.symm.trans hv)
      simpa using hcancel.2
    · split
      · exact .keep _ _
      · exact .keep _ _
  · exact .keep _ _

/-- **The sections of the code.**  Only a commit with an expired reservation has to be watched. -/
theorem next_reserves {env : Env} {t : Thread} {r : Shared × Thread}
    (hspare : sparesRunning env s t = true) (h : next own env s t = some r) :
    Reserves s.pending t.execution r.1.pending r.2.execution := by
  cases t with
  | offerObserve o =>
    cases h
    exact capability_reserves own s env.later env.system
  | offerReserve o observedAt capability =>
    cases h
    exact reserve_reserves o s observedAt capability
  | commitPending c =>
    cases h
    exact begin_reserves c hspare
  | commitRemove x produced outcome =>
    cases h
    exact .finish _ x
  | cancelPending c =>
    cases h
    exact cancel_reserves c s
  | capability =>
    cases h
    exact capability_reserves own s env.now env.system
  | answered answer => exact absurd h (by simp [next])
  | committed c produced outcome => exact absurd h (by simp [next])
  | _ =>
    -- the other sections do not take the lock of `pending`
    cases h
    simp only [Offer.check, Offer.consultCompleted, Shared.write, Commit.consultCompleted,
      Execution.work, Execution.record]
    repeat' split
    all_goals exact .keep _ _

/-! ### The invariant -/

/-- The entry of an execution: running, for its task and its requester. -/
def Reserved (m : Map String PendingTask) (x : Execution) : Prop :=
  ∃ v, m.lookup x.taskId = some v ∧ v.running = true ∧ v.task = x.task ∧ v.requester = x.signer

/-- The map never has more entries than slots, and files every task under its own id. -/
structure Bounded (m : Map String PendingTask) : Prop where
  slots : size m ≤ maxConcurrentTasks
  keyed : ∀ id v, m.lookup id = some v → v.task.taskId = id

def Holds (s : Shared) (t : Thread) : Prop := ∀ x, t.execution = some x → Reserved s.pending x

/-- Two threads execute different tasks. -/
def Apart (t u : Thread) : Prop :=
  ∀ x y, t.execution = some x → u.execution = some y → x.taskId ≠ y.taskId

/-- Every execution of the pool holds its reservation. -/
abbrev Held : Executor → Prop := Threads.Inv (fun s => Bounded s.pending) Holds Apart

section Effect

variable {m m' : Map String PendingTask} {x x' : Option Execution}

theorem Reserves.bounded (h : Reserves m x m' x') (hb : Bounded m) : Bounded m' := by
  cases h with
  | keep => exact hb
  | prune keep _ =>
    exact ⟨(size_retain_le keep m).trans hb.slots, fun id v hv => hb.keyed id v (lookup_of_retain hv).1⟩
  | reserve id v hnew hroom hid =>
    refine ⟨?_, ?_⟩
    · rw [size_insert_of_none v hnew]
      exact hroom
    · intro id' v' hv'
      by_cases hne : id' = id
      · subst hne
        rw [AList.lookup_insert] at hv'
        rw [← Option.some.inj hv', hid]
      · rw [AList.lookup_insert_ne hne] at hv'
        exact hb.keyed id' v' hv'
  | release id _ =>
    refine ⟨(size_erase_le id m).trans hb.slots, fun id' v' hv' => hb.keyed id' v' ?_⟩
    exact lookup_of_erase hv'
  | start y v hv _ _ _ =>
    refine ⟨?_, ?_⟩
    · rw [size_insert_of_some _ hv]
      exact hb.slots
    · intro id' v' hv'
      by_cases hne : id' = y.taskId
      · subst hne
        rw [AList.lookup_insert] at hv'
        rw [← Option.some.inj hv']
        exact hb.keyed _ v hv
      · rw [AList.lookup_insert_ne hne] at hv'
        exact hb.keyed id' v' hv'
  | finish y =>
    refine ⟨(size_erase_le y.taskId m).trans hb.slots, fun id' v' hv' => hb.keyed id' v' ?_⟩
    exact lookup_of_erase hv'

/-- The entry of another running execution survives. -/
theorem Reserves.keeps (h : Reserves m x m' x') {y : Execution} (hy : Reserved m y)
    (hne : ∀ z, x = some z → z.taskId ≠ y.taskId) : Reserved m' y := by
  obtain ⟨w, hw, hrunning, hfields⟩ := hy
  -- the entry is running, so an operation on an idle entry is on another key
  have hother : ∀ id v, m.lookup id = some v → v.running = false → y.taskId ≠ id := by
    rintro id v hv hidle rfl
    obtain rfl : w = v := Option.some.inj (hw.symm.trans hv)
    rw [hrunning] at hidle
    cases hidle
  refine ⟨w, ?_, hrunning, hfields⟩
  cases h with
  | keep => exact hw
  | prune keep hkeep => exact lookup_retain_of_pos hw (hkeep _ w hrunning)
  | reserve id v hnew _ _ =>
    have hid : y.taskId ≠ id := by
      rintro rfl
      rw [hnew] at hw
      cases hw
    rw [AList.lookup_insert_ne hid, hw]
  | release id hidle =>
    have hid : y.taskId ≠ id := by
      rintro rfl
      exact hother y.taskId w hw (hidle w hw) rfl
    rw [AList.lookup_erase_ne hid, hw]
  | start z v hv hidle _ _ => rw [AList.lookup_insert_ne (hother _ v hv hidle), hw]
  | finish z => rw [AList.lookup_erase_ne (Ne.symm (hne z rfl)), hw]

/-- The thread's own execution has its entry after the section. -/
theorem Reserves.holds (h : Reserves m x m' x') (hx : ∀ y, x = some y → Reserved m y) :
    ∀ y, x' = some y → Reserved m' y := by
  intro y hy
  cases h with
  | keep => exact hx y hy
  | prune => cases hy
  | reserve => cases hy
  | release => cases hy
  | start z v hv _ htask howner =>
    cases hy
    exact ⟨_, AList.lookup_insert m, rfl, htask, howner⟩
  | finish => cases hy

/-- An execution that starts is not one of those running. -/
theorem Reserves.apart (h : Reserves m x m' x') {z : Execution} (hz : Reserved m z)
    (hne : ∀ y, x = some y → y.taskId ≠ z.taskId) : ∀ y, x' = some y → y.taskId ≠ z.taskId := by
  intro y hy
  cases h with
  | keep => exact hne y hy
  | prune => cases hy
  | reserve => cases hy
  | release => cases hy
  | start w v hv hidle _ _ =>
    cases hy
    intro he
    obtain ⟨u, hu, hrunning, _⟩ := hz
    rw [← he, hv] at hu
    rw [← Option.some.inj hu, hidle] at hrunning
    cases hrunning
  | finish => cases hy

end Effect

/-! ### Runs -/

/-- A step of the pool in which an expired commit meets no running execution. -/
def Spares (p : Executor) (a : Threads.Act Request Env) : Prop :=
  Threads.locally sparesRunning p a = true

variable {p : Executor}

/-- **One section keeps every running execution's reservation.** -/
theorem held_step {p' : Executor} {a : Threads.Act Request Env} (hp : Held p) (hok : Spares p a)
    (hstep : executorStep own p a = some p') : Held p' := by
  refine Threads.inv_step Spares ?_ ?_ ?_ ?_ hp hok hstep
  · intro t u h x y hx hy he
    exact h y x hy hx he.symm
  · intro s request _ x hx
    cases request <;> exact absurd hx (by simp [Request.start, Thread.execution])
  · intro request u x y hx
    cases request <;> exact absurd hx (by simp [Request.start, Thread.execution])
  · intro p i env t s' t' hp hok ht hnext
    have heff := next_reserves (Threads.ok_of_locally hok ht) hnext
    refine ⟨heff.bounded hp.shared, heff.holds (hp.each i t ht), ?_⟩
    intro j u hji hu
    have hapart := hp.apart i j t u (Ne.symm hji) ht hu
    refine ⟨?_, ?_⟩
    · intro y hy
      exact heff.keeps (hp.each j u hu y hy) fun z hz => hapart z y hz hy
    · intro x y hx hy
      exact heff.apart (hp.each j u hu y hy) (fun z hz => hapart z y hz hy) x hx

theorem held_start (h : s.pending = ∅) : Held ⟨s, []⟩ := by
  refine Threads.inv_nil ⟨?_, ?_⟩
  · rw [h]
    exact Nat.zero_le _
  · intro id v hv
    rw [h, AList.lookup_empty] at hv
    cases hv

/-- The executions of a pool, and the memory they were promised. -/
def executions (p : Executor) : List Execution := p.threads.filterMap Thread.execution

def runningMemory (p : Executor) : ℕ :=
  ((executions p).filterMap fun x => taskMemoryLimit x.task).sum

theorem mem_executions {x : Execution} (h : x ∈ executions p) :
    ∃ (i : ℕ) (t : Thread), p.threads[i]? = some t ∧ t.execution = some x := by
  obtain ⟨t, ht, hx⟩ := List.mem_filterMap.mp h
  obtain ⟨i, hi⟩ := List.mem_iff_getElem?.mp ht
  exact ⟨i, t, hi, hx⟩

theorem Held.reserved (h : Held p) {x : Execution} (hx : x ∈ executions p) :
    Reserved p.shared.pending x := by
  obtain ⟨i, t, ht, hex⟩ := mem_executions hx
  exact h.each i t ht x hex

theorem Held.nodup (h : Held p) : ((executions p).map Execution.taskId).Nodup := by
  rw [executions, List.map_filterMap]
  refine Threads.nodup_filterMap ?_
  intro i j t u hij ht hu id hid hid'
  obtain ⟨x, hx, rfl⟩ := Option.map_eq_some_iff.mp hid
  obtain ⟨y, hy, he⟩ := Option.map_eq_some_iff.mp hid'
  exact h.apart i j t u hij ht hu x y hx hy he.symm

theorem Held.length_le (h : Held p) : (executions p).length ≤ maxConcurrentTasks := by
  have hle : ((executions p).map Execution.taskId).length ≤ size p.shared.pending := by
    refine length_le_size h.nodup ?_
    intro id hid
    obtain ⟨x, hx, rfl⟩ := List.mem_map.mp hid
    obtain ⟨v, hv, _⟩ := h.reserved hx
    rw [hv]
    rfl
  rw [List.length_map] at hle
  exact hle.trans h.shared.slots

/-- What `capability` counts as reserved covers every running execution, after its `retain` too. -/
theorem Held.memory_le (h : Held p) (own : NodeIdentity P) (observedAt : ℕ) (system : SystemInfo) :
    runningMemory p ≤ reservedMemory (p.shared.capability own observedAt system).1.pending := by
  refine sum_le_vals (executions p) _ h.nodup ?_
  intro x hx
  obtain ⟨v, hv, hrunning, htask, _⟩ := h.reserved hx
  refine ⟨v, lookup_retain_of_pos hv ?_, ?_⟩
  · simp [PendingTask.live, hrunning]
  · rw [htask]

/-- **Every running execution holds a reservation.**  In every interleaving of offers, commits,
cancellations and `capability` calls, with any readings of the clock, in which no commit finds its
reservation expired while an execution is running on it: every execution between `running = true`
and its final removal has its own entry in `pending`, at most `MAX_CONCURRENT_TASKS` executions run
at once, and `capability` subtracts the memory of all of them. -/
theorem running_reserved {s : Shared} (hempty : s.pending = ∅)
    {acts : List (Threads.Act Request Env)} {p : Executor}
    (hmeets : Runs.Meets (executorStep own) Spares ⟨s, []⟩ acts)
    (hrun : Runs.run (executorStep own) ⟨s, []⟩ acts = some p) :
    (∀ x ∈ executions p, ∃ v, p.shared.pending.lookup x.taskId = some v ∧ v.running = true ∧
      v.task = x.task ∧ v.requester = x.signer) ∧
    ((executions p).map Execution.taskId).Nodup ∧
    (executions p).length ≤ maxConcurrentTasks ∧
    ∀ observedAt system, (p.shared.capability own observedAt system).2.availableMemory ≤
      system.availableMemory - hostMemoryReserve - runningMemory p := by
  have hheld : Held p :=
    Runs.run_invariant (fun _ _ _ => held_step) acts _ p (held_start hempty) hmeets hrun
  refine ⟨fun x hx => hheld.reserved hx, hheld.nodup, hheld.length_le, ?_⟩
  intro observedAt system
  exact Nat.sub_le_sub_left (hheld.memory_le own observedAt system) _

/-! ### A retry after the lease -/

/-- The sample executor. -/
def executor : NodeIdentity compact := NodeIdentity.ofKeypair ([1] : Bytes)

/-- A task of the sample requester `[2]` that returns its input. -/
def sampleTask (id : String) : Task where
  taskId := id
  component := ⟨lowBytes 1⟩
  input := ⟨lowBytes 2⟩
  requirements := ⟨0, 0, "wasmtime-bytes-v1", 0, .none⟩
  verification := .trustExecutor
  deadline := none

/-- An idle host, a complete content store and working disks at a moment. -/
def calm (now : ℕ) : Env where
  now := now
  later := now
  hasComponent := true
  hasInput := true
  system := ⟨4, ⟨0x3FF0000000000000⟩, ⟨0⟩, 2 * hostMemoryReserve, 0⟩
  component := some []
  input := some [7]
  wasm := ⟨fun _ raw _ => .ok raw, fun _ n _ => .ok n⟩
  stored := true
  written := true

/-- A node that has just started. -/
def freshNode : Executor := ⟨⟨∅, ∅, [], ⟨[]⟩, ⟨∅, []⟩⟩, []⟩

def offerUntil (id : String) (expiresAt : ℕ) : Threads.Act Request Env :=
  .arrive (.offer ⟨sampleTask id, member [2], expiresAt, member [2]⟩)

def commitTo (id : String) : Threads.Act Request Env := .arrive (.commit ⟨id, member [2]⟩)

/-- A number of sections of one thread at one moment. -/
def sections (i now n : ℕ) : List (Threads.Act Request Env) :=
  List.replicate n (.advance i (calm now))

/-- The clock along a schedule. -/
def readings (acts : List (Threads.Act Request Env)) : List ℕ :=
  acts.flatMap fun
    | .arrive _ => []
    | .advance _ env => [env.now, env.later]

/-- An offer until time 10 and a commit of it that starts at time 2. -/
def startJob : List (Threads.Act Request Env) :=
  offerUntil "job" 10 :: sections 0 1 6 ++ commitTo "job" :: sections 1 2 2

/-- The started execution is the only one, and it is reserved. -/
theorem startJob_reserved : ∃ p, Runs.run (executorStep executor) freshNode startJob = some p ∧
    (executions p).length = 1 ∧ (executions p).length ≤ maxConcurrentTasks := by
  have hfacts : (Runs.run (Runs.guarded (executorStep executor) (Threads.locally sparesRunning))
      freshNode startJob).map (fun p => (executions p).length) = some 1 := by
    decide +kernel
  obtain ⟨p, hguarded, hlen⟩ := Option.map_eq_some_iff.mp hfacts
  obtain ⟨hmeets, hrun⟩ := Runs.run_guarded _ _ _ hguarded
  exact ⟨p, hrun, hlen, (running_reserved rfl hmeets hrun).2.2.1⟩

/-- The commit is sent again at time 20, then another task is offered and committed. -/
def retryJob : List (Threads.Act Request Env) :=
  startJob ++ commitTo "job" :: sections 2 20 2 ++
    offerUntil "other" 100 :: sections 3 21 6 ++ commitTo "other" :: sections 4 22 2

/-- **A retry after the lease removes the reservation of the execution that is still running**, and
a second execution starts beside it. -/
theorem retryJob_two_running : (readings retryJob).Pairwise (· ≤ ·) ∧
    (Runs.run (executorStep executor) freshNode retryJob).map (fun p =>
      ((executions p).map Execution.taskId, (p.shared.pending.lookup "job").isSome)) =
        some (["job", "other"], false) := by
  decide +kernel

end Peerless.Node
