import Peerless.Compute
import Peerless.Lib.Threads
import Peerless.Node.LocalLedger
import Peerless.Node.Metadata
import Mathlib.Data.UInt

/-!
# The executor: offers, commits, cancellations

`accept_offer`, `execute`, `TaskCancel` and `capability` of a node, cut at their locks.  Requests
run in threads of their own; a thread is the program point it has reached (`Thread`), and `next`
takes it through one lock-guarded section, one metadata call or one stretch of local work.  What the
rest of the world answers at that moment (clock, storage, WebAssembly engine, file system) comes
with the step (`Env`), so the interleavings of `Lib.Threads` are all schedules under all answers.

A thread that has returned stays in the pool with its answer: the pool remembers every answer ever
given.
-/

namespace Peerless.Node

open Text JsonText HashMap Peerless.Core Identity Protocol Chain Compute

def hostMemoryReserve : ℕ := 1024 * 1024 * 1024

def maxConcurrentTasks : ℕ := 1

structure PendingTask where
  task : Task
  requester : NodeId
  leaseExpiresAt : ℕ
  running : Bool
  deriving DecidableEq

structure CompletedTask where
  task : Task
  requester : NodeId
  result : SignedExecutionRecord
  deriving DecidableEq

/-! ### The shared state and the environment -/

/-- The fields of `Inner` behind the executor. -/
structure Shared where
  pending : Map String PendingTask
  completed : Map String CompletedTask
  blocks : Dir
  ledger : Ledger
  metadata : Metadata

/-- What `sysinfo` reports. -/
structure SystemInfo where
  cpus : ℕ
  availableCpu : F64
  load : F64
  availableMemory : ℕ
  availableStorage : ℕ

/-- The WebAssembly modules: parsing the component and invoking its export `run` under a memory
limit. -/
structure Wasm where
  pureBytes : Bytes → Bytes → ℕ → Except String Bytes
  pureI32 : Bytes → UInt32 → ℕ → Except String UInt32

/-- The answers a step can meet: the readings of the clock in the order they are made, the content
store, the host, the WebAssembly engine, and whether a write to disk or database succeeds. -/
structure Env where
  now : ℕ
  later : ℕ
  hasComponent : Bool
  hasInput : Bool
  system : SystemInfo
  component : Option Bytes
  input : Option Bytes
  wasm : Wasm
  stored : Bool
  written : Bool

variable {P : Primitives}

/-! ### `capability` -/

/-- The test of the `retain` in `capability`. -/
def PendingTask.live (reservation : PendingTask) (observedAt : ℕ) : Bool :=
  reservation.running || (reservation.leaseExpiresAt > observedAt &&
    reservation.task.deadline.all fun deadline => deadline > observedAt)

/-- The memory the reservations hold. -/
def reservedMemory (pending : Map String PendingTask) : ℕ :=
  ((vals pending).filterMap fun reservation => taskMemoryLimit reservation.task).sum

/-- `capability`: drops dead reservations and reports what is left. -/
def Shared.capability (own : NodeIdentity P) (s : Shared) (observedAt : ℕ) (system : SystemInfo) :
    Shared × NodeCapability :=
  let pending := retain (fun _ reservation => reservation.live observedAt) s.pending
  ({ s with pending },
    { node := own.nodeId
      cpuCores := min system.cpus 65535
      availableCpu := system.availableCpu
      availableMemory := system.availableMemory - hostMemoryReserve - reservedMemory pending
      availableStorage := system.availableStorage
      runtimes := ["wasmtime-component-v1", "wasmtime-bytes-v1"]
      power := .unknown
      load := system.load
      taskSlots := min (maxConcurrentTasks - size pending) 65535
      expiresAt := observedAt + 30000 })

/-! ### `accept_offer` -/

structure Offer where
  task : Task
  requester : NodeId
  expiresAt : ℕ
  signer : NodeId
  deriving DecidableEq

def Offer.structurallyValid (o : Offer) (env : Env) : Bool :=
  o.task.taskId ≠ "" && o.requester = o.signer && o.expiresAt > env.now && env.hasComponent &&
    env.hasInput

/-- The answer for an id that is taken: the same task of the same requester is accepted again. -/
def Offer.answerTaken (o : Offer) (task : Task) (requester : NodeId) : Message :=
  if requester = o.requester ∧ task = o.task then .taskAccept o.task.taskId
  else .taskReject o.task.taskId "task id collision"

def Offer.reservation (o : Offer) : PendingTask := ⟨o.task, o.requester, o.expiresAt, false⟩

/-! ### `execute` -/

structure Commit where
  taskId : String
  signer : NodeId
  deriving DecidableEq

/-- A commit that has passed `running = true`, with its copy of the task. -/
structure Execution where
  taskId : String
  signer : NodeId
  task : Task
  deriving DecidableEq

def Execution.commit (x : Execution) : Commit := ⟨x.taskId, x.signer⟩

/-- The entry an execution puts into `completed`. -/
def Execution.entry (x : Execution) (result : SignedExecutionRecord) : CompletedTask :=
  ⟨x.task, x.signer, result⟩

/-- The test of a commit on its reservation: the lease is read first, then the deadline. -/
def PendingTask.expired (accepted : PendingTask) (env : Env) : Bool :=
  accepted.leaseExpiresAt ≤ env.now || accepted.task.deadline.any fun deadline => deadline ≤ env.later

def i32FromLe : Bytes → Option UInt32
  | [a, b, c, d] => some (a.toUInt32 + b.toUInt32 * 2 ^ 8 + c.toUInt32 * 2 ^ 16 + d.toUInt32 * 2 ^ 24)
  | _ => none

def i32ToLe (n : UInt32) : Bytes :=
  [n.toUInt8, (n / 2 ^ 8).toUInt8, (n / 2 ^ 16).toUInt8, (n / 2 ^ 24).toUInt8]

/-- The invocation of the component, by the runtime the task asks for. -/
def invoke (task : Task) (wasm : Wasm) (component raw : Bytes) (memoryLimit : ℕ) :
    Except NodeError Bytes :=
  if task.requirements.runtime = "wasmtime-bytes-v1" then
    (wasm.pureBytes component raw memoryLimit).mapError .wasm
  else
    match i32FromLe raw with
    | none => .error (.wasm "input must be one little-endian i32")
    | some input => ((wasm.pureI32 component input memoryLimit).map i32ToLe).mapError .wasm

/-- The record of a finished task. -/
def executionRecord (own : NodeIdentity P) (task : Task) (output : ContentId)
    (startedAt completedAt : ℕ) : ExecutionRecord where
  taskId := task.taskId
  executor := own.nodeId
  component := task.component
  input := task.input
  output := output
  executionHash := ContentId.of P
    (task.component.digest.bytes ++ task.input.digest.bytes ++ output.digest.bytes)
  startedAt := startedAt
  completedAt := completedAt

/-- The work of `execute` between its first metadata call and the `completed` map: load, run, store,
sign. -/
def runTask (own : NodeIdentity P) (task : Task) (env : Env) :
    Except NodeError SignedExecutionRecord :=
  match env.component, env.input with
  | some component, some raw =>
    match taskMemoryLimit task with
    | none => .error (.rejected "task memory limit is unsafe")
    | some memoryLimit =>
      match invoke task env.wasm component raw memoryLimit with
      | .error err => .error err
      | .ok outputBytes =>
        if env.stored then
          (SignedExecutionRecord.seal
            (executionRecord own task (ContentId.of P outputBytes) env.now env.later) own).mapError
              .protocol
        else .error .storage
  | _, _ => .error .storage

/-! ### Threads -/

inductive Request where
  | offer (o : Offer)
  | commit (c : Commit)
  | cancel (c : Commit)
  | capability

/-- Where a request is.  `produced` is the entry the request put into `completed`, if it got that
far; an `outcome` `.ok r` of a commit is the message `TaskResult(r)`. -/
inductive Thread where
  | offerCheck (o : Offer)
  | offerCompleted (o : Offer)
  | offerObserve (o : Offer)
  | offerReserve (o : Offer) (observedAt : ℕ) (capability : NodeCapability)
  | offerRow (o : Offer)
  | offerEvent (o : Offer)
  | commitCompleted (c : Commit)
  | commitPending (c : Commit)
  | commitRow (x : Execution)
  | commitRun (x : Execution)
  | commitInsert (x : Execution) (result : SignedExecutionRecord)
  | commitLedger (x : Execution) (result : SignedExecutionRecord)
  | commitCompletedRow (x : Execution) (result : SignedExecutionRecord)
  | commitEvent (x : Execution) (result : SignedExecutionRecord)
  | commitRemove (x : Execution) (produced : Option CompletedTask)
      (outcome : Except NodeError SignedExecutionRecord)
  | cancelPending (c : Commit)
  | capability
  | answered (answer : Except NodeError Message)
  | committed (c : Commit) (produced : Option CompletedTask)
      (outcome : Except NodeError SignedExecutionRecord)
  deriving DecidableEq

/-- The execution a thread is in: from `running = true` to the final removal. -/
def Thread.execution : Thread → Option Execution
  | .commitRow x => some x
  | .commitRun x => some x
  | .commitInsert x _ => some x
  | .commitLedger x _ => some x
  | .commitCompletedRow x _ => some x
  | .commitEvent x _ => some x
  | .commitRemove x _ _ => some x
  | _ => none

def Request.start : Request → Thread
  | .offer o => .offerCheck o
  | .commit c => .commitCompleted c
  | .cancel c => .cancelPending c
  | .capability => .capability

/-- A call on the metadata store: it happens and the thread goes on, or it fails. -/
def Shared.write (s : Shared) (env : Env) (call : Metadata → Metadata) (done failed : Thread) :
    Shared × Thread :=
  if env.written then ({ s with metadata := call s.metadata }, done) else (s, failed)

/-! #### Sections of an offer -/

def Offer.check (o : Offer) (env : Env) : Thread :=
  if o.structurallyValid env then .offerCompleted o
  else .answered (.ok (.taskReject o.task.taskId
    "invalid, expired, unauthorised, or content missing"))

def Offer.consultCompleted (o : Offer) (s : Shared) : Thread :=
  match s.completed.lookup o.task.taskId with
  | some existing => .answered (.ok (o.answerTaken existing.task existing.requester))
  | none => .offerObserve o

def Offer.reserve (o : Offer) (s : Shared) (observedAt : ℕ) (capability : NodeCapability) :
    Shared × Thread :=
  match s.pending.lookup o.task.taskId with
  | some existing => (s, .answered (.ok (o.answerTaken existing.task existing.requester)))
  | none =>
    if !eligible o.task capability observedAt || size s.pending ≥ maxConcurrentTasks then
      (s, .answered (.ok (.taskReject o.task.taskId
        "executor has no safe memory or task-slot capacity")))
    else ({ s with pending := s.pending.insert o.task.taskId o.reservation }, .offerRow o)

/-! #### Sections of a commit -/

def Commit.consultCompleted (c : Commit) (s : Shared) : Thread :=
  match s.completed.lookup c.taskId with
  | some completed =>
    if completed.requester ≠ c.signer then
      .committed c none (.error (.rejected "commit signer is not the requester"))
    else .committed c none (.ok completed.result)
  | none => .commitPending c

def Commit.begin (c : Commit) (s : Shared) (env : Env) : Shared × Thread :=
  match s.pending.lookup c.taskId with
  | none => (s, .committed c none (.error .unexpectedResponse))
  | some accepted =>
    if accepted.requester ≠ c.signer then
      (s, .committed c none (.error (.rejected "commit signer is not the requester")))
    else if accepted.expired env then
      ({ s with pending := s.pending.erase c.taskId },
        .committed c none (.error (.rejected "task lease or deadline expired")))
    else if accepted.running then
      (s, .committed c none (.error (.rejected "task is already running")))
    else
      ({ s with pending := s.pending.insert c.taskId { accepted with running := true } },
        .commitRow ⟨c.taskId, c.signer, accepted.task⟩)

def Execution.work (x : Execution) (own : NodeIdentity P) (env : Env) : Thread :=
  match runTask own x.task env with
  | .error err => .commitRemove x none (.error err)
  | .ok result => .commitInsert x result

def Execution.record (x : Execution) (own : NodeIdentity P) (s : Shared) (env : Env)
    (result : SignedExecutionRecord) : Shared × Thread :=
  match appendLedgerEvent own s.blocks s.ledger (.taskCompleted result.record) env.now
      env.written with
  | .error err => (s, .commitRemove x (some (x.entry result)) (.error (.ledger err)))
  | .ok (blocks, ledger) => ({ s with blocks, ledger }, .commitCompletedRow x result)

/-- `TaskCancel`. -/
def Commit.cancel (c : Commit) (s : Shared) : Shared × Message :=
  match s.pending.lookup c.taskId with
  | some task =>
    if task.requester = c.signer ∧ !task.running then
      ({ s with pending := s.pending.erase c.taskId }, .taskError c.taskId "cancelled")
    else if task.requester = c.signer then (s, .taskError c.taskId "task is already running")
    else (s, .taskError c.taskId "not found or not requester")
  | none => (s, .taskError c.taskId "not found or not requester")

/-- The next section of a thread; a thread that has returned has none. -/
def next (own : NodeIdentity P) (env : Env) (s : Shared) : Thread → Option (Shared × Thread)
  | .offerCheck o => some (s, o.check env)
  | .offerCompleted o => some (s, o.consultCompleted s)
  | .offerObserve o =>
    let (s, capability) := s.capability own env.later env.system
    some (s, .offerReserve o env.now capability)
  | .offerReserve o observedAt capability => some (o.reserve s observedAt capability)
  | .offerRow o =>
    some (s.write env (·.task o.task.taskId .accepted (some own.nodeId) env.now) (.offerEvent o)
      (.answered (.error .metadata)))
  | .offerEvent o =>
    some (s.write env (·.event env.now "task.accepted" o.task.taskId)
      (.answered (.ok (.taskAccept o.task.taskId))) (.answered (.error .metadata)))
  | .commitCompleted c => some (s, c.consultCompleted s)
  | .commitPending c => some (c.begin s env)
  | .commitRow x =>
    some (s.write env (·.task x.taskId .running (some own.nodeId) env.now) (.commitRun x)
      (.commitRemove x none (.error .metadata)))
  | .commitRun x => some (s, x.work own env)
  | .commitInsert x result =>
    some ({ s with completed := s.completed.insert x.taskId (x.entry result) },
      .commitLedger x result)
  | .commitLedger x result => some (x.record own s env result)
  | .commitCompletedRow x result =>
    some (s.write env (·.completedTask x.task x.signer result env.now) (.commitEvent x result)
      (.commitRemove x (some (x.entry result)) (.error .metadata)))
  | .commitEvent x result =>
    some (s.write env (·.event env.now "task.completed" x.taskId)
      (.commitRemove x (some (x.entry result)) (.ok result))
      (.commitRemove x (some (x.entry result)) (.error .metadata)))
  | .commitRemove x produced outcome =>
    some ({ s with pending := s.pending.erase x.taskId }, .committed x.commit produced outcome)
  | .cancelPending c =>
    let (s, message) := c.cancel s
    some (s, .answered (.ok message))
  | .capability =>
    let (s, capability) := s.capability own env.now env.system
    some (s, .answered (.ok (.capability capability)))
  | .answered _ => none
  | .committed _ _ _ => none

/-- The executor's pool of requests, and its steps. -/
abbrev Executor := Threads.Pool Shared Thread

def executorStep (own : NodeIdentity P) : Executor → Threads.Act Request Env → Option Executor :=
  Threads.step Request.start (next own)

end Peerless.Node
