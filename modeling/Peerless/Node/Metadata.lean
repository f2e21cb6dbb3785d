import Peerless.Lib.HashMap
import Peerless.Protocol

/-!
# The metadata store

The tables `tasks` and `events` of the node's database.  The JSON columns hold the values that were
written into them.
-/

namespace Peerless.Node

open HashMap Peerless.Core Protocol

inductive TaskState where
  | accepted
  | running
  | completed
  deriving DecidableEq

/-- A row of the table `tasks`; `columns` are `task_json`, `requester_json` and `result_json`, which
are only ever written together. -/
structure TaskRow where
  state : TaskState
  executor : Option NodeId
  updatedAt : ℕ
  columns : Option (Task × NodeId × SignedExecutionRecord)
  deriving DecidableEq

/-- A row of the table `events`. -/
structure EventRow where
  timestamp : ℕ
  kind : String
  details : String
  deriving DecidableEq

structure Metadata where
  tasks : Map String TaskRow
  events : List EventRow

def Metadata.event (m : Metadata) (timestamp : ℕ) (kind details : String) : Metadata :=
  { m with events := m.events ++ [⟨timestamp, kind, details⟩] }

/-- `Metadata::task`: an existing row keeps its three columns. -/
def Metadata.task (m : Metadata) (taskId : String) (state : TaskState) (executor : Option NodeId)
    (now : ℕ) : Metadata :=
  let row : TaskRow := ⟨state, executor, now, (m.tasks.lookup taskId).bind TaskRow.columns⟩
  { m with tasks := m.tasks.insert taskId row }

def Metadata.completedTask (m : Metadata) (task : Task) (requester : NodeId)
    (result : SignedExecutionRecord) (now : ℕ) : Metadata :=
  let row : TaskRow :=
    ⟨.completed, some result.record.executor, now, some (task, requester, result)⟩
  { m with tasks := m.tasks.insert task.taskId row }

/-- What `completed_tasks` selects of a row. -/
def TaskRow.replayable (row : TaskRow) : Option (Task × NodeId × SignedExecutionRecord) :=
  if row.state = .completed then row.columns else none

def Metadata.completedTasks (m : Metadata) : List (Task × NodeId × SignedExecutionRecord) :=
  (vals m.tasks).filterMap TaskRow.replayable

end Peerless.Node
