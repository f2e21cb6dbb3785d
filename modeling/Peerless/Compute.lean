import Peerless.Lib.HashMap
import Peerless.Protocol

/-!
# Eligibility of an executor and agreement of outputs

The memory budget of a task, the test a node's capability must pass before a task is placed on it, and
the test that the outputs of several executions agree.
-/

namespace Peerless.Compute

open HashMap Peerless.Core Protocol

def defaultTaskMemoryLimit : ℕ := 64 * 1024 * 1024

def maxTaskMemoryLimit : ℕ := 512 * 1024 * 1024

/-- `task_memory_limit`: the declared requirement is also the enforced budget. -/
def taskMemoryLimit (task : Task) : Option ℕ :=
  let limit := max task.requirements.minimumMemory defaultTaskMemoryLimit
  if limit ≤ maxTaskMemoryLimit then some limit else none

def eligible (task : Task) (node : NodeCapability) (now : ℕ) : Bool :=
  node.isFreshAt now && node.availableCpu.inHalfOpenUnit && node.load.inUnit &&
    (taskMemoryLimit task).any (fun limit => node.availableMemory ≥ limit) &&
    node.availableStorage ≥ task.requirements.minimumStorage &&
    node.supports task.requirements.runtime && node.taskSlots > 0 &&
    task.deadline.all (fun deadline => deadline > now)

/-! ### Agreement of outputs -/

inductive VerificationError where
  | insufficientExecutions
  | noAgreement
  deriving DecidableEq

/-- The texts of the errors. -/
def VerificationError.text : VerificationError → String
  | .insufficientExecutions => "not enough executions to satisfy verification policy"
  | .noAgreement => "execution outputs did not satisfy verification policy"

/-- How often each output occurs. -/
def countOutputs (outputs : List ContentId) : Map ContentId ℕ :=
  outputs.foldl (fun counts output => counts.insert output ((counts.lookup output).getD 0 + 1)) ∅

/-- `Iterator::max_by_key`: the last of the largest. -/
def maxByKey {α : Type} (key : α → ℕ) (l : List α) : Option α :=
  l.foldl (fun best a => best.elim (some a) fun b => if key b ≤ key a then some a else some b) none

/-- An iteration order of a hash map of counts. -/
abbrev CountOrder := List (Sigma fun _ : ContentId => ℕ) → List (Sigma fun _ : ContentId => ℕ)

def verifyOutputs (order : CountOrder) (policy : VerificationPolicy) (outputs : List ContentId) :
    Except VerificationError ContentId :=
  match policy with
  | .trustExecutor =>
    match outputs with
    | [] => .error .insufficientExecutions
    | first :: _ => .ok first
  | .replicate required =>
    if required = 0 ∨ outputs.length < required then .error .insufficientExecutions
    else
      match outputs with
      -- excluded by the test before
      | [] => .error .insufficientExecutions
      | first :: _ =>
        if (outputs.take required).all (· = first) then .ok first else .error .noAgreement
  | .quorum executions requiredMatches =>
    if executions = 0 ∨ requiredMatches = 0 ∨ requiredMatches > executions ∨
        outputs.length < executions then .error .insufficientExecutions
    else
      let counts := order (countOutputs (outputs.take executions)).entries
      match maxByKey Sigma.snd (counts.filter fun e => e.2 ≥ requiredMatches) with
      | none => .error .noAgreement
      | some e => .ok e.1

end Peerless.Compute
