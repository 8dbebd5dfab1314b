import Mathlib.Data.List.Sort
import Mathlib.Tactic.Common

/-!
# Plans

A plan runs `process` over the partitions of its tasks and reduces the partials with `combine`,
starting from `empty`. Under a budget of failed chunks it is wrapped: a chunk that raises becomes an
empty partial that carries its failure, and a merge that holds too many failures raises.
-/

namespace Graphed

/-! ### Partitions and tasks -/

structure Partition where
  uri : String
  tree : String
  entryStart : Int
  entryStop : Int
  blindStep : Option Int
  blindNSteps : Option Int
  blindLimit : Option Int
deriving DecidableEq

namespace Partition

def isBlind (p : Partition) : Bool := p.blindStep.isSome && p.blindLimit.isNone

def nEntries (p : Partition) : Int := max 0 (p.entryStop - p.entryStart)

end Partition

structure Task where
  key : Int
  partition : Partition
deriving DecidableEq

/-- How an optional number prints. -/
def optionText : Option Int → String
  | none => "None"
  | some n => toString n

def partitionLabel (p : Partition) : String :=
  match p.blindStep with
  | some step =>
      p.uri ++ ":" ++ p.tree ++ ":" ++ toString step ++ "/" ++ optionText p.blindNSteps
  | none =>
      p.uri ++ ":" ++ p.tree ++ ":" ++ toString p.entryStart ++ "-" ++ toString p.entryStop

/-- The tree's name: no slashes at its ends, no cycle. -/
def treeName (tree : String) : String :=
  let stripped := (tree.toList.dropWhile (· == '/')).reverse.dropWhile (· == '/')
  String.ofList (stripped.reverse.takeWhile (· != ';'))

/-- The label the driver knows a chunk by. A capped blind step is not blind, so its label has its
unresolved range and not its step. -/
def chunkLabel (p : Partition) : String :=
  let tree := treeName p.tree
  let name := if tree = "" then p.uri else p.uri ++ ":" ++ tree
  match p.isBlind, p.blindStep with
  | true, some step =>
      "chunk " ++ toString (step + 1) ++ "/" ++ optionText p.blindNSteps ++ " of " ++ name
  | _, _ =>
      name ++ " (entries " ++ toString p.entryStart ++ "-" ++ toString p.entryStop ++ ")"

/-! ### What is raised -/

structure StackFrame where
  filename : String
  lineno : Int
  source : String
deriving DecidableEq

/-- What a stage error carries besides its message. -/
structure StageDetail where
  op : String
  causeType : String
  causeMessage : String
  frames : List StackFrame
deriving DecidableEq

/-- An error: its type, its message, its stage, and the chunk a lost worker held. -/
structure PyError where
  typeName : String
  message : String
  stage : Option StageDetail
  partition : Option String
deriving DecidableEq

structure StageRecord where
  op : String
  causeType : String
  causeMessage : String
  userFile : String
  userLine : Int
  userSource : String
deriving DecidableEq

/-- A dead-letter descriptor. -/
structure DeadLetter where
  taskId : String
  uri : String
  tree : String
  entryStart : Int
  entryStop : Int
  errorType : String
  errorMessage : String
  stageError : Option StageRecord
deriving DecidableEq

/-- A chunk a run went on without. -/
structure FailedChunk where
  partition : String
  error : String
  record : DeadLetter
deriving DecidableEq

/-- What a call raises. An interrupt or exit is no `Exception`. -/
inductive Raised where
  | exception (e : PyError)
  | tooManyFailedChunks (failed : List FailedChunk)
  | interrupt
deriving DecidableEq

/-- A number and a noun, plural unless the number is one. -/
def counted (n : Nat) (noun : String) : String :=
  toString n ++ " " ++ noun ++ if n = 1 then "" else "s"

namespace Raised

def isException : Raised → Bool
  | interrupt => false
  | _ => true

def typeName : Raised → String
  | exception e => e.typeName
  | tooManyFailedChunks _ => "TooManyFailedChunksError"
  | interrupt => "KeyboardInterrupt"

def message : Raised → String
  | exception e => e.message
  | tooManyFailedChunks failed =>
      counted failed.length "chunk" ++ " failed:" ++
        String.join (failed.map fun f => "\n  " ++ f.partition ++ ": " ++ f.error)
  | interrupt => ""

def stage : Raised → Option StageDetail
  | exception e => e.stage
  | _ => none

/-- The chunk a lost worker's error names, empty for any other error. -/
def partition : Raised → String
  | exception e => e.partition.getD ""
  | _ => ""

/-- How an event or a failed chunk shows an error. -/
def text (e : Raised) : String := e.typeName ++ ": " ++ e.message

end Raised

def valueError (message : String) : Raised := .exception ⟨"ValueError", message, none, none⟩

def typeError (message : String) : Raised := .exception ⟨"TypeError", message, none, none⟩

def indexError : Raised := .exception ⟨"IndexError", "list index out of range", none, none⟩

def StageDetail.record (d : StageDetail) : StageRecord where
  op := d.op
  causeType := d.causeType
  causeMessage := d.causeMessage
  userFile := (d.frames.head?.map (·.filename)).getD ""
  userLine := (d.frames.head?.map (·.lineno)).getD 0
  userSource := (d.frames.head?.map (·.source)).getD ""

def deadLetterDescriptor (taskId : String) (p : Partition) (e : Raised) : DeadLetter where
  taskId := taskId
  uri := p.uri
  tree := p.tree
  entryStart := p.entryStart
  entryStop := p.entryStop
  errorType := e.typeName
  errorMessage := e.message
  stageError := e.stage.map StageDetail.record

def failedChunk (label : String) (p : Partition) (e : Raised) : FailedChunk :=
  ⟨label, e.text, deadLetterDescriptor label p e⟩

/-- The failures sorted by label. -/
def byLabel (failed : List FailedChunk) : List FailedChunk :=
  failed.insertionSort fun a b => a.partition ≤ b.partition

/-! ### Plans -/

structure StopCondition where
  maxErrors : Option Int

/-- A plan whose partials are `V` and whose value is `R`. `bound` is what checking that its services
have endpoints answers. -/
structure Plan (V R : Type) where
  process : Partition → Except Raised V
  combine : V → V → Except Raised V
  empty : Except Raised V
  tasks : List Task
  hasNextTasks : Bool
  stop : Option StopCondition
  bound : Except Raised Unit
  finalize : Option (R → Except Raised R)

/-- The tasks in key order. -/
def Plan.ordered {V R : Type} (plan : Plan V R) : List Task :=
  plan.tasks.insertionSort fun a b => a.key ≤ b.key

inductive StopReason where
  | exhausted
  | targetEvents
  | precision
  | wallClock
  | errorBudget
  | cancelled
deriving DecidableEq

structure ExecResult (V : Type) where
  value : V
  nPartitions : Nat
  nCombines : Nat
  stopped : Option StopReason
  failed : List FailedChunk

/-- A partial with the failures of the chunks it leaves out. -/
structure Partial (R : Type) where
  value : R
  failed : List FailedChunk

/-- Partials that hold a value and the failures it leaves out; a plain partial holds none. -/
class Partials (V : Type) (R : outParam Type) where
  value : V → R
  failed : V → List FailedChunk

instance {R : Type} : Partials (Partial R) R := ⟨Partial.value, Partial.failed⟩

/-- A plain value as a partial. -/
structure Plain (R : Type) where
  value : R

instance {R : Type} : Partials (Plain R) R := ⟨Plain.value, fun _ => []⟩

variable {R : Type}

/-- A plan going on past failed chunks: its budget, and by label the chunks lost with a worker. -/
structure SkipPlan (R : Type) where
  base : Plan (Plain R) R
  budget : Int
  lost : List (String × FailedChunk)
  positive : 0 < budget
  named : ∀ entry ∈ lost, ∃ p e, entry = (chunkLabel p, failedChunk (chunkLabel p) p e)
  distinct : (lost.map Prod.fst).Nodup
  within : lost.length ≤ budget

namespace SkipPlan

/-- No chunk lost yet. -/
def fresh (base : Plan (Plain R) R) (budget : Int) (hpos : 0 < budget) : SkipPlan R where
  base := base
  budget := budget
  lost := []
  positive := hpos
  named _ h := absurd h List.not_mem_nil
  distinct := List.nodup_nil
  within := hpos.le

/-- An empty partial that names why there is no data. -/
def missing (sp : SkipPlan R) (failed : FailedChunk) : Except Raised (Partial R) :=
  sp.base.empty.map fun v => ⟨v.value, [failed]⟩

def process (sp : SkipPlan R) (p : Partition) : Except Raised (Partial R) :=
  match sp.lost.lookup (chunkLabel p) with
  | some failed => sp.missing failed
  | none =>
      match sp.base.process p with
      | .ok v => .ok ⟨v.value, []⟩
      | .error e =>
          if e.isException = true then sp.missing (failedChunk (chunkLabel p) p e) else .error e

def combine (sp : SkipPlan R) (a b : Partial R) : Except Raised (Partial R) :=
  if sp.budget < (a.failed ++ b.failed).length then
    .error (.tooManyFailedChunks (byLabel (a.failed ++ b.failed)))
  else (sp.base.combine ⟨a.value⟩ ⟨b.value⟩).map fun v => ⟨v.value, a.failed ++ b.failed⟩

/-- The plan a runner runs. -/
def plan (sp : SkipPlan R) : Plan (Partial R) R where
  process := sp.process
  combine := sp.combine
  empty := sp.base.empty.map fun v => ⟨v.value, []⟩
  tasks := sp.base.tasks
  hasNextTasks := sp.base.hasNextTasks
  stop := some ⟨some sp.budget⟩
  bound := sp.base.bound
  finalize := sp.base.finalize

end SkipPlan

/-- A plan as a runner is given it, already going on past failures or not. -/
inductive AnyPlan (R : Type) where
  | plain (plan : Plan (Plain R) R)
  | skip (plan : SkipPlan R)

namespace AnyPlan

/-- The plan it goes back to. -/
def base : AnyPlan R → Plan (Plain R) R
  | plain plan => plan
  | skip plan => plan.base

def stop : AnyPlan R → Option StopCondition
  | plain plan => plan.stop
  | skip plan => plan.plan.stop

/-- The budget a run has: `skip_failed`, or the plan's own. -/
def budget (plan : AnyPlan R) (skipFailed : Int) : Option Int :=
  if skipFailed ≠ 0 then some skipFailed else plan.stop.bind (·.maxErrors)

end AnyPlan

/-- The plan going on past `skipFailed` failed chunks. -/
def skipping (plan : AnyPlan R) (skipFailed : Int) : Except Raised (AnyPlan R) :=
  match plan.budget skipFailed with
  | none => .ok plan
  | some budget =>
      if budget < 0 then
        .error (valueError ("a failed-chunk budget must be >= 0, got " ++ toString budget))
      else
        match plan with
        | .skip sp => .ok (.skip sp)
        | .plain base =>
            if hpos : 0 < budget then .ok (.skip (SkipPlan.fresh base budget hpos))
            else .ok (.plain base)

/-- The result with its value in its final form and its failures beside it. -/
def finalizeResult {V : Type} [Partials V R] (plan : Plan V R) (result : ExecResult V) :
    Except Raised (ExecResult R) :=
  let value := Partials.value result.value
  let failed := byLabel (Partials.failed result.value)
  match plan.finalize with
  | none => .ok ⟨value, result.nPartitions, result.nCombines, result.stopped, failed⟩
  | some fn =>
      (fn value).map fun v => ⟨v, result.nPartitions, result.nCombines, result.stopped, failed⟩

end Graphed
