import Graphed.Execution.Collated
import Graphed.Execution.Skipping

/-!
# Warnings carried in partials

A task in another process keeps the warnings it raises, and its partial carries them to the driver.
A plan's combine and finalize look through the carrier, and finalize issues what the run's value
carries. A task that fails has no partial; its warnings are notes on its error.
-/

namespace Graphed

variable {α σ : Type}

/-! ### Carriers -/

/-- What a task caught: by category and message, where it was first raised. -/
abbrev Heard := List (WarningKey × String × Int)

/-- What a partial carries of it, each with the chunk. Categories that do not survive the trip give
way to their builtin base, `carried`. -/
def carriedOf (carried : String → String) (caught : Heard) (chunk : String) : Caught :=
  caught.foldl (fun items w =>
    dictUpdate items [(⟨carried w.1.category, w.1.message⟩, ⟨w.2.1, w.2.2, chunk⟩)]) []

def carrying (carried : String → String) (value : PyValue α) (caught : Heard) (chunk : String) :
    PyValue α :=
  if caught = [] then value else .warned value (carriedOf carried caught chunk)

/-- A warning as it is issued. -/
structure Issue where
  message : String
  category : String
  filename : String
  lineno : Int
deriving DecidableEq

def warnExplicit (item : WarningKey × WarningPlace) : Issue where
  message := item.1.message ++ " [first in " ++ item.2.chunk ++ "]"
  category := item.1.category
  filename := item.2.filename
  lineno := item.2.lineno

/-- The value without the warnings it carries, and these as they are issued. -/
def withoutWarnings (value : PyValue α) : PyValue α × List Issue :=
  (value.split.1, value.split.2.map warnExplicit)

/-! ### Finalizers that issue -/

/-- A call and the warnings it issues, which stay issued when it raises. -/
abbrev Issuing (β : Type) := Except Raised β × List Issue

/-- A finalize, and what it issues. -/
structure IssuingFinalize (α : Type) where
  truthy : Bool
  call : PyValue α → Issuing (PyValue α)

namespace IssuingFinalize

/-- A callable that issues nothing of what is carried. -/
def silent (truthy : Bool) (fn : PyValue α → Except Raised α) : IssuingFinalize α where
  truthy := truthy
  call value := ((fn value).map .leaf, [])

/-- The finalize, but for what it issues. -/
def quietly (fn : IssuingFinalize α) : Finalize α where
  truthy := fn.truthy
  call value := (fn.call value).1

/-- `WarnedFinalize`. -/
def warned (fn : Option (IssuingFinalize α)) : IssuingFinalize α where
  truthy := true
  call value :=
    let (plain, issued) := withoutWarnings value
    match fn with
    | none => (.ok plain, issued)
    | some fn => ((fn.call plain).1, issued ++ (fn.call plain).2)

/-- An item of a collated value. -/
def item (finalizers : List (String × IssuingFinalize α)) (item : String × PyValue α) :
    Issuing (String × PyValue α) :=
  match finalizers.lookup item.1 with
  | none => (.ok item, [])
  | some fn =>
      if fn.truthy = true then ((fn.call item.2).1.map (item.1, ·), (fn.call item.2).2)
      else (.ok item, [])

/-- The items one after the other, up to one that raises. -/
def items (finalizers : List (String × IssuingFinalize α)) :
    List (String × PyValue α) → Issuing (List (String × PyValue α))
  | [] => (.ok [], [])
  | first :: rest =>
      match item finalizers first with
      | (.error e, issued) => (.error e, issued)
      | (.ok done, issued) =>
          let ended := items finalizers rest
          (ended.1.map (done :: ·), issued ++ ended.2)

/-- `_CollatedFinalize`. -/
def collated (finalizers : List (String × IssuingFinalize α)) : IssuingFinalize α where
  truthy := true
  call value :=
    match value.items with
    | .error e => (.error e, [])
    | .ok given => ((items finalizers given).1.map .dict, (items finalizers given).2)

end IssuingFinalize

/-! ### Plans and what they are built of -/

/-- What a plan's author wrote. Each may be handed anything, and gives a plain value. -/
structure Functions (α : Type) where
  reduce : List (PyValue α) → Except Raised α
  combine : PyValue α → PyValue α → Except Raised α
  empty : Except Raised α
  finalize : Option (PyValue α → Except Raised α)

/-- What `aggregate_plan` puts in a plan. `values` are a partition's outputs as evaluated, and
`caught` what its task catches, which is nothing where the task shares the driver's process. -/
structure Aggregation (α σ : Type) where
  values : Partition → Except Raised (List α)
  caught : Partition → Heard
  label : Partition → String
  own : Functions α
  partPaths : Partition → Except Raised (List String)
  partitions : List Partition
  services : List (ServiceSpec σ)

/-- A plan put together by hand, whose partials carry nothing. -/
structure HandPlan (α σ : Type) where
  values : Partition → Except Raised (List α)
  own : Functions α
  finalizeTruthy : Bool
  partPaths : Option (Partition → Except Raised (List String))
  tasks : List Task
  hasNextTasks : Bool
  stop : Option StopCondition
  openOnce : Bool
  services : List (ServiceSpec σ)

/-- A partition's values, reduced. -/
def Functions.reduced (own : Functions α) (values : Except Raised (List α)) : Except Raised α := do
  let values ← values
  own.reduce (values.map .leaf)

/-- The author's combine, on partials. -/
def Functions.combined (own : Functions α) : Combine α := fun x y => (own.combine x y).map .leaf

namespace Aggregation

variable (carried : String → String) (a : Aggregation α σ)

/-- A task that raises has no partial. -/
def process : Process α where
  call p := do
    let result ← a.own.reduced (a.values p)
    .ok (carrying carried (.leaf result) (a.caught p) (a.label p))
  partPaths := some a.partPaths

def finalizer : IssuingFinalize α :=
  .warned (a.own.finalize.map (.silent true))

def plan : TaskPlan α σ where
  process := a.process carried
  combine := WarnedCombine a.own.combined
  empty := a.own.empty.map .leaf
  tasks := a.partitions.mapIdx fun i p => ⟨i, p⟩
  hasNextTasks := false
  stop := none
  openOnce := false
  services := a.services
  finalize := some (WarnedFinalize (a.own.finalize.map fun fn => ⟨true, fun v => (fn v).map .leaf⟩))

def aggregatePlan (quote : String → String) : Except Raised (TaskPlan α σ) := do
  let plan := a.plan carried
  refuseSharedParts quote plan.process plan.tasks
  .ok plan

end Aggregation

namespace HandPlan

variable (p : HandPlan α σ)

def finalizer : Option (IssuingFinalize α) := p.own.finalize.map (.silent p.finalizeTruthy)

def plan : TaskPlan α σ where
  process := ⟨fun q => (p.own.reduced (p.values q)).map .leaf, p.partPaths⟩
  combine := p.own.combined
  empty := p.own.empty.map .leaf
  tasks := p.tasks
  hasNextTasks := p.hasNextTasks
  stop := p.stop
  openOnce := p.openOnce
  services := p.services
  finalize := p.finalizer.map (·.quietly)

end HandPlan

/-- How a plan is built: from an analysis, by hand, or of plans by name. -/
inductive Outline (α σ : Type) where
  | aggregate (a : Aggregation α σ)
  | hand (p : HandPlan α σ)
  | collate (names : List String) (distinct : names.Nodup) (plans : String → Outline α σ)

/-- A chunk in key order: its label, what its task catches, and whether the task fails. -/
structure Chunk where
  partition : Partition
  label : String
  heard : Heard
  failed : Bool

namespace Outline

variable [DecidableEq σ] (carried : String → String) (quote : String → String)

def build : Outline α σ → Except Raised (TaskPlan α σ)
  | aggregate a => a.aggregatePlan carried quote
  | hand p => .ok p.plan
  | collate names _ plans => do
      let built ← names.mapM fun name =>
        (plans name).build.map fun p => (name, GivenPlan.plan p)
      Graphed.collate quote built

omit [DecidableEq σ] in
/-- The plan's finalize, and what it issues. -/
def finalizer : Outline α σ → Option (IssuingFinalize α)
  | aggregate a => some a.finalizer
  | hand p => p.finalizer
  | collate names _ plans =>
      let finalizers := names.filterMap fun name => (plans name).finalizer.map (name, ·)
      some (.warned (if finalizers = [] then none else some (.collated finalizers)))

/-- What ending a value issues. -/
def issues (o : Outline α σ) (value : PyValue α) : List Issue :=
  match o.finalizer with
  | none => []
  | some fn => (fn.call value).2

/-- The chunks in key order, each with what its task catches. -/
def chunks : Outline α σ → List Chunk
  | aggregate a => a.partitions.map fun p =>
      ⟨p, a.label p, a.caught p, !(a.own.reduced (a.values p)).isOk⟩
  | hand p => p.plan.ordered.map fun t =>
      ⟨t.partition, "", [], !(p.own.reduced (p.values t.partition)).isOk⟩
  | collate names _ plans => names.flatMap fun name => (plans name).chunks

/-- The outline with its authors' functions and its tasks' warnings replaced. -/
def revise (f : Functions α → Functions α) (g : (Partition → Heard) → Partition → Heard) :
    Outline α σ → Outline α σ
  | aggregate a => aggregate { a with own := f a.own, caught := g a.caught }
  | hand p => hand { p with own := f p.own }
  | collate names distinct plans => collate names distinct fun name => (plans name).revise f g

/-- No task catches a warning. -/
def quiet (o : Outline α σ) : Outline α σ := o.revise id fun _ _ => []

end Outline

/-- Whether a value is a carrier. -/
def PyValue.isCarrier : PyValue α → Bool
  | warned _ _ => true
  | _ => false

/-- These functions, raising `e` as soon as one of them is handed a carrier. -/
def Functions.guarded (e : Raised) (own : Functions α) : Functions α where
  reduce values := if values.any PyValue.isCarrier then .error e else own.reduce values
  combine a b := if a.isCarrier || b.isCarrier then .error e else own.combine a b
  empty := own.empty
  finalize := own.finalize.map fun fn v => if v.isCarrier then .error e else fn v

/-- The outline with every author's function refusing carriers. -/
def Outline.guarded (e : Raised) (o : Outline α σ) : Outline α σ := o.revise (·.guarded e) id

/-! ### Runs -/

/-- The plan as it is handed to a runner. -/
def TaskPlan.given (p : TaskPlan α σ) : Plan (Plain (PyValue α)) (PyValue α) where
  process q := (p.process.call q).map .mk
  combine a b := (p.combine a.value b.value).map .mk
  empty := p.empty.map .mk
  tasks := p.tasks
  hasNextTasks := p.hasNextTasks
  stop := p.stop
  bound := .ok ()
  finalize := p.finalize.map (·.call)

variable {V R : Type}

/-- How many merges a tree makes. -/
def Reduction.merges : Reduction → Nat
  | merge left right => left.merges + right.merges + 1
  | _ => 0

/-- The result of reducing a plan's partials in a tree, in its final form. -/
def Plan.ends [Partials V R] (plan : Plan V R) (tree : Reduction) :
    Except Raised (ExecResult R) := do
  let value ← tree.reduce plan
  finalizeResult plan ⟨value, tree.leaves.length, tree.merges, none, []⟩

namespace AnyPlan

/-- The plan after these lost workers, each answered with a rerun. -/
def after (plan : AnyPlan R) (lost : List Raised) : Except Raised (AnyPlan R) :=
  lost.foldlM (fun plan err => (withoutLost plan err).map .skip) plan

/-- What a tree of partials comes to, before it is ended. -/
def merged : AnyPlan R → Reduction → Except Raised R
  | plain plan, tree => (tree.reduce plan).map Plain.value
  | skip sp, tree => (tree.reduce sp.plan).map Partial.value

def ends : AnyPlan R → Reduction → Except Raised (ExecResult R)
  | plain plan, tree => plan.ends tree
  | skip sp, tree => sp.plan.ends tree

/-- Whether a run keeps a chunk: its task gives a partial, and its label was not blamed. -/
def keeps (plan : AnyPlan R) (c : Chunk) : Bool :=
  match plan with
  | plain _ => !c.failed
  | skip sp => !c.failed && (sp.lost.lookup (chunkLabel c.partition)).isNone

end AnyPlan

namespace TaskPlan

/-- The plan a runner goes by, past `skipFailed` failed chunks and after these lost workers. -/
def prepared (p : TaskPlan α σ) (skipFailed : Int) (lost : List Raised) :
    Except Raised (AnyPlan (PyValue α)) := do
  let plan ← skipping (.plain p.given) skipFailed
  plan.after lost

/-- A run: its result, its partials reduced in a tree. -/
def ran (p : TaskPlan α σ) (skipFailed : Int) (lost : List Raised) (tree : Reduction) :
    Except Raised (ExecResult (PyValue α)) := do
  let plan ← p.prepared skipFailed lost
  plan.ends tree

end TaskPlan

/-- Whether a chunk's task caught a warning. -/
def Chunk.raises (carried : String → String) (key : WarningKey) (c : Chunk) : Bool :=
  c.heard.any fun w => (⟨carried w.1.category, w.1.message⟩ : WarningKey) == key

/-- The first of these chunks to raise a warning. -/
def firstRaised (carried : String → String) (chunks : List Chunk) (key : WarningKey) :
    Option Chunk :=
  chunks.find? (Chunk.raises carried key)

end Graphed
