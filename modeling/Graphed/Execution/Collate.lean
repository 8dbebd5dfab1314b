import Graphed.Checkpoint.Objects
import Graphed.Library.Dict
import Graphed.Library.Folding

/-!
# Collated plans

Several plans with fixed tasks run as one. A task runs the process of the plan that holds its file
and tree, under that plan's name; partials are merged name by name, and each name's value ends
through its own plan's finalize.
-/

namespace Graphed

/-! ### Values -/

/-- What a partial is: anything, a dict, or a value that carries warnings. -/
inductive PyValue (α : Type) where
  | leaf (a : α)
  | dict (items : List (String × PyValue α))
  | warned (value : PyValue α) (caught : Caught)

variable {α σ : Type}

namespace PyValue

/-- A value and the warnings it carries. -/
def split : PyValue α → PyValue α × Caught
  | warned value caught => (value, caught)
  | value => (value, [])

def onValue (fn : PyValue α → PyValue α) (value : PyValue α) : PyValue α :=
  let (plain, caught) := value.split
  if caught = [] then fn plain else warned (fn plain) caught

/-- The items of a dict. -/
def items : PyValue α → Except Raised (List (String × PyValue α))
  | dict items => .ok items
  | leaf _ => .error (typeError "object is not a mapping")
  | warned _ _ => .error (typeError "'Warned' object is not a mapping")

end PyValue

abbrev Combine (α : Type) := PyValue α → PyValue α → Except Raised (PyValue α)

def WarnedCombine (fn : Combine α) : Combine α := fun a b =>
  let caught := mergeCaught b.split.2 a.split.2
  (fn a.split.1 b.split.1).map fun value => if caught = [] then value else .warned value caught

/-- A callable that ends a run's value, and how it tests as a condition. -/
structure Finalize (α : Type) where
  truthy : Bool
  call : PyValue α → Except Raised (PyValue α)

/-- The warnings are issued, and the plain value ends. -/
def WarnedFinalize (fn : Option (Finalize α)) : Finalize α where
  truthy := true
  call value :=
    match fn with
    | none => .ok value.split.1
    | some fn => fn.call value.split.1

/-! ### Plans -/

/-- A process, and the parts it says it writes for a partition. -/
structure Process (α : Type) where
  call : Partition → Except Raised (PyValue α)
  partPaths : Option (Partition → Except Raised (List String))

/-- A service by name. `rest` is all else it says, which specs are compared by. -/
structure ServiceSpec (σ : Type) where
  name : String
  rest : σ
deriving DecidableEq

/-- A plan of one kind of task. -/
structure TaskPlan (α σ : Type) where
  process : Process α
  combine : Combine α
  empty : Except Raised (PyValue α)
  tasks : List Task
  hasNextTasks : Bool
  stop : Option StopCondition
  openOnce : Bool
  services : List (ServiceSpec σ)
  finalize : Option (Finalize α)

/-- A plan handed to `collate`. -/
inductive GivenPlan (α σ : Type) where
  | plan (plan : TaskPlan α σ)
  | staged (services : List (ServiceSpec σ))

def GivenPlan.services : GivenPlan α σ → List (ServiceSpec σ)
  | .plan p => p.services
  | .staged services => services

namespace TaskPlan

/-- The plan a runner runs; its services are bound. -/
def plan (p : TaskPlan α σ) : Plan (PyValue α) (PyValue α) where
  process := p.process.call
  combine := p.combine
  empty := p.empty
  tasks := p.tasks
  hasNextTasks := p.hasNextTasks
  stop := p.stop
  bound := .ok ()
  finalize := p.finalize.map (·.call)

/-- The tasks in key order. -/
def ordered (p : TaskPlan α σ) : List Task := p.plan.ordered

/-- A run's value in its final form. -/
def finalized (p : TaskPlan α σ) (value : PyValue α) : Except Raised (PyValue α) :=
  match p.finalize with
  | none => .ok value
  | some fn => fn.call value

/-- The run's value, its partials reduced in a tree. -/
def run (p : TaskPlan α σ) (tree : Reduction) : Except Raised (PyValue α) := do
  let value ← tree.reduce p.plan
  p.finalized value

end TaskPlan

/-! ### Parts -/

/-- A path's leading slashes, and the rest. -/
def splitroot : List Char → List Char × List Char
  | '/' :: '/' :: '/' :: path => (['/'], '/' :: '/' :: path)
  | '/' :: '/' :: path => (['/', '/'], path)
  | '/' :: path => (['/'], path)
  | path => ([], path)

/-- One more component of a normal path. -/
def normStep (rooted : Bool) (comps : List (List Char)) (comp : List Char) : List (List Char) :=
  if comp = [] ∨ comp = ['.'] then comps
  else if comp ≠ ['.', '.'] ∨ (rooted = false ∧ comps = []) ∨ comps.getLast? = some ['.', '.'] then
    comps ++ [comp]
  else comps.dropLast

def normpath (path : String) : String :=
  let (root, rest) := splitroot path.toList
  let comps := (rest.splitOn '/').foldl (normStep !root.isEmpty) []
  let joined := root ++ ['/'].intercalate comps
  if joined = [] then "." else String.ofList joined

def writtenParts (process : Process α) (p : Partition) : Except Raised (List String) :=
  match process.partPaths with
  | none => .ok []
  | some hook => hook p

/-- `quote` is how a string prints. -/
def samePart (quote : String → String) (path : String) : Raised :=
  valueError ("two writes of this plan write the same part " ++ quote path ++
    ": `name` must tell every partition apart (a blind partition's entry range is 0-0 until it is " ++
    "read), and plans collated together need distinct parts")

def seePart (quote : String → String) (seen : List String) (path : String) :
    Except Raised (List String) :=
  if normpath path ∈ seen then .error (samePart quote (normpath path))
  else .ok (seen ++ [normpath path])

def refuseSharedParts (quote : String → String) (process : Process α) (tasks : List Task) :
    Except Raised Unit := do
  let _ ← tasks.foldlM (fun seen t => do
    let paths ← writtenParts process t.partition
    paths.foldlM (seePart quote) seen) []
  .ok ()

/-! ### The collated plan -/

abbrev FileTree := String × String

def Partition.fileTree (p : Partition) : FileTree := (p.uri, p.tree)

/-- What a dict has under a key it must have. -/
def dictItem {κ ν : Type} [BEq κ] (items : List (κ × ν)) (key : κ) (text : String) :
    Except Raised ν :=
  match items.lookup key with
  | some v => .ok v
  | none => .error (keyError text)

/-- A collated plan's process: the sub-plans' processes, and which of them reads a file's tree. -/
structure Collated (α : Type) where
  processes : List (String × Process α)
  route : List (FileTree × String)

namespace Collated

variable (quote : String → String)

/-- How a file's tree prints. -/
def showKey (key : FileTree) : String := "(" ++ quote key.1 ++ ", " ++ quote key.2 ++ ")"

/-- The sub-plan of a partition, and its process. -/
def routed (c : Collated α) (p : Partition) : Except Raised (String × Process α) := do
  let name ← dictItem c.route p.fileTree (showKey quote p.fileTree)
  let process ← dictItem c.processes name (quote name)
  .ok (name, process)

def call (c : Collated α) (p : Partition) : Except Raised (PyValue α) := do
  let (name, process) ← c.routed quote p
  let value ← process.call p
  .ok (value.onValue fun value => .dict [(name, value)])

def partPaths (c : Collated α) (p : Partition) : Except Raised (List String) := do
  let (_, process) ← c.routed quote p
  writtenParts process p

def process (c : Collated α) : Process α where
  call := c.call quote
  partPaths := some (c.partPaths quote)

end Collated

/-- A name's value through its plan's finalize; a name without one passes through. -/
def finalizeItem (finalizers : List (String × Finalize α)) (item : String × PyValue α) :
    Except Raised (String × PyValue α) :=
  match finalizers.lookup item.1 with
  | none => .ok item
  | some fn => if fn.truthy = true then (fn.call item.2).map (item.1, ·) else .ok item

def CollatedFinalize (finalizers : List (String × Finalize α)) : Finalize α where
  truthy := true
  call value := do
    let items ← value.items
    let items ← items.mapM (finalizeItem finalizers)
    .ok (.dict items)

/-- An item of the second dict, combined with the first's. -/
def combineItem (quote : String → String) (combines : List (String × Combine α))
    (a : List (String × PyValue α)) (item : String × PyValue α) :
    Except Raised (String × PyValue α) :=
  match a.lookup item.1 with
  | none => .ok item
  | some mine => do
      let combine ← dictItem combines item.1 (quote item.1)
      let value ← combine mine item.2
      .ok (item.1, value)

/-- Name by name with that plan's combine; a name on one side only passes through. -/
def CollatedCombine (quote : String → String) (combines : List (String × Combine α)) : Combine α :=
  fun a b => do
    let a ← a.items
    let b ← b.items
    let b ← b.mapM (combineItem quote combines a)
    let merged := dictUpdate a b
    .ok (.dict (combines.filterMap fun entry => (merged.lookup entry.1).map (entry.1, ·)))

/-! ### Collating -/

variable [DecidableEq σ] (quote : String → String)

def serviceTwice (name service : String) : Raised :=
  valueError ("plan " ++ quote name ++ " declares service " ++ quote service ++
    " unlike another plan does")

/-- One more service of a plan. -/
def declareSpec (name : String) (services : List (ServiceSpec σ)) (spec : ServiceSpec σ) :
    Except Raised (List (ServiceSpec σ)) :=
  match services.find? (·.name = spec.name) with
  | none => .ok (services ++ [spec])
  | some other =>
      if other = spec then .ok services else .error (serviceTwice quote name spec.name)

/-- One more plan's services. -/
def declare (services : List (ServiceSpec σ)) (entry : String × GivenPlan α σ) :
    Except Raised (List (ServiceSpec σ)) :=
  entry.2.services.foldlM (declareSpec quote entry.1) services

def heldTwice (key : FileTree) (owner name : String) : Raised :=
  valueError (Collated.showKey quote key ++ " appears in plans " ++ quote owner ++ " and " ++
    quote name ++ "; record both over one source so one read serves both graphs")

/-- What the loop over the plans has: where each file's tree is read, the tasks and the plans. -/
structure Collating (α σ : Type) where
  route : List (FileTree × String)
  tasks : List Task
  fixed : List (String × TaskPlan α σ)

/-- One more task. -/
def addTask (name : String) (c : Collating α σ) (t : Task) : Except Raised (Collating α σ) :=
  let key := t.partition.fileTree
  let route := if (c.route.lookup key).isNone then c.route ++ [(key, name)] else c.route
  let owner := (c.route.lookup key).getD name
  if owner ≠ name then .error (heldTwice quote key owner name)
  else .ok { c with route := route, tasks := c.tasks ++ [⟨c.tasks.length, t.partition⟩] }

/-- One more plan. -/
def addPlan (c : Collating α σ) (entry : String × GivenPlan α σ) : Except Raised (Collating α σ) :=
  match entry.2 with
  | .staged _ => .error (typeError
      ("collate needs plans with fixed tasks; " ++ quote entry.1 ++ " runs in stages"))
  | .plan p =>
      if p.hasNextTasks = true ∨ p.stop.isSome = true then
        .error (typeError ("collate needs plans with fixed tasks; " ++ quote entry.1 ++
          " is adaptive or stoppable"))
      else p.ordered.foldlM (addTask quote entry.1) { c with fixed := c.fixed ++ [(entry.1, p)] }

/-- The plan of what the loop has. -/
def Collating.plan (c : Collating α σ) (services : List (ServiceSpec σ)) : TaskPlan α σ where
  process := (Collated.mk (c.fixed.map fun p => (p.1, p.2.process)) c.route).process quote
  combine := WarnedCombine (CollatedCombine quote (c.fixed.map fun p => (p.1, p.2.combine)))
  empty := .ok (.dict [])
  tasks := c.tasks
  hasNextTasks := false
  stop := none
  openOnce := c.fixed.any (·.2.openOnce)
  services := services.insertionSort fun a b => a.name ≤ b.name
  finalize :=
    let finalizers := c.fixed.filterMap fun p => p.2.finalize.map (p.1, ·)
    some (WarnedFinalize (if finalizers = [] then none else some (CollatedFinalize finalizers)))

/-- One plan over several plans' tasks. -/
def collate (plans : List (String × GivenPlan α σ)) : Except Raised (TaskPlan α σ) :=
  if plans = [] then .error (valueError "collate needs at least one plan")
  else do
    let services ← plans.foldlM (declare quote) []
    let c ← plans.foldlM (addPlan quote) ⟨[], [], []⟩
    let plan := c.plan quote services
    refuseSharedParts quote plan.process plan.tasks
    .ok plan

end Graphed
