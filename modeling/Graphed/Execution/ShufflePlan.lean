import Graphed.Execution.Durable
import Graphed.Execution.Requests
import Graphed.Relational.Exchange

/-!
# Shuffle plans

A shuffle is a plan of stages around a barrier of its graph. A map task reads one partition,
evaluates the graph up to the barrier and routes the rows; a gather concatenates one destination's
blocks and evaluates the rest; a last task folds the destinations. A join's plan has a map stage for
each side, and its gathers take both.
-/

namespace Graphed.Exchange

open JsonText Routing

variable {ρ X R : Type}

/-! ### The stages' processes -/

/-- `pickle`, for the payloads of a map task and for values. -/
structure Pickle (R : Type) where
  dumpsBlocks : List (Int × List UInt8) → List UInt8
  loadsBlocks : List UInt8 → Except Raised (List (Int × List UInt8))
  loads_dumpsBlocks : ∀ blocks, loadsBlocks (dumpsBlocks blocks) = .ok blocks
  dumps : R → List UInt8
  loads : List UInt8 → Except Raised R
  loads_dumps : ∀ value, loads (dumps value) = .ok value

inductive Scheme where
  | hash
  | count
  | position
deriving DecidableEq

structure Route where
  scheme : Scheme
  key : String
  parts : Nat

/-- A `map_write` task's process. -/
structure MapWrite (ρ X : Type) where
  nodes : List IrNode
  marked : List Nat
  target : Nat
  sourceName : String
  reader : Partition → Except Raised (Held ρ X)
  route : Route

/-- A `gather` task's process. `reduce` is the plan's, or takes the one output's value. -/
structure Gather (ρ X R : Type) where
  nodes : List IrNode
  marked : List Nat
  barrierInputs : List Nat
  nLeft : Option Nat
  reduce : List (Option (Held ρ X)) → Except Raised R

/-- The one-task `reduce` stage's process. -/
structure Fold (R : Type) where
  combine : R → R → Except Raised R
  empty : Except Raised R

/-- The evaluator of a task, its sources bound. -/
def bound (E : Evaluator (Held ρ X) Raised) (sources : List (String × Except Raised (Held ρ X))) :
    Evaluator (Held ρ X) Raised := { E with sources := sources }

/-- `(value,) = values`. -/
def only {V : Type} : List (Option V) → Except Raised V
  | [some value] => .ok value
  | _ => .error (valueError "not enough values to unpack (expected 1)")

/-- Blocks with the destinations they are for, from the first on. -/
def enumerated {V : Type} (blocks : List V) : List (Int × V) :=
  blocks.zipIdx.map fun block => (block.2, block.1)

section Processes

variable (B : Backend ρ X) (P : Pickle R) (E : Evaluator (Held ρ X) Raised)

namespace MapWrite

/-- The value of a chunk at the barrier. -/
def evaluated (w : MapWrite ρ X) (chunk : Held ρ X) : Except Raised (Held ρ X) := do
  let values ← ((bound E [(w.sourceName, .ok chunk)]).evaluateIr w.nodes w.marked
    (some [w.target]) none true).result
  only values

def value (w : MapWrite ρ X) (partition : Partition) : Except Raised (Held ρ X) := do
  let chunk ← w.reader partition
  w.evaluated E chunk

/-- The blocks of a value, each with its destination. -/
def routed (w : MapWrite ρ X) (task : Task) (value : Held ρ X) :
    Except Raised (List (Int × Held ρ X)) :=
  match w.route.scheme with
  | .position => .ok [(task.key, value)]
  | .hash => (B.partition value w.route.key w.route.parts).map enumerated
  | .count => do
      let empty ← B.sliceRows value 0 0
      .ok (enumerated ((List.range w.route.parts).map fun d : Nat =>
        if (d : Int) = task.key % w.route.parts then value else empty))

def call (w : MapWrite ρ X) : StageProcess := fun task _ => do
  let value ← w.value E task.partition
  let blocks ← w.routed B task value
  .ok (P.dumpsBlocks (blocks.map fun block => (block.1, B.toWire block.2)))

end MapWrite

/-- A map task's payload as the blocks of its destinations. -/
def split (payload : List UInt8) : Except Raised (List (Int × List UInt8)) := P.loadsBlocks payload

/-- What a gather reads from one map task: its destination's block alone, if there is one. -/
def pick (mapping : List (Int × List UInt8)) (dest : Int) : List UInt8 :=
  P.dumpsBlocks ((mapping.lookup dest).elim [] fun block => [(dest, block)])

namespace Gather

/-- The blocks of a destination, one map task after the other. -/
def blocks (dest : Int) (inputs : List (List UInt8)) : Except Raised (List (Held ρ X)) := do
  let mappings ← inputs.mapM (split P)
  (mappings.filterMap (·.lookup dest)).mapM B.fromWire

/-- The barrier's inputs, a block a side. -/
def given (g : Gather ρ X R) (blocks : List (Held ρ X)) :
    Except Raised (List (Nat × Held ρ X)) := do
  let sides :=
    match g.nLeft with
    | none => [blocks]
    | some n => [blocks.take n, blocks.drop n]
  if g.barrierInputs.length = sides.length then
    let values ← (g.barrierInputs.zip sides).mapM fun side => (B.concat side.2).map (side.1, ·)
    .ok (dictUpdate [] values)
  else .error (valueError "zip() arguments differ in length")

/-- The graph from the barrier on, on its inputs' values. -/
def after (g : Gather ρ X R) (given : List (Nat × Held ρ X)) : Except Raised R := do
  let values ← ((bound E []).evaluateIr g.nodes g.marked none (some given) true).result
  g.reduce values

def call (g : Gather ρ X R) : StageProcess := fun task inputs => do
  let blocks ← blocks B P task.key inputs
  let given ← g.given B blocks
  let value ← g.after E given
  .ok (P.dumps value)

end Gather

def Fold.call (fold : Fold R) : StageProcess := fun _ inputs => do
  let empty ← fold.empty
  let value ← inputs.foldlM (fun acc payload => do
    let value ← P.loads payload
    fold.combine acc value) empty
  .ok (P.dumps value)

/-! ### The plan -/

/-- What a run's value is: one folded value, or those of the destinations. -/
inductive RunValue (R : Type) where
  | folded (value : R)
  | perDest (values : List R)

/-- What identifies a plan's tasks and is read by no process. -/
structure Identity where
  ir : List UInt8
  blob : String → List UInt8
  routing : String → Fields

def stage (I : Identity) (kind : String) (inputs : List Nat) (process : StageProcess)
    (tasks : List Task) : StageSpec :=
  ⟨kind, inputs, ⟨.opaqueOp, "", I.blob kind, process⟩, I.routing kind, tasks⟩

def mapTasks (partitions : List Partition) : List Task :=
  partitions.zipIdx.map fun p => ⟨p.2, p.1⟩

def destTasks (parts : Nat) : List Task :=
  (List.range parts).map fun d : Nat => ⟨d, ⟨"dest", "p", d, d + 1, none, none, none⟩⟩

/-- A map stage for each side, a gather of every map stage, and the fold, if there is one. -/
def build (I : Identity) (kind : String) (sides : List (MapWrite ρ X × List Partition))
    (gather : Gather ρ X R) (parts : Nat) (fold : Option (Fold R)) : DurablePlanV2 where
  ir := I.ir
  stages :=
    sides.map (fun side => stage I "map_write" [] (side.1.call B P E) (mapTasks side.2)) ++
      stage I kind (List.range sides.length) (gather.call B P E) (destTasks parts) ::
        (fold.map fun fold => stage I "reduce" [sides.length] (fold.call P)
          [⟨0, ⟨"reduce", "", 0, 1, none, none, none⟩⟩]).toList

/-- A run's value, from its last stage's payloads. -/
def planValue (plan : DurablePlanV2) (payloads : List (List UInt8)) :
    Except Raised (RunValue R) := do
  let decoded ← payloads.mapM P.loads
  if (plan.stages.getLast?.map (·.kind)) = some "reduce" then
    match decoded with
    | [only] => .ok (.folded only)
    | _ => .error (valueError "too many values to unpack (expected 1)")
  else .ok (.perDest decoded)

/-- Running a plan stage by stage. -/
def runPlan (plan : DurablePlanV2) : Except Raised (RunValue R) := do
  let payloads ← lastPayloads plan
  planValue P plan payloads

/-- The plan of a repartition: one side, folded. -/
def shufflePlan (I : Identity) (w : MapWrite ρ X) (partitions : List Partition)
    (reduce : List (Option (Held ρ X)) → Except Raised R) (fold : Fold R) : DurablePlanV2 :=
  build B P E I "gather" [(w, partitions)] ⟨w.nodes, w.marked, [w.target], none, reduce⟩
    w.route.parts (some fold)

/-- The plan of a join: a side for each input, each destination taking the blocks of both, of one
task a side where rows stay in their partition. -/
def joinPlan (I : Identity) (w w' : MapWrite ρ X) (partitions partitions' : List Partition)
    (reduce : List (Option (Held ρ X)) → Except Raised R) (fold : Option (Fold R)) :
    DurablePlanV2 :=
  build B P E I "gather_join" [(w, partitions), (w', partitions')]
    ⟨w.nodes, w.marked, [w.target, w'.target],
      some (if w.route.scheme = .position then 1 else partitions.length), reduce⟩
    w.route.parts fold

/-- The graph on both whole datasets. -/
def joinedWhole (w w' : MapWrite ρ X) (reduce : List (Option (Held ρ X)) → Except Raised R)
    (whole whole' : Held ρ X) : Except Raised R := do
  let values ← ((bound E [(w.sourceName, .ok whole), (w'.sourceName, .ok whole')]).evaluateIr
    w.nodes w.marked none none true).result
  reduce values

/-- The graph on the whole dataset, read as one chunk. -/
def wholeValue (w : MapWrite ρ X) (reduce : List (Option (Held ρ X)) → Except Raised R)
    (whole : Held ρ X) : Except Raised R := do
  let values ← ((bound E [(w.sourceName, .ok whole)]).evaluateIr w.nodes w.marked none none
    true).result
  reduce values

end Processes

end Graphed.Exchange
