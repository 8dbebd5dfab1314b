import Graphed.Core.Store
import Graphed.Library.Dsu
import Graphed.Optimizer.Engine

/-!
# Stage fusion

Runs of operators between boundaries become stages. A mode decides which operators share a
component; the components are then rebuilt in the order of their last node, a boundary as its
template and an operator component as one stage with input slots in first-seen order.
-/

namespace Graphed

open FirstSeen

/-- `singleUse` fuses an operator into its sole consumer; `maximal` also fuses one whose consumers
all land in one stage. -/
inductive FusionMode where
  | singleUse
  | maximal
deriving DecidableEq

structure ReductionReport where
  inputNodes : Nat
  reachableNodes : Nat
  canonicalNodes : Nat
  stages : Nat
  reducedNodes : Nat
  boundaryNodes : Nat
deriving DecidableEq

def ReductionReport.zero : ReductionReport := ⟨0, 0, 0, 0, 0, 0⟩

/-- The reduced graph, its remapped outputs, the report and the record to reduced correspondence. -/
structure Reduced where
  nodes : List NodeKey
  outputs : List Nat
  report : ReductionReport
  nodeMap : NodeMap

/-! ### Components -/

/-- Each node's consumers, once for each use. -/
def consumers (graph : EngineGraph) : List (List Nat) :=
  graph.nodes.zipIdx.foldl
    (fun acc node => node.1.inputs.foldl (fun acc inp => acc.modify inp (· ++ [node.2])) acc)
    (List.replicate graph.nodes.length [])

def isOutput (graph : EngineGraph) : List Bool :=
  graph.outputs.foldl (fun acc o => acc.set o true) (List.replicate graph.nodes.length false)

def isBoundaryAt (graph : EngineGraph) (i : Nat) : Bool := (graph.nodes.getD i default).boundary

/-- The consumer an operator fuses into: its only use, and an operator. -/
def soleConsumer (graph : EngineGraph) (i : Nat) : Option Nat :=
  if isBoundaryAt graph i then none
  else match (consumers graph).getD i [] with
    | [c] => if !(isOutput graph).getD i false && !isBoundaryAt graph c then some c else none
    | _ => none

/-- The union-find after every operator was joined with its sole consumer. -/
def singleUseDsu (graph : EngineGraph) : Dsu :=
  (List.range graph.nodes.length).foldl
    (fun dsu i => match soleConsumer graph i with
      | some c => dsu.union i c
      | none => dsu)
    (Dsu.new graph.nodes.length)

/-- A node's component: a boundary itself, an operator its root. -/
def singleUseComponents (graph : EngineGraph) : List Nat :=
  ((List.range graph.nodes.length).foldl
    (fun acc i =>
      if isBoundaryAt graph i then (acc.1 ++ [i], acc.2)
      else (acc.1 ++ [(acc.2.find i).1], (acc.2.find i).2))
    (([] : List Nat), singleUseDsu graph)).1

/-- Join an operator to its consumers' component, when they are operators and have one. -/
def maximalStep (graph : EngineGraph) (i : Nat) (comp : List Nat) : List Nat :=
  if isBoundaryAt graph i || (isOutput graph).getD i false then comp
  else match (consumers graph).getD i [] with
    | [] => comp
    | c :: cs =>
        if (c :: cs).any (isBoundaryAt graph) then comp
        else if (c :: cs).all fun d => comp.getD d 0 == comp.getD c 0 then
          comp.set i (comp.getD c 0)
        else comp

/-- One descending pass, so that a node's consumers are final when it is visited. -/
def maximalComponents (graph : EngineGraph) : List Nat :=
  (List.range graph.nodes.length).foldr (maximalStep graph) (List.range graph.nodes.length)

def FusionMode.components : FusionMode → EngineGraph → List Nat
  | singleUse => singleUseComponents
  | maximal => maximalComponents

/-! ### Rebuilding -/

/-- A component's nodes, ascending. -/
def membersOf (comp : List Nat) (c : Nat) : List Nat :=
  (List.range comp.length).filter fun i => comp.getD i 0 == c

/-- The last node of a component, which holds its value. -/
def headOf (comp : List Nat) (c : Nat) : Nat := (membersOf comp c).foldl max 0

/-- The components in the order of their last nodes. -/
def sortedComponents (comp : List Nat) : List Nat :=
  (firsts comp).insertionSort fun c d => headOf comp c ≤ headOf comp d

structure StageBuild where
  slots : List Nat
  members : List StageOp

/-- The reference to one input, a slot being added when its component is new. -/
def stageRef (ops comp : List Nat) (acc : List Nat × List StageRef) (inp : Nat) :
    List Nat × List StageRef :=
  if inp ∈ ops then (acc.1, acc.2 ++ [.member (ops.idxOf inp)])
  else
    let slots := insertNew acc.1 (comp.getD inp 0)
    (slots, acc.2 ++ [.input (slots.idxOf (comp.getD inp 0))])

def StageBuild.step (graph : EngineGraph) (ops comp : List Nat) (s : StageBuild) (op : Nat) :
    StageBuild :=
  let node := graph.nodes.getD op default
  let built := node.inputs.foldl (stageRef ops comp) (s.slots, [])
  { slots := built.1, members := s.members ++ [⟨node.token, built.2⟩] }

/-- The stage for one component. `reducedId` is the components' reduced ids so far, by position. -/
def fuseStage (graph : EngineGraph) (ops comp reducedId : List Nat) : NodeKey :=
  let s := ops.foldl (StageBuild.step graph ops comp) ⟨[], []⟩
  .stage (s.slots.map reducedId.idxOf) s.members

/-- The first key with a token, from which boundary nodes are rebuilt. -/
def template (keys : List NodeKey) (token : String) : NodeKey :=
  (keys.find? fun k => k.token == token).getD default

structure FusionState where
  /-- The components reduced so far: a component's position is its reduced id. -/
  reducedId : List Nat
  nodes : List NodeKey
  landing : List Landing
  stages : Nat
  boundaryNodes : Nat

def landMembers (members : List Nat) (rid : Nat) (landing : List Landing) : List Landing :=
  members.zipIdx.foldl (fun acc m => acc.set m.1 (rid, some m.2)) landing

def FusionState.step (graph : EngineGraph) (keys : List NodeKey) (comp : List Nat)
    (s : FusionState) (c : Nat) : FusionState :=
  let rid := s.nodes.length
  if isBoundaryAt graph c then
    let node := graph.nodes.getD c default
    { reducedId := s.reducedId ++ [c]
      nodes := s.nodes ++ [(template keys node.token).withInputs
        (node.inputs.map fun i => s.reducedId.idxOf (comp.getD i 0))]
      landing := s.landing.set c (rid, none)
      stages := s.stages
      boundaryNodes := s.boundaryNodes + 1 }
  else
    { reducedId := s.reducedId ++ [c]
      nodes := s.nodes ++ [fuseStage graph (membersOf comp c) comp s.reducedId]
      landing := landMembers (membersOf comp c) rid s.landing
      stages := s.stages + 1
      boundaryNodes := s.boundaryNodes }

/-- Rebuild the components, given each node's component. -/
def fuseComponents (graph : EngineGraph) (keys : List NodeKey) (comp : List Nat) :
    Reduced × List Landing :=
  let s := (sortedComponents comp).foldl (FusionState.step graph keys comp)
    ⟨[], [], List.replicate graph.nodes.length (0, none), 0, 0⟩
  (⟨s.nodes, graph.outputs.map fun o => s.reducedId.idxOf (comp.getD o 0),
    ⟨0, 0, 0, s.stages, s.nodes.length, s.boundaryNodes⟩, []⟩, s.landing)

/-- Group runs of operators into stages, and say where each node landed. -/
def stageFusion (graph : EngineGraph) (keys : List NodeKey) (mode : FusionMode) :
    Reduced × List Landing :=
  fuseComponents graph keys (mode.components graph)

end Graphed
