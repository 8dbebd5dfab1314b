import Graphed.Optimizer.Reduce

/-!
# Incremental reduction

The reducer consumes the arena delta by delta into a canonical arena of its own: an identity operator
collapses to its input, a symmetric operator takes its operands in structural-key order, and equal
nodes share one canonical node. Finishing runs the pipeline over the canonical arena.
-/

namespace Graphed

structure IncrementalReducer where
  canonNodes : List NodeKey
  canonTable : List (NodeKey × Nat)
  canonKeys : List (BitVec 128)
  map : List Nat
  totalWork : Nat

namespace IncrementalReducer

def new : IncrementalReducer := ⟨[], [], [], [], 0⟩

/-- How many nodes of the original arena were consumed. -/
def watermark (r : IncrementalReducer) : Nat := r.map.length

def canonicalCount (r : IncrementalReducer) : Nat := r.canonNodes.length

/-- The canonical node of a key, found or added. -/
def intern (r : IncrementalReducer) (key : NodeKey) : Nat × IncrementalReducer :=
  let inputKeys := key.inputs.map (r.canonKeys.getD · 0)
  let key := orient key inputKeys
  match r.canonTable.find? fun e => e.1 == key with
  | some e => (e.2, r)
  | none =>
      (r.canonNodes.length,
        { r with
          canonNodes := r.canonNodes ++ [key]
          canonTable := (key, r.canonNodes.length) :: r.canonTable
          canonKeys := r.canonKeys ++ [structuralKey key key.token inputKeys] })

/-- An identity operator of one input is its input; everything else is interned. -/
def canonicalize (r : IncrementalReducer) (key : NodeKey) : Nat × IncrementalReducer :=
  match key with
  | .op name params [only] =>
      if identityTokens.contains (NodeKey.op name params [only]).token then (only, r)
      else r.intern (.op name params [only])
  | key => r.intern key

/-- Record where a node of the original arena went. -/
def consume (r : IncrementalReducer) (key : NodeKey) : IncrementalReducer :=
  let canon := r.canonicalize (key.withInputs (key.inputs.map (r.map.getD · 0)))
  { canon.2 with map := canon.2.map ++ [canon.1] }

/-- Consume nodes in order, stopping at one that names a node not consumed before it. -/
def consumeAll (r : IncrementalReducer) : List NodeKey → Except BadNodeId Unit × IncrementalReducer
  | [] => (.ok (), r)
  | key :: keys =>
      match key.inputs.find? fun i => decide (r.map.length ≤ i) with
      | some bad => (.error ⟨bad⟩, r)
      | none => (r.consume key).consumeAll keys

/-- Consume the nodes recorded since the last step, and count them. -/
def step (r : IncrementalReducer) (delta : List NodeKey) :
    Except BadNodeId Nat × IncrementalReducer :=
  match r.consumeAll delta with
  | (.error bad, r) => (.error bad, r)
  | (.ok (), r) => (.ok delta.length, { r with totalWork := r.totalWork + delta.length })

/-- Reduce the canonical arena for outputs named in the original one. -/
def finalize (r : IncrementalReducer) (outputs : List Nat) (engine : EggEngine)
    (mode : FusionMode) : Except BadNodeId Reduced :=
  match outputs.find? fun o => decide (r.map.length ≤ o) with
  | some bad => .error ⟨bad⟩
  | none =>
      let red := reduceOriented r.canonNodes (outputs.map (r.map.getD · 0)) none engine mode
      .ok { red with nodeMap := r.map.map fun c => red.nodeMap.getD c none }

end IncrementalReducer

end Graphed
