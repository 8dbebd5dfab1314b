import Graphed.Optimizer.Fusion
import Graphed.Optimizer.Passes

/-!
# The reduction pipeline

DCE with oriented operands, canonicalization by the engine, CSE, stage fusion, and a re-intern into a
fresh store. The record to reduced correspondence is the four re-indexings composed.
-/

namespace Graphed

/-- Reduce an arena whose symmetric operators `swap` orients. -/
def reduceOriented (nodes : List NodeKey) (outputs : List Nat) (swap : Option (List Bool))
    (engine : EggEngine) (mode : FusionMode) : Reduced :=
  let dce := deadCodeElimination nodes outputs swap
  let canonical := engine.canonicalize (toEngineGraph dce.1 dce.2.1)
  let deduped := cse canonical.1
  let fused := stageFusion deduped.1 dce.1 mode
  { fused.1 with
    report := { fused.1.report with
      inputNodes := nodes.length
      reachableNodes := dce.1.length
      canonicalNodes := deduped.1.nodes.length }
    nodeMap := dce.2.2.map fun d =>
      d.map fun d => fused.2.getD (deduped.2.getD (canonical.2.getD d 0) 0) (0, none) }

/-- The full reduction of an interned arena. -/
def reduceWithMode (nodes : List NodeKey) (outputs : List Nat) (engine : EggEngine)
    (mode : FusionMode) : Reduced :=
  reduceOriented nodes outputs (some (symmetricSwaps nodes)) engine mode

namespace GraphStore

/-- Re-intern one reduced node, its inputs remapped. A reduced graph names earlier nodes only, so
interning does not fail. -/
def reintern (acc : GraphStore × List Nat) (key : NodeKey) : GraphStore × List Nat :=
  match acc.1.addKey (key.withInputs (key.inputs.map (acc.2.getD · 0))) with
  | (.ok id, s) => (s, acc.2 ++ [id])
  | (.error _, s) => (s, acc.2)

/-- Rebuild a reduced graph into a fresh interned store. -/
def fromReduced (red : Reduced) : GraphStore × ReductionReport :=
  let acc := red.nodes.foldl reintern (new, [])
  let marked := red.outputs.foldl (fun s o => (s.markOutput (acc.2.getD o 0)).2) acc.1
  ({ marked with
      nodeMap := red.nodeMap.map fun landed => landed.map fun l => (acc.2.getD l.1 0, l.2) },
    red.report)

/-- Reduce against the marked outputs. -/
def reduceWith (s : GraphStore) (engine : EggEngine) (mode : FusionMode) :
    GraphStore × ReductionReport :=
  fromReduced (reduceWithMode s.nodes s.outputs engine mode)

def reduce (s : GraphStore) (engine : EggEngine) : GraphStore × ReductionReport :=
  s.reduceWith engine .singleUse

/-- Reduce against an explicit output list. -/
def reduceWithOutputs (s : GraphStore) (outputs : List Nat) (engine : EggEngine)
    (mode : FusionMode) : Except BadNodeId (GraphStore × ReductionReport) :=
  match s.arenaHolding outputs with
  | .error bad => .error bad
  | .ok nodes => .ok (fromReduced (reduceWithMode nodes outputs engine mode))

/-- The cone of the outputs, rebuilt into a fresh store without the rewrites. -/
def cone (s : GraphStore) (outputs : List Nat) : Except BadNodeId GraphStore :=
  match s.arenaHolding outputs with
  | .error bad => .error bad
  | .ok nodes =>
      let dce := deadCodeElimination nodes outputs none
      .ok (fromReduced ⟨dce.1, dce.2.1, .zero,
        dce.2.2.map fun r => r.map fun r => (r, none)⟩).1

/-- An explicit request is refused only for an id the arena does not hold. -/
theorem reduceWithOutputs_eq_ok {s : GraphStore} {outputs : List Nat} {engine : EggEngine}
    {mode : FusionMode} {r : GraphStore × ReductionReport} :
    s.reduceWithOutputs outputs engine mode = .ok r ↔ (∀ o ∈ outputs, o < s.nodes.length) ∧
      r = fromReduced (reduceWithMode s.nodes outputs engine mode) := by
  unfold reduceWithOutputs
  cases hheld : s.arenaHolding outputs with
  | error bad =>
      simp only [reduceCtorEq, false_iff, not_and]
      intro hvalid
      rw [arenaHolding_eq_ok.mpr ⟨rfl, hvalid⟩] at hheld
      exact absurd hheld (by simp)
  | ok nodes =>
      obtain ⟨rfl, hvalid⟩ := arenaHolding_eq_ok.mp hheld
      simp only [Except.ok.injEq]
      exact ⟨fun h => ⟨hvalid, h.symm⟩, fun h => h.2.symm⟩

end GraphStore

end Graphed
