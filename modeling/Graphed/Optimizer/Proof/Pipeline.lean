import Graphed.Optimizer.Proof.Cse
import Graphed.Optimizer.Proof.DeadCode
import Graphed.Optimizer.Proof.Rebuild
import Graphed.Optimizer.Reduce
import Graphed.Optimizer.Rules

/-!
# The pipeline, pass by pass

The graphs the passes hand on, and the four re-indexings composed: a kept node goes to its class in
the deduped graph, and from there to its component's reduced node.
-/

namespace Graphed

open FirstSeen GraphStore

variable {nodes : List NodeKey} {swap : Option (List Bool)}

/-! ### The hypotheses of the passes -/

theorem swapped_symmetricSwaps {i : Nat} (h : Swapped (some (symmetricSwaps nodes)) i) :
    i < nodes.length ∧ isSymmetric (nodes.getD i default) = true := by
  simp only [Swapped, Option.map_some, Option.getD_some, symmetricSwaps,
    List.getD_eq_getElem?_getD, List.getElem?_map] at h
  cases hkey : nodes[i]? with
  | none => simp [hkey] at h
  | some key =>
      rw [hkey, Option.map_some, Option.getD_some] at h
      refine ⟨(List.getElem?_eq_some_iff.mp hkey).1, ?_⟩
      rw [List.getD_eq_getElem?_getD, hkey, Option.getD_some]
      unfold swaps at h
      split at h
      · exact (Bool.and_eq_true_iff.mp h).2
      · exact absurd h (by decide)

/-- `symmetricSwaps` marks nodes with two inputs only. -/
theorem swapsPairs_symmetricSwaps (nodes : List NodeKey) :
    SwapsPairs nodes (some (symmetricSwaps nodes)) := by
  intro i h
  exact List.length_eq_two.mp ((isSymmetric_iff _).mp (swapped_symmetricSwaps h).2).2

theorem swapsPairs_none (nodes : List NodeKey) : SwapsPairs nodes none := by
  intro i h
  exact absurd h (by simp [Swapped])

theorem template_spec {keys : List NodeKey} {token : String} (h : ∃ k ∈ keys, k.token = token) :
    template keys token ∈ keys ∧ (template keys token).token = token := by
  obtain ⟨k, hk, htoken⟩ := h
  unfold template
  cases hfind : keys.find? fun k => k.token == token with
  | none => exact absurd (List.find?_eq_none.mp hfind k hk) (by simp [htoken])
  | some k' =>
      exact ⟨List.mem_of_find?_eq_some hfind, by simpa using List.find?_some hfind⟩

/-- A token says whether its node is a source. -/
theorem isSource_of_token {a b : NodeKey} (h : a.token = b.token) : a.isSource = b.isSource := by
  have hop := congrArg NodeKey.isSource (NodeKey.token_inj.mp h)
  have hcanon : ∀ key : NodeKey, key.canon.isSource = key.isSource := by
    intro key
    cases key <;> rfl
  simpa [NodeKey.operator, hcanon] using hop

/-! ### The graphs between the passes -/

section Graphs

variable (htopo : TopologicalKeys nodes) (swap : Option (List Bool)) (outputs : List Nat)

/-- The kept keys, in post-order. -/
def keptKeys : List NodeKey :=
  (reached htopo swap outputs).map (keptKey nodes swap (reached htopo swap outputs))

def keptGraph : EngineGraph :=
  toEngineGraph (keptKeys htopo swap outputs) (outputs.map (reached htopo swap outputs).idxOf)

/-- The graph after the engine and CSE. -/
def dedupedGraph (engine : EggEngine) : EngineGraph :=
  (cse (engine.canonicalize (keptGraph htopo swap outputs)).1).1

/-- A kept node's place in the deduped graph. -/
def dedupedMap (engine : EggEngine) : List Nat :=
  (engine.canonicalize (keptGraph htopo swap outputs)).2.map
    ((cse (engine.canonicalize (keptGraph htopo swap outputs)).1).2.getD · 0)

end Graphs

section Kept

variable (htopo : TopologicalKeys nodes) {outputs : List Nat}

theorem length_keptGraph : (keptGraph htopo swap outputs).nodes.length =
    (reached htopo swap outputs).length := by
  simp [keptGraph, toEngineGraph, keptKeys]

theorem inputs_keptKey (hpairs : SwapsPairs nodes swap) (kept : List Nat) (i : Nat) :
    (keptKey nodes swap kept i).inputs = (operands nodes swap i).map kept.idxOf := by
  refine NodeKey.inputs_withInputs fun h => ?_
  have hnil : inputsAt nodes i = [] := NodeKey.inputs_of_isSource h
  have hlen := length_operands hpairs i
  rw [hnil, List.length_nil, List.length_eq_zero_iff] at hlen
  rw [hlen, List.map_nil]

/-- A kept node's operator, boundary mark and renumbered operands. -/
theorem getElem?_keptGraph (hpairs : SwapsPairs nodes swap) {k : Nat}
    (hk : k < (reached htopo swap outputs).length) :
    (keptGraph htopo swap outputs).nodes[k]? =
      some ⟨(nodes.getD (reached htopo swap outputs)[k] default).token,
        (nodes.getD (reached htopo swap outputs)[k] default).isBoundary,
        (operands nodes swap (reached htopo swap outputs)[k]).map
          (reached htopo swap outputs).idxOf⟩ := by
  rw [keptGraph, getElem?_toEngineGraph, keptKeys, List.getElem?_map, List.getElem?_eq_getElem hk]
  simp only [Option.map_some, inputs_keptKey hpairs]
  simp [keptKey]

theorem getElem_reached_idxOf {i : Nat} (hi : i ∈ reached htopo swap outputs) :
    (reached htopo swap outputs)[(reached htopo swap outputs).idxOf i]? = some i := by
  have hlt := List.idxOf_lt_length_of_mem hi
  rw [List.getElem?_eq_getElem hlt, List.getElem_idxOf hlt]

theorem keptGraph_topological (hpairs : SwapsPairs nodes swap) :
    (keptGraph htopo swap outputs).Topological where
  inputs_lt := by
    intro k node hnode x hx
    have hk : k < (reached htopo swap outputs).length := by
      rw [← length_keptGraph htopo]
      exact (List.getElem?_eq_some_iff.mp hnode).1
    rw [getElem?_keptGraph htopo hpairs hk] at hnode
    obtain rfl := Option.some.inj hnode
    obtain ⟨y, hy, rfl⟩ := List.mem_map.mp hx
    have hlt := idxOf_operand_lt htopo (List.getElem_mem hk) hy
    rwa [(nodup_reached htopo).idxOf_getElem] at hlt
  outputs_lt := by
    intro o ho
    rw [length_keptGraph]
    obtain ⟨x, hx, rfl⟩ := List.mem_map.mp ho
    exact List.idxOf_lt_length_of_mem (mem_reached_of_mem htopo hx)

theorem keptGraph_tagged : (keptGraph htopo swap outputs).Tagged := tagged_toEngineGraph _ _

variable (engine : EggEngine)

theorem canonicalized_quotient (hpairs : SwapsPairs nodes swap) :
    (keptGraph htopo swap outputs).Quotient
      (engine.canonicalize (keptGraph htopo swap outputs)).1
      (engine.canonicalize (keptGraph htopo swap outputs)).2 :=
  engine.canonicalize_quotient (keptGraph_topological htopo hpairs) (keptGraph_tagged htopo)

theorem deduped_quotient (hpairs : SwapsPairs nodes swap) :
    (keptGraph htopo swap outputs).Quotient (dedupedGraph htopo swap outputs engine)
      (dedupedMap htopo swap outputs engine) :=
  (canonicalized_quotient htopo engine hpairs).comp (keptGraph_topological htopo hpairs)
    (cse_quotient ((canonicalized_quotient htopo engine hpairs).topological
      (keptGraph_topological htopo hpairs)))

theorem deduped_topological (hpairs : SwapsPairs nodes swap) :
    (dedupedGraph htopo swap outputs engine).Topological :=
  (deduped_quotient htopo engine hpairs).topological (keptGraph_topological htopo hpairs)

/-- No two nodes of the deduped graph have one token and one input list. -/
theorem deduped_distinct (hpairs : SwapsPairs nodes swap) {c d : Nat} {m n : EngineNode}
    (hm : (dedupedGraph htopo swap outputs engine).nodes[c]? = some m)
    (hn : (dedupedGraph htopo swap outputs engine).nodes[d]? = some n)
    (htoken : m.token = n.token) (hins : m.inputs = n.inputs) : c = d :=
  cse_distinct ((canonicalized_quotient htopo engine hpairs).topological
    (keptGraph_topological htopo hpairs)) hm hn htoken hins

/-- A deduped node is the first kept node of its class. -/
theorem exists_kept (hpairs : SwapsPairs nodes swap) {c : Nat} {m : EngineNode}
    (hm : (dedupedGraph htopo swap outputs engine).nodes[c]? = some m) :
    ∃ i ∈ reached htopo swap outputs,
      (dedupedMap htopo swap outputs engine).getD ((reached htopo swap outputs).idxOf i) 0 = c ∧
      m.token = (nodes.getD i default).token ∧
      m.boundary = (nodes.getD i default).isBoundary ∧
      m.inputs = (operands nodes swap i).map fun x =>
        (dedupedMap htopo swap outputs engine).getD ((reached htopo swap outputs).idxOf x) 0 := by
  have hq : (keptGraph htopo swap outputs).Quotient _ _ := deduped_quotient htopo engine hpairs
  obtain ⟨node, hnode, hval, rfl⟩ := hq.exists_first hm
  have hk : (dedupedMap htopo swap outputs engine).idxOf c <
      (reached htopo swap outputs).length := by
    rw [← length_keptGraph htopo]
    exact (List.getElem?_eq_some_iff.mp hnode).1
  rw [getElem?_keptGraph htopo hpairs hk] at hnode
  obtain rfl := Option.some.inj hnode
  refine ⟨_, List.getElem_mem hk, ?_, rfl, rfl, ?_⟩
  · rw [(nodup_reached htopo).idxOf_getElem, hval]
  · rw [List.map_map]
    rfl

/-- **The pipeline composed.** The reduced nodes are the components of the deduped graph, and an
arena node lands where its class's component does. -/
theorem reduceOriented_eq (hpairs : SwapsPairs nodes swap)
    (houtputs : ∀ o ∈ outputs, o < nodes.length) (mode : FusionMode) :
    let d := dedupedGraph htopo swap outputs engine
    let comp := mode.components d
    let red := reduceOriented nodes outputs swap engine mode
    red.nodes = (sortedComponents comp).map
        (componentNode d (keptKeys htopo swap outputs) comp (sortedComponents comp)) ∧
      red.outputs = d.outputs.map (fun o => (sortedComponents comp).idxOf (comp.getD o 0)) ∧
      red.nodeMap = (List.range nodes.length).map fun i =>
        if i ∈ reached htopo swap outputs then
          some (landingOf d comp (sortedComponents comp)
            ((dedupedMap htopo swap outputs engine).getD
              ((reached htopo swap outputs).idxOf i) 0))
        else none := by
  have hg : (dedupedGraph htopo swap outputs engine).Topological :=
    deduped_topological htopo engine hpairs
  have hplan := mode.plan hg
  obtain ⟨hnodes, houts, hland⟩ := fuseComponents_eq hplan hg (keptKeys htopo swap outputs)
  have hdce := deadCodeElimination_eq htopo hpairs houtputs
  intro d comp red
  refine ⟨?_, ?_, ?_⟩
  · rw [← hnodes]
    simp only [red, reduceOriented, hdce, stageFusion]
    rfl
  · rw [← houts]
    simp only [red, reduceOriented, hdce, stageFusion]
    rfl
  · simp only [red, reduceOriented, hdce, stageFusion, List.map_map]
    refine List.map_congr_left fun i hi => ?_
    rw [Function.comp_apply]
    split_ifs with hmem
    · have hk : (reached htopo swap outputs).idxOf i <
          (engine.canonicalize (keptGraph htopo swap outputs)).2.length := by
        rw [(canonicalized_quotient htopo engine hpairs).length_eq, length_keptGraph]
        exact List.idxOf_lt_length_of_mem hmem
      have hlt : (dedupedMap htopo swap outputs engine).getD
          ((reached htopo swap outputs).idxOf i) 0 < d.nodes.length := by
        refine (deduped_quotient htopo engine hpairs).numbering.getD_lt ?_
        simpa [dedupedMap] using hk
      rw [Option.map_some, ← hland _ hlt, dedupedMap, EngineGraph.Quotient.getD_comp hk]
      rfl
    · rfl

include htopo in
/-- The reduced graph names earlier nodes, and its outputs are nodes. -/
theorem reduceOriented_topological (hpairs : SwapsPairs nodes swap)
    (houtputs : ∀ o ∈ outputs, o < nodes.length) (mode : FusionMode) :
    TopologicalKeys (reduceOriented nodes outputs swap engine mode).nodes ∧
      ∀ o ∈ (reduceOriented nodes outputs swap engine mode).outputs,
        o < (reduceOriented nodes outputs swap engine mode).nodes.length := by
  have hg : (dedupedGraph htopo swap outputs engine).Topological :=
    deduped_topological htopo engine hpairs
  obtain ⟨hnodes, houts, -⟩ := reduceOriented_eq htopo engine hpairs houtputs mode
  rw [hnodes, houts]
  refine ⟨topologicalKeys_componentNodes (mode.plan hg) hg _, fun o ho => ?_⟩
  obtain ⟨x, hx, rfl⟩ := List.mem_map.mp ho
  rw [List.length_map]
  exact List.idxOf_lt_length_of_mem
    (mem_sortedComponents.mpr ((mode.plan hg).getD_mem (hg.outputs_lt x hx)))

end Kept

end Graphed
