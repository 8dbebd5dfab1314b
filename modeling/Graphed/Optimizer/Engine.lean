import Graphed.Core.Token
import Graphed.Library.FirstSeen

/-!
# The rewrite engine

The engine sees operators as tokens. It loads the graph into an e-graph, runs commutativity and
identity rules, and keeps the earliest node of each equivalence class. The e-graph library is a
parameter: `EggEngine.eclass` is the class it answers for a node after the run, and nothing is
assumed of it here.
-/

namespace Graphed

open FirstSeen

/-- The symmetric binary operators of the frontend vocabulary. -/
def symmetricOps : List String := ["add", "mul", "and", "or", "eq", "ne", "maximum", "minimum"]

/-- Operators equal to their single input: `x + 0.0`, `0.0 + x`, `x * 1.0` and `1.0 * x`. -/
def identityTokens : List String :=
  ["op|add|scalar=f0000000000000000;side=sr", "op|add|scalar=f0000000000000000;side=sl",
    "op|mul|scalar=f3ff0000000000000;side=sr", "op|mul|scalar=f3ff0000000000000;side=sl"]

structure EngineNode where
  token : String
  boundary : Bool
  inputs : List Nat
deriving DecidableEq, Inhabited

structure EngineGraph where
  nodes : List EngineNode
  outputs : List Nat
deriving DecidableEq

def boundaryFromToken (token : String) : Bool := !("op|".toList.isPrefixOf token.toList)

/-- The engine over `egg`: the class each node has when the runner stops. -/
structure EggEngine where
  eclass : EngineGraph → Nat → Nat

/-- What extraction emitted so far. A class's position in `classes` is its entry of
`class_to_new`. -/
structure Extraction where
  classes : List Nat
  nodes : List EngineNode

/-- Emit a node when it is the earliest of its class. -/
def Extraction.step (canon : List Nat) (s : Extraction) (node : EngineNode × Nat) : Extraction :=
  let c := canon.getD node.2 0
  if canon.idxOf c = node.2 then
    { classes := s.classes ++ [c]
      nodes := s.nodes ++ [⟨node.1.token, boundaryFromToken node.1.token,
        node.1.inputs.map fun j => s.classes.idxOf (canon.getD j 0)⟩] }
  else s

def extract (canon : List Nat) (nodes : List EngineNode) : Extraction :=
  nodes.zipIdx.foldl (Extraction.step canon) ⟨[], []⟩

/-- Each node's class after the run. -/
def EggEngine.canon (engine : EggEngine) (graph : EngineGraph) : List Nat :=
  (List.range graph.nodes.length).map (engine.eclass graph)

/-- The canonical graph, and for every node the position of its class's representative. -/
def EggEngine.canonicalize (engine : EggEngine) (graph : EngineGraph) : EngineGraph × List Nat :=
  let canon := engine.canon graph
  let s := extract canon graph.nodes
  (⟨s.nodes, graph.outputs.map fun o => s.classes.idxOf (canon.getD o 0)⟩,
    canon.map s.classes.idxOf)

/-! ### Quotients of a graph -/

namespace EngineGraph

/-- Inputs come before their node, and outputs are nodes. -/
structure Topological (g : EngineGraph) : Prop where
  inputs_lt : ∀ (i : Nat) (node : EngineNode), g.nodes[i]? = some node → ∀ j ∈ node.inputs, j < i
  outputs_lt : ∀ o ∈ g.outputs, o < g.nodes.length

/-- `boundary` is read off the token. -/
def Tagged (g : EngineGraph) : Prop :=
  ∀ node ∈ g.nodes, node.boundary = boundaryFromToken node.token

/-- `h` has one node for each number of `φ`: the first node with that number, its inputs
renumbered. -/
structure Quotient (g h : EngineGraph) (φ : List Nat) : Prop where
  length_eq : φ.length = g.nodes.length
  numbering : IdNumbering φ h.nodes.length
  node_eq : ∀ (i : Nat) (node : EngineNode), g.nodes[i]? = some node → φ.idxOf (φ.getD i 0) = i →
    h.nodes[φ.getD i 0]? = some ⟨node.token, node.boundary, node.inputs.map (φ.getD · 0)⟩
  outputs_eq : h.outputs = g.outputs.map (φ.getD · 0)

namespace Quotient

variable {g h k : EngineGraph} {φ ψ : List Nat}

/-- Every node of a quotient is the first node of its class. -/
theorem exists_first (hq : Quotient g h φ) {c : Nat} {m : EngineNode} (hm : h.nodes[c]? = some m) :
    ∃ node : EngineNode, g.nodes[φ.idxOf c]? = some node ∧ φ.getD (φ.idxOf c) 0 = c ∧
      m = ⟨node.token, node.boundary, node.inputs.map (φ.getD · 0)⟩ := by
  have hc : c ∈ φ := hq.numbering.mem_iff.mpr (List.getElem?_eq_some_iff.mp hm).1
  have hlt : φ.idxOf c < g.nodes.length := hq.length_eq ▸ List.idxOf_lt_length_of_mem hc
  have hval := getD_idxOf hc
  have hnode := hq.node_eq _ _ (List.getElem?_eq_getElem hlt) (by rw [hval])
  rw [hval, hm] at hnode
  exact ⟨_, List.getElem?_eq_getElem hlt, hval, Option.some.inj hnode⟩

theorem topological (hq : Quotient g h φ) (hg : g.Topological) : h.Topological where
  inputs_lt := by
    intro c m hm x hx
    have hc : c < h.nodes.length := (List.getElem?_eq_some_iff.mp hm).1
    obtain ⟨node, hnode, -, rfl⟩ := hq.exists_first hm
    obtain ⟨j, hj, rfl⟩ := List.mem_map.mp hx
    exact hq.numbering.lt_of_lt_idxOf hc (hg.inputs_lt _ _ hnode j hj)
  outputs_lt := by
    intro o ho
    rw [hq.outputs_eq] at ho
    obtain ⟨x, hx, rfl⟩ := List.mem_map.mp ho
    exact hq.numbering.getD_lt (Nat.lt_of_lt_of_eq (hg.outputs_lt x hx) hq.length_eq.symm)

theorem tagged (hq : Quotient g h φ) (hg : g.Tagged) : h.Tagged := by
  intro m hm
  obtain ⟨c, hc⟩ := List.mem_iff_getElem?.mp hm
  obtain ⟨node, hnode, -, rfl⟩ := hq.exists_first hc
  exact hg node (List.mem_of_getElem? hnode)

omit g h k in
theorem getD_comp {i : Nat} (hi : i < φ.length) :
    (φ.map (ψ.getD · 0)).getD i 0 = ψ.getD (φ.getD i 0) 0 := by
  rw [getD_eq_getElem (by simpa using hi), List.getElem_map, getD_eq_getElem hi]

/-- A quotient of a quotient is a quotient. -/
theorem comp (hg : g.Topological) (hφ : Quotient g h φ) (hψ : Quotient h k ψ) :
    Quotient g k (φ.map (ψ.getD · 0)) where
  length_eq := by rw [List.length_map, hφ.length_eq]
  numbering := hφ.numbering.comp hψ.numbering hψ.length_eq
  node_eq := by
    intro i node hnode hfirst
    have hi : i < φ.length := hφ.length_eq ▸ (List.getElem?_eq_some_iff.mp hnode).1
    have hc : φ.getD i 0 < h.nodes.length := hφ.numbering.getD_lt hi
    have hval := getD_comp (ψ := ψ) hi
    -- an earlier node with the composite number would come first
    have hearliest : ∀ j, j < φ.length → ψ.getD (φ.getD j 0) 0 = ψ.getD (φ.getD i 0) 0 → i ≤ j := by
      intro j hj heq
      rw [← getD_comp (ψ := ψ) hj, ← getD_comp (ψ := ψ) hi] at heq
      rw [← hfirst, ← heq]
      exact idxOf_getD_le (by simpa using hj)
    have hfirstφ : φ.idxOf (φ.getD i 0) = i := by
      refine Nat.le_antisymm (idxOf_getD_le hi) (hearliest _ ?_ ?_)
      · exact List.idxOf_lt_length_of_mem (hφ.numbering.mem_iff.mpr hc)
      · rw [getD_idxOf (hφ.numbering.mem_iff.mpr hc)]
    have hfirstψ : ψ.idxOf (ψ.getD (φ.getD i 0) 0) = φ.getD i 0 := by
      refine Nat.le_antisymm (idxOf_getD_le (hψ.length_eq ▸ hc)) ?_
      by_contra hlt
      have hd : ψ.getD (φ.getD i 0) 0 ∈ ψ :=
        hψ.numbering.mem_iff.mpr (hψ.numbering.getD_lt (hψ.length_eq ▸ hc))
      have hbefore := hφ.numbering.idxOf_lt_idxOf hc (Nat.not_le.mp hlt)
      have hdlt : ψ.idxOf (ψ.getD (φ.getD i 0) 0) < h.nodes.length :=
        hψ.length_eq ▸ List.idxOf_lt_length_of_mem hd
      have hle := hearliest _ (List.idxOf_lt_length_of_mem (hφ.numbering.mem_iff.mpr hdlt)) (by
        rw [getD_idxOf (hφ.numbering.mem_iff.mpr hdlt), getD_idxOf hd])
      omega
    have hmid := hφ.node_eq i node hnode hfirstφ
    have hend := hψ.node_eq _ _ hmid hfirstψ
    rw [hval, hend, List.map_map]
    congr 2
    refine List.map_congr_left fun j hj => ?_
    have hji := hg.inputs_lt i node hnode j hj
    rw [getD_comp (ψ := ψ) (by omega), Function.comp_apply]
  outputs_eq := by
    rw [hψ.outputs_eq, hφ.outputs_eq, List.map_map]
    refine List.map_congr_left fun o ho => ?_
    rw [getD_comp (ψ := ψ) (hφ.length_eq ▸ hg.outputs_lt o ho), Function.comp_apply]

end Quotient

end EngineGraph

/-! ### Extraction is a quotient by the classes -/

section Extract

variable {canon : List Nat}

/-- What extraction has emitted after the nodes `pre`. -/
structure Extracted (canon : List Nat) (pre : List EngineNode) (s : Extraction) : Prop where
  classes_eq : s.classes = firsts (canon.take pre.length)
  length_eq : s.nodes.length = s.classes.length
  node_eq : ∀ (i : Nat) (node : EngineNode), pre[i]? = some node →
    canon.idxOf (canon.getD i 0) = i →
    s.nodes[s.classes.idxOf (canon.getD i 0)]? = some ⟨node.token, boundaryFromToken node.token,
      node.inputs.map fun j => s.classes.idxOf (canon.getD j 0)⟩

theorem extracted_step {pre : List EngineNode} {s : Extraction} (hs : Extracted canon pre s)
    {node : EngineNode} (hlen : pre.length < canon.length)
    (hpre : ∀ (i : Nat) (m : EngineNode), pre[i]? = some m → ∀ j ∈ m.inputs, j < i)
    (hinputs : ∀ j ∈ node.inputs, j < pre.length) :
    Extracted canon (pre ++ [node]) (Extraction.step canon s (node, pre.length)) := by
  have htake : canon.take (pre ++ [node]).length =
      canon.take pre.length ++ [canon.getD pre.length 0] := by
    rw [List.length_append, List.length_singleton, List.take_add_one,
      List.getElem?_eq_getElem hlen, getD_eq_getElem hlen, Option.toList_some]
  have hseen : ∀ j, j < pre.length → canon.getD j 0 ∈ s.classes := by
    intro j hj
    rw [hs.classes_eq, mem_firsts, getD_eq_getElem (by omega)]
    exact List.mem_take_iff_getElem.mpr ⟨j, by omega, rfl⟩
  have hmem : canon.idxOf (canon.getD pre.length 0) = pre.length ↔
      canon.getD pre.length 0 ∉ s.classes := by
    rw [hs.classes_eq, mem_firsts]
    constructor
    · intro h hmem
      rw [← h] at hmem
      exact notMem_take_idxOf canon _ (by rwa [h] at hmem ⊢)
    · intro h
      refine Nat.le_antisymm (idxOf_getD_le hlen) (Nat.not_lt.mp fun hlt => h ?_)
      have hin : canon.getD pre.length 0 ∈ canon := by
        rw [getD_eq_getElem hlen]
        exact List.getElem_mem hlen
      have hidx := List.idxOf_lt_length_of_mem hin
      exact List.mem_take_iff_getElem.mpr ⟨_, by omega, List.getElem_idxOf hidx⟩
  unfold Extraction.step
  by_cases hrep : canon.idxOf (canon.getD pre.length 0) = pre.length
  · rw [if_pos hrep]
    have hnew := hmem.mp hrep
    have hkeep : ∀ j, j < pre.length →
        (s.classes ++ [canon.getD pre.length 0]).idxOf (canon.getD j 0) =
          s.classes.idxOf (canon.getD j 0) := fun j hj => List.idxOf_append_of_mem (hseen j hj)
    refine ⟨?_, by simp [hs.length_eq], fun i m hm hfirst => ?_⟩
    · rw [htake, firsts_concat, ← hs.classes_eq, insertNew_of_notMem hnew]
    · rcases Nat.lt_or_ge i pre.length with hi | hi
      · rw [List.getElem?_append_left hi] at hm
        have hlt : s.classes.idxOf (canon.getD i 0) < s.nodes.length :=
          hs.length_eq ▸ List.idxOf_lt_length_of_mem (hseen i hi)
        rw [hkeep i hi, List.getElem?_append_left hlt, hs.node_eq i m hm hfirst]
        congr 2
        exact List.map_congr_left fun j hj => (hkeep j ((hpre i m hm j hj).trans hi)).symm
      · obtain rfl : i = pre.length := by
          have := (List.getElem?_eq_some_iff.mp hm).1
          simp only [List.length_append, List.length_singleton] at this
          omega
        rw [List.getElem?_append_right le_rfl, Nat.sub_self, List.getElem?_singleton,
          if_pos rfl] at hm
        obtain rfl := Option.some.inj hm
        rw [List.idxOf_append_of_notMem hnew, List.idxOf_cons_self, Nat.add_zero,
          ← hs.length_eq, List.getElem?_append_right le_rfl, Nat.sub_self,
          List.getElem?_singleton, if_pos rfl]
        congr 2
        exact List.map_congr_left fun j hj => (hkeep j (hinputs j hj)).symm
  · rw [if_neg hrep]
    refine ⟨?_, hs.length_eq, fun i m hm hfirst => ?_⟩
    · rw [htake, firsts_concat, ← hs.classes_eq, insertNew_of_mem (not_not.mp (mt hmem.mpr hrep))]
    · rcases Nat.lt_or_ge i pre.length with hi | hi
      · rw [List.getElem?_append_left hi] at hm
        exact hs.node_eq i m hm hfirst
      · obtain rfl : i = pre.length := by
          have := (List.getElem?_eq_some_iff.mp hm).1
          simp only [List.length_append, List.length_singleton] at this
          omega
        exact absurd hfirst hrep

theorem extracted_extract {nodes : List EngineNode} (hlen : canon.length = nodes.length)
    (hinputs : ∀ (i : Nat) (m : EngineNode), nodes[i]? = some m → ∀ j ∈ m.inputs, j < i) :
    Extracted canon nodes (extract canon nodes) := by
  suffices h : ∀ pre : List EngineNode, pre <+: nodes →
      Extracted canon pre (pre.zipIdx.foldl (Extraction.step canon) ⟨[], []⟩) from
    h nodes List.prefix_rfl
  intro pre
  induction pre using List.reverseRecOn with
  | nil => intro _; exact ⟨rfl, rfl, by simp⟩
  | append_singleton pre node ih =>
      intro hpre
      have hle := hpre.length_le
      rw [List.length_append, List.length_singleton] at hle
      have hinit : pre <+: nodes := (List.prefix_append pre [node]).trans hpre
      have hget : ∀ (i : Nat) (m : EngineNode), (pre ++ [node])[i]? = some m →
          nodes[i]? = some m := by
        intro i m hm
        obtain ⟨rest, hrest⟩ := hpre
        rw [← hrest, List.getElem?_append_left (List.getElem?_eq_some_iff.mp hm).1, hm]
      rw [List.zipIdx_append, List.foldl_append]
      simp only [List.zipIdx_singleton, List.foldl_cons, List.foldl_nil, Nat.zero_add]
      refine extracted_step (ih hinit) (by omega) (fun i m hm => ?_) ?_
      · refine hinputs i m (hget i m ?_)
        rw [List.getElem?_append_left (List.getElem?_eq_some_iff.mp hm).1, hm]
      · exact hinputs pre.length node (hget _ _ (by simp))

end Extract

namespace EggEngine

variable (engine : EggEngine) {g : EngineGraph}

@[simp]
theorem length_canon (g : EngineGraph) : (engine.canon g).length = g.nodes.length := by
  simp [canon]

theorem canon_getD {i : Nat} (hi : i < g.nodes.length) :
    (engine.canon g).getD i 0 = engine.eclass g i := by
  rw [getD_eq_getElem (by simpa using hi)]
  simp [canon]

theorem classes_extract (hg : g.Topological) :
    (extract (engine.canon g) g.nodes).classes = firsts (engine.canon g) := by
  have hclasses := (extracted_extract (engine.length_canon g) hg.inputs_lt).classes_eq
  rwa [← engine.length_canon g, List.take_length] at hclasses

theorem canonicalize_getD (hg : g.Topological) {i : Nat} (hi : i < g.nodes.length) :
    (engine.canonicalize g).2.getD i 0 =
      (firsts (engine.canon g)).idxOf ((engine.canon g).getD i 0) := by
  rw [getD_eq_getElem (by simpa [canonicalize] using hi), getD_eq_getElem (by simpa using hi)]
  simp [canonicalize, engine.classes_extract hg]

/-- Nodes are merged exactly when the engine puts them in one class. -/
theorem canonicalize_getD_eq_iff (hg : g.Topological) {i j : Nat} (hi : i < g.nodes.length)
    (hj : j < g.nodes.length) :
    (engine.canonicalize g).2.getD i 0 = (engine.canonicalize g).2.getD j 0 ↔
      engine.eclass g i = engine.eclass g j := by
  rw [engine.canonicalize_getD hg hi, engine.canonicalize_getD hg hj, ← engine.canon_getD hi,
    ← engine.canon_getD hj]
  refine List.idxOf_inj (mem_firsts.mpr ?_)
  rw [getD_eq_getElem (by simpa using hi)]
  exact List.getElem_mem _

/-- **Canonicalizing is a quotient** by the engine's classes. -/
theorem canonicalize_quotient (hg : g.Topological) (htag : g.Tagged) :
    g.Quotient (engine.canonicalize g).1 (engine.canonicalize g).2 := by
  have hs := extracted_extract (engine.length_canon g) hg.inputs_lt
  have hrenumber : ∀ xs : List Nat, (∀ x ∈ xs, x < g.nodes.length) →
      xs.map (fun j => (extract (engine.canon g) g.nodes).classes.idxOf
        ((engine.canon g).getD j 0)) = xs.map ((engine.canonicalize g).2.getD · 0) := by
    intro xs hxs
    refine List.map_congr_left fun x hx => ?_
    rw [engine.canonicalize_getD hg (hxs x hx), engine.classes_extract hg]
  refine ⟨by simp [canonicalize], ?_, fun i node hnode hfirst => ?_, ?_⟩
  · change IdNumbering ((engine.canon g).map _) (extract _ _).nodes.length
    rw [hs.length_eq, engine.classes_extract hg]
    exact numbering_idxOf_firsts _
  · have hi : i < g.nodes.length := (List.getElem?_eq_some_iff.mp hnode).1
    have hmem : (engine.canon g).getD i 0 ∈ engine.canon g := by
      rw [getD_eq_getElem (by simpa using hi)]
      exact List.getElem_mem _
    have hrep : (engine.canon g).idxOf ((engine.canon g).getD i 0) = i := by
      refine Nat.le_antisymm (idxOf_getD_le (by simpa using hi)) ?_
      have hfirstlt := List.idxOf_lt_length_of_mem hmem
      rw [engine.length_canon] at hfirstlt
      have hsame : (engine.canonicalize g).2.getD
          ((engine.canon g).idxOf ((engine.canon g).getD i 0)) 0 =
            (engine.canonicalize g).2.getD i 0 := by
        rw [engine.canonicalize_getD hg hfirstlt, engine.canonicalize_getD hg hi, getD_idxOf hmem]
      calc i = (engine.canonicalize g).2.idxOf ((engine.canonicalize g).2.getD i 0) := hfirst.symm
        _ ≤ (engine.canon g).idxOf ((engine.canon g).getD i 0) := by
          rw [← hsame]
          exact idxOf_getD_le (by simpa [canonicalize] using hfirstlt)
    have hout := hs.node_eq i node hnode hrep
    rw [engine.classes_extract hg, ← engine.canonicalize_getD hg hi,
      ← htag node (List.mem_of_getElem? hnode)] at hout
    change (extract _ _).nodes[_]? = _
    rw [hout, ← hrenumber node.inputs fun j hj => (hg.inputs_lt i node hnode j hj).trans hi,
      engine.classes_extract hg]
  · exact hrenumber g.outputs hg.outputs_lt

end EggEngine

end Graphed
