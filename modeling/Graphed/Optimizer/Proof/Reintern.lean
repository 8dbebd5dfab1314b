import Graphed.Optimizer.Reduce

/-!
# Re-interning a reduced graph

A topological list of nodes is re-interned without failure. Nodes that spell one key once their
inputs are remapped become one node, at its first place, and the result keeps the store's invariant.
-/

namespace Graphed

open FirstSeen

namespace GraphStore

/-- What re-interning has done after the nodes `pre`. -/
structure Reinterned (pre : List NodeKey) (acc : GraphStore × List Nat) : Prop where
  interned : acc.1.Interned
  outputs_nil : acc.1.outputs = []
  length_eq : acc.2.length = pre.length
  numbering : IdNumbering acc.2 acc.1.nodes.length
  node_eq : ∀ (r : Nat) (key : NodeKey), pre[r]? = some key → ∃ k : NodeKey,
    acc.1.nodes[acc.2.getD r 0]? = some k ∧
      k.canon = (key.withInputs (key.inputs.map (acc.2.getD · 0))).canon ∧
      (acc.2.idxOf (acc.2.getD r 0) = r → k = key.withInputs (key.inputs.map (acc.2.getD · 0)))

theorem reinterned_new : Reinterned [] (new, []) :=
  ⟨interned_new, rfl, rfl, rfl, by simp⟩

theorem reinterned_step {pre : List NodeKey} {acc : GraphStore × List Nat}
    (hacc : Reinterned pre acc) {key : NodeKey}
    (hpre : ∀ (r : Nat) (k : NodeKey), pre[r]? = some k → ∀ j ∈ k.inputs, j < r)
    (hinputs : ∀ j ∈ key.inputs, j < pre.length) :
    Reinterned (pre ++ [key]) (reintern acc key) := by
  have hold : ∀ id j, j < pre.length → (acc.2 ++ [id]).getD j 0 = acc.2.getD j 0 := by
    intro id j hj
    rw [List.getD_eq_getElem?_getD, List.getD_eq_getElem?_getD,
      List.getElem?_append_left (hacc.length_eq ▸ hj)]
  have hlast : ∀ id, (acc.2 ++ [id]).getD pre.length 0 = id := by
    intro id
    rw [List.getD_eq_getElem?_getD, ← hacc.length_eq, List.getElem?_append_right (Nat.le_refl _),
      Nat.sub_self]
    rfl
  have hmap : ∀ id, key.inputs.map (acc.2.getD · 0) =
      key.inputs.map ((acc.2 ++ [id]).getD · 0) := fun id =>
    List.map_congr_left fun j hj => (hold id j (hinputs j hj)).symm
  -- the nodes before keep what they had, whichever id the new node is given
  have hkeep : ∀ (nodes' : List NodeKey) id, acc.1.nodes <+: nodes' →
      ∀ (r : Nat) (k : NodeKey), r < pre.length → pre[r]? = some k → ∃ k' : NodeKey,
        nodes'[(acc.2 ++ [id]).getD r 0]? = some k' ∧
        k'.canon = (k.withInputs (k.inputs.map ((acc.2 ++ [id]).getD · 0))).canon ∧
        ((acc.2 ++ [id]).idxOf ((acc.2 ++ [id]).getD r 0) = r →
          k' = k.withInputs (k.inputs.map ((acc.2 ++ [id]).getD · 0))) := by
    intro nodes' id hkept r k hr hk
    obtain ⟨k', hget, hcanon, hfirst⟩ := hacc.node_eq r k hk
    have hmem : acc.2.getD r 0 ∈ acc.2 := by
      rw [getD_eq_getElem (hacc.length_eq ▸ hr)]
      exact List.getElem_mem _
    have hsame : k.inputs.map ((acc.2 ++ [id]).getD · 0) = k.inputs.map (acc.2.getD · 0) :=
      List.map_congr_left fun j hj => hold id j ((hpre r k hk j hj).trans hr)
    refine ⟨k', ?_, by rw [hsame, hcanon], fun h => ?_⟩
    · obtain ⟨rest, rfl⟩ := hkept
      rw [hold id r hr, List.getElem?_append_left (List.getElem?_eq_some_iff.mp hget).1, hget]
    · rw [hold id r hr, List.idxOf_append_of_mem hmem] at h
      rw [hsame, hfirst h]
  have hvalid : ∀ i ∈ (key.withInputs (key.inputs.map (acc.2.getD · 0))).inputs,
      i < acc.1.nodes.length := by
    intro i hi
    rw [NodeKey.inputs_withInputs_map] at hi
    obtain ⟨j, hj, rfl⟩ := List.mem_map.mp hi
    exact hacc.numbering.getD_lt (hacc.length_eq ▸ hinputs j hj)
  have hlen : ∀ r, r < (pre ++ [key]).length → r < pre.length ∨ r = pre.length := by
    intro r hr
    rw [List.length_append, List.length_singleton] at hr
    omega
  rcases acc.1.intern_cases (key.withInputs (key.inputs.map (acc.2.getD · 0))) with
    ⟨i, hi, hbad, -⟩ | ⟨-, ⟨id, hlookup, hintern⟩ | ⟨hnew, hintern⟩⟩
  · exact absurd (hvalid i hi) (Nat.not_lt.mpr hbad)
  · -- an equal node is held already
    have hstep : reintern acc key = (acc.1, acc.2 ++ [id]) := by
      rw [reintern, addKey, hintern]
    obtain ⟨k, hk, hbeq⟩ := (hacc.interned.lookup_iff _ _).mp hlookup
    have hid : id < acc.1.nodes.length := (List.getElem?_eq_some_iff.mp hk).1
    rw [hstep]
    refine ⟨hacc.interned, hacc.outputs_nil, by simp [hacc.length_eq], ?_, fun r k' hk' => ?_⟩
    · rw [IdNumbering, firsts_concat, hacc.numbering, insertNew_of_mem (List.mem_range.mpr hid)]
    · rcases hlen r (List.getElem?_eq_some_iff.mp hk').1 with hr | rfl
      · rw [List.getElem?_append_left hr] at hk'
        exact hkeep _ id List.prefix_rfl r k' hr hk'
      · rw [List.getElem?_append_right (Nat.le_refl _), Nat.sub_self, List.getElem?_singleton,
          if_pos rfl] at hk'
        obtain rfl := Option.some.inj hk'
        simp only
        refine ⟨k, by rw [hlast, hk], ?_, fun h => ?_⟩
        · rw [← hmap id]
          exact NodeKey.beq_iff.mp hbeq
        · have hmem := hacc.numbering.mem_iff.mpr hid
          rw [hlast, List.idxOf_append_of_mem hmem] at h
          have hlt := List.idxOf_lt_length_of_mem hmem
          rw [h, hacc.length_eq] at hlt
          exact absurd hlt (Nat.lt_irrefl _)
  · have hstep : reintern acc key =
        (acc.1.push (key.withInputs (key.inputs.map (acc.2.getD · 0))),
          acc.2 ++ [acc.1.nodes.length]) := by
      rw [reintern, addKey, hintern]
    rw [hstep]
    refine ⟨hacc.interned.push hvalid hnew, hacc.outputs_nil, by simp [hacc.length_eq], ?_,
      fun r k' hk' => ?_⟩
    · simp only [push]
      rw [IdNumbering, firsts_concat, hacc.numbering, insertNew_of_notMem (by simp),
        List.length_append, List.length_singleton, List.range_succ]
    · rcases hlen r (List.getElem?_eq_some_iff.mp hk').1 with hr | rfl
      · rw [List.getElem?_append_left hr] at hk'
        exact hkeep _ _ (List.prefix_append _ _) r k' hr hk'
      · rw [List.getElem?_append_right (Nat.le_refl _), Nat.sub_self, List.getElem?_singleton,
          if_pos rfl] at hk'
        obtain rfl := Option.some.inj hk'
        simp only
        refine ⟨_, ?_, by rw [← hmap], fun _ => by rw [← hmap]⟩
        rw [hlast, push, List.getElem?_append_right (Nat.le_refl _), Nat.sub_self]
        rfl

/-- Re-interning a topological list. -/
theorem reinterned_foldl {keys : List NodeKey} (h : TopologicalKeys keys) :
    Reinterned keys (keys.foldl reintern (new, [])) := by
  induction keys using List.reverseRecOn with
  | nil => exact reinterned_new
  | append_singleton keys key ih =>
      have hpre : TopologicalKeys keys := by
        intro r k hk
        exact h r k (by rw [List.getElem?_append_left (List.getElem?_eq_some_iff.mp hk).1, hk])
      rw [List.foldl_append, List.foldl_cons, List.foldl_nil]
      exact reinterned_step (ih hpre) hpre (h _ _ (by simp))

/-- Where each reduced node was re-interned. -/
def reinternMap (red : Reduced) : List Nat := (red.nodes.foldl reintern (new, [])).2

/-- **What rebuilding a reduced graph gives.** -/
theorem fromReduced_spec {red : Reduced} (h : TopologicalKeys red.nodes)
    (houts : ∀ o ∈ red.outputs, o < red.nodes.length) :
    (fromReduced red).1.Interned ∧
      IdNumbering (reinternMap red) (fromReduced red).1.nodes.length ∧
      (reinternMap red).length = red.nodes.length ∧
      (∀ (r : Nat) (key : NodeKey), red.nodes[r]? = some key → ∃ k : NodeKey,
        (fromReduced red).1.nodes[(reinternMap red).getD r 0]? = some k ∧
          k.canon = (key.withInputs (key.inputs.map ((reinternMap red).getD · 0))).canon ∧
          ((reinternMap red).idxOf ((reinternMap red).getD r 0) = r →
            k = key.withInputs (key.inputs.map ((reinternMap red).getD · 0)))) ∧
      (fromReduced red).1.outputs = firsts (red.outputs.map ((reinternMap red).getD · 0)) ∧
      (fromReduced red).1.nodeMap =
        red.nodeMap.map fun landed => landed.map fun l => ((reinternMap red).getD l.1 0, l.2) := by
  have hacc := reinterned_foldl h
  have hlt : ∀ o ∈ red.outputs.map ((red.nodes.foldl reintern (new, [])).2.getD · 0),
      o < (red.nodes.foldl reintern (new, [])).1.nodes.length := by
    intro o ho
    obtain ⟨r, hr, rfl⟩ := List.mem_map.mp ho
    exact hacc.numbering.getD_lt (hacc.length_eq ▸ houts r hr)
  obtain ⟨hinterned, hnodes, houtputs⟩ := foldl_markOutput hacc.interned _ hlt
  rw [hacc.outputs_nil, List.foldl_map, List.foldl_map] at houtputs
  rw [List.foldl_map] at hinterned hnodes
  have hnodes' : (fromReduced red).1.nodes = (red.nodes.foldl reintern (new, [])).1.nodes := hnodes
  refine ⟨⟨hinterned.distinct, hinterned.inputs_lt, hinterned.lookup_iff, hinterned.outputs_lt,
    hinterned.outputs_nodup⟩, ?_, hacc.length_eq, fun r key hkey => ?_, ?_, rfl⟩
  · rw [hnodes']
    exact hacc.numbering
  · rw [hnodes']
    exact hacc.node_eq r key hkey
  · rw [firsts, List.foldl_map]
    exact houtputs

end GraphStore

end Graphed
