import Graphed.Optimizer.Passes

/-!
# CSE is a quotient

Hash-consing keeps the first node of each token and input list. Two nodes are merged exactly when
their tokens agree and their inputs were merged.
-/

namespace Graphed

open FirstSeen

/-- What CSE has done after the nodes `pre`. -/
structure Consed (pre : List EngineNode) (s : Cse) : Prop where
  length_eq : s.remap.length = pre.length
  numbering : IdNumbering s.remap s.nodes.length
  distinct : ∀ (c d : Nat) (m n : EngineNode), s.nodes[c]? = some m → s.nodes[d]? = some n →
    m.token = n.token → m.inputs = n.inputs → c = d
  node_eq : ∀ (i : Nat) (node : EngineNode), pre[i]? = some node → ∃ boundary,
    s.nodes[s.remap.getD i 0]? = some ⟨node.token, boundary, node.inputs.map (s.remap.getD · 0)⟩ ∧
      (s.remap.idxOf (s.remap.getD i 0) = i → boundary = node.boundary)

theorem consed_start : Consed [] ⟨[], []⟩ :=
  ⟨rfl, rfl, by simp, by simp⟩

theorem consed_step {pre : List EngineNode} {s : Cse} (hs : Consed pre s) {node : EngineNode}
    (hpre : ∀ (i : Nat) (m : EngineNode), pre[i]? = some m → ∀ j ∈ m.inputs, j < i)
    (hinputs : ∀ j ∈ node.inputs, j < pre.length) : Consed (pre ++ [node]) (s.step node) := by
  have hold : ∀ idx j, j < pre.length → (s.remap ++ [idx]).getD j 0 = s.remap.getD j 0 := by
    intro idx j hj
    rw [List.getD_eq_getElem?_getD, List.getD_eq_getElem?_getD,
      List.getElem?_append_left (hs.length_eq ▸ hj)]
  have hlast : ∀ idx, (s.remap ++ [idx]).getD pre.length 0 = idx := by
    intro idx
    rw [List.getD_eq_getElem?_getD, ← hs.length_eq, List.getElem?_append_right (Nat.le_refl _),
      Nat.sub_self]
    rfl
  have hmap : ∀ idx, node.inputs.map (s.remap.getD · 0) =
      node.inputs.map ((s.remap ++ [idx]).getD · 0) := fun idx =>
    List.map_congr_left fun j hj => (hold idx j (hinputs j hj)).symm
  -- what held of the nodes before holds whichever number the new node is given
  have hkeep : ∀ (nodes' : List EngineNode) idx, s.nodes <+: nodes' →
      ∀ (i : Nat) (m : EngineNode), i < pre.length → pre[i]? = some m → ∃ boundary,
        nodes'[(s.remap ++ [idx]).getD i 0]? =
          some ⟨m.token, boundary, m.inputs.map ((s.remap ++ [idx]).getD · 0)⟩ ∧
        ((s.remap ++ [idx]).idxOf ((s.remap ++ [idx]).getD i 0) = i → boundary = m.boundary) := by
    intro nodes' idx hpre i m hi hm
    obtain ⟨boundary, hnode, hfirst⟩ := hs.node_eq i m hm
    have hmem : s.remap.getD i 0 ∈ s.remap := by
      rw [getD_eq_getElem (hs.length_eq ▸ hi)]
      exact List.getElem_mem _
    refine ⟨boundary, ?_, fun h => hfirst ?_⟩
    · obtain ⟨rest, rfl⟩ := hpre
      rw [hold idx i hi, List.getElem?_append_left (List.getElem?_eq_some_iff.mp hnode).1, hnode]
      congr 2
      exact List.map_congr_left fun j hj => (hold idx j ((hpre i m hm j hj).trans hi)).symm
    · rwa [hold idx i hi, List.idxOf_append_of_mem hmem] at h
  have hlen : ∀ i, i < (pre ++ [node]).length → i < pre.length ∨ i = pre.length := by
    intro i hi
    rw [List.length_append, List.length_singleton] at hi
    omega
  unfold Cse.step
  simp only
  split_ifs with hfound
  · -- an equal node was kept before
    obtain ⟨found, hget, htoken, hins⟩ : ∃ m : EngineNode, s.nodes[s.nodes.findIdx fun m =>
        decide (m.token = node.token ∧ m.inputs = node.inputs.map (s.remap.getD · 0))]? = some m ∧
          m.token = node.token ∧ m.inputs = node.inputs.map (s.remap.getD · 0) :=
      ⟨_, List.getElem?_eq_getElem hfound, of_decide_eq_true (List.findIdx_getElem (w := hfound))⟩
    refine ⟨by simp [hs.length_eq], ?_, hs.distinct, fun i m hm => ?_⟩
    · rw [IdNumbering, firsts_concat, hs.numbering, insertNew_of_mem (List.mem_range.mpr hfound)]
    · rcases hlen i (List.getElem?_eq_some_iff.mp hm).1 with hi | rfl
      · rw [List.getElem?_append_left hi] at hm
        exact hkeep s.nodes _ List.prefix_rfl i m hi hm
      · rw [List.getElem?_append_right (Nat.le_refl _), Nat.sub_self, List.getElem?_singleton,
          if_pos rfl] at hm
        obtain rfl := Option.some.inj hm
        refine ⟨found.boundary, ?_, fun h => ?_⟩
        · simp only
          rw [hlast, hget, ← hmap, ← htoken, ← hins]
        · -- the number was handed out before, so this node is not its first
          have hmem := hs.numbering.mem_iff.mpr hfound
          rw [hlast, List.idxOf_append_of_mem hmem] at h
          have hlt := List.idxOf_lt_length_of_mem hmem
          rw [h, hs.length_eq] at hlt
          exact absurd hlt (Nat.lt_irrefl _)
  · have hidx : s.nodes.findIdx (fun m => decide (m.token = node.token ∧
        m.inputs = node.inputs.map (s.remap.getD · 0))) = s.nodes.length :=
      Nat.le_antisymm List.findIdx_le_length (Nat.not_lt.mp hfound)
    have hnew : ∀ m ∈ s.nodes, ¬ (m.token = node.token ∧
        m.inputs = node.inputs.map (s.remap.getD · 0)) := by
      intro m hm hmatch
      exact hfound (List.findIdx_lt_length_of_exists ⟨m, hm, decide_eq_true hmatch⟩)
    rw [hidx]
    refine ⟨by simp [hs.length_eq], ?_, fun c d m n hm hn htoken hins => ?_, fun i m hm => ?_⟩
    · rw [IdNumbering, firsts_concat, hs.numbering, insertNew_of_notMem (by simp),
        List.length_append, List.length_singleton, List.range_succ]
    · simp only [List.getElem?_append, List.getElem?_singleton] at hm hn
      split_ifs at hm hn with hc hd hd' hc' hd
      · exact hs.distinct c d m n hm hn htoken hins
      · obtain rfl := Option.some.inj hn
        exact absurd ⟨htoken, hins⟩ (hnew m (List.mem_of_getElem? hm))
      · obtain rfl := Option.some.inj hm
        exact absurd ⟨htoken.symm, hins.symm⟩ (hnew n (List.mem_of_getElem? hn))
      · omega
    · rcases hlen i (List.getElem?_eq_some_iff.mp hm).1 with hi | rfl
      · rw [List.getElem?_append_left hi] at hm
        exact hkeep _ _ (List.prefix_append _ _) i m hi hm
      · rw [List.getElem?_append_right (Nat.le_refl _), Nat.sub_self, List.getElem?_singleton,
          if_pos rfl] at hm
        obtain rfl := Option.some.inj hm
        refine ⟨node.boundary, ?_, fun _ => rfl⟩
        rw [hlast, List.getElem?_append_right (Nat.le_refl _), Nat.sub_self,
          List.getElem?_singleton, if_pos rfl, ← hmap]

theorem consed_cse {nodes : List EngineNode}
    (hinputs : ∀ (i : Nat) (m : EngineNode), nodes[i]? = some m → ∀ j ∈ m.inputs, j < i) :
    Consed nodes (nodes.foldl Cse.step ⟨[], []⟩) := by
  induction nodes using List.reverseRecOn with
  | nil => exact consed_start
  | append_singleton nodes node ih =>
      have hpre : ∀ (i : Nat) (m : EngineNode), nodes[i]? = some m → ∀ j ∈ m.inputs, j < i := by
        intro i m hm
        refine hinputs i m ?_
        rw [List.getElem?_append_left (List.getElem?_eq_some_iff.mp hm).1, hm]
      rw [List.foldl_append, List.foldl_cons, List.foldl_nil]
      exact consed_step (ih hpre) hpre (hinputs _ _ (by simp))

variable {g : EngineGraph}

/-- **CSE is a quotient.** -/
theorem cse_quotient (hg : g.Topological) : g.Quotient (cse g).1 (cse g).2 where
  length_eq := (consed_cse hg.inputs_lt).length_eq
  numbering := (consed_cse hg.inputs_lt).numbering
  node_eq := by
    intro i node hnode hfirst
    obtain ⟨boundary, hout, hboundary⟩ := (consed_cse hg.inputs_lt).node_eq i node hnode
    rw [← hboundary hfirst]
    exact hout
  outputs_eq := rfl

/-- Merging compares the token and the merged inputs. -/
theorem cse_getD_eq_iff (hg : g.Topological) {i j : Nat} {m n : EngineNode}
    (hm : g.nodes[i]? = some m) (hn : g.nodes[j]? = some n) :
    (cse g).2.getD i 0 = (cse g).2.getD j 0 ↔ m.token = n.token ∧
      m.inputs.map ((cse g).2.getD · 0) = n.inputs.map ((cse g).2.getD · 0) := by
  have hs := consed_cse hg.inputs_lt
  obtain ⟨bm, hm', -⟩ := hs.node_eq i m hm
  obtain ⟨bn, hn', -⟩ := hs.node_eq j n hn
  constructor
  · intro h
    have hsame : (g.nodes.foldl Cse.step ⟨[], []⟩).remap.getD i 0 =
        (g.nodes.foldl Cse.step ⟨[], []⟩).remap.getD j 0 := h
    rw [hsame, hn'] at hm'
    obtain ⟨htoken, -, hins⟩ := EngineNode.mk.inj (Option.some.inj hm')
    exact ⟨htoken.symm, hins.symm⟩
  · rintro ⟨htoken, hins⟩
    exact hs.distinct _ _ _ _ hm' hn' htoken hins

/-- No two nodes left have one token and one input list. -/
theorem cse_distinct (hg : g.Topological) {c d : Nat} {m n : EngineNode}
    (hm : (cse g).1.nodes[c]? = some m) (hn : (cse g).1.nodes[d]? = some n)
    (htoken : m.token = n.token) (hins : m.inputs = n.inputs) : c = d :=
  (consed_cse hg.inputs_lt).distinct c d m n hm hn htoken hins

end Graphed
