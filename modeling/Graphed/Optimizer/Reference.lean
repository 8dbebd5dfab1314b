import Graphed.Optimizer.Rules
import Mathlib.Data.List.Find

/-!
# A reference engine

The rules are local: an identity operator is in its input's class, and any other node in the class of
the earliest node with its token and equivalent inputs, in either order when the operator is
symmetric. One pass in topological order therefore finds the classes the rules generate, and gives an
engine that is sound and saturated.
-/

namespace Graphed

open FirstSeen

/-- The identity rule matches this node. -/
def isIdentity (node : EngineNode) : Bool :=
  identityTokens.contains node.token && node.inputs.length == 1

/-- Congruence or the commute rule relates two nodes whose inputs have these classes. -/
def similar (m n : EngineNode) (classOf : Nat → Nat) : Bool :=
  m.token == n.token && (m.inputs.map classOf == n.inputs.map classOf ||
    symmetricTokens.contains m.token && m.inputs.length == 2 &&
      m.inputs.map classOf == (n.inputs.map classOf).reverse)

/-- The class of node `i` from the classes of the nodes before it. -/
def classAt (g : EngineGraph) (acc : List Nat) (i : Nat) : Nat :=
  let node := g.nodes.getD i default
  if isIdentity node then acc.getD (node.inputs.headD 0) 0
  else ((List.range i).find? fun j => !isIdentity (g.nodes.getD j default) &&
    similar (g.nodes.getD j default) node (acc.getD · 0)).getD i

def referenceClasses (g : EngineGraph) : List Nat :=
  (List.range g.nodes.length).foldl (fun acc i => acc ++ [classAt g acc i]) []

/-- The engine that finds the rules' classes in one pass. -/
def referenceEngine : EggEngine := ⟨fun g i => (referenceClasses g).getD i 0⟩

section Classes

variable {g : EngineGraph}

theorem similar_iff {m n : EngineNode} {f : Nat → Nat} : similar m n f = true ↔
    m.token = n.token ∧ (m.inputs.map f = n.inputs.map f ∨ m.token ∈ symmetricTokens ∧
      m.inputs.length = 2 ∧ m.inputs.map f = (n.inputs.map f).reverse) := by
  simp [similar, and_assoc]

theorem similar_congr {m n : EngineNode} {f f' : Nat → Nat} (hm : ∀ x ∈ m.inputs, f x = f' x)
    (hn : ∀ x ∈ n.inputs, f x = f' x) : similar m n f = similar m n f' := by
  rw [similar, similar, List.map_congr_left hm, List.map_congr_left hn]

theorem similar_symm {m n : EngineNode} {f : Nat → Nat} (h : similar m n f = true) :
    similar n m f = true := by
  rw [similar_iff] at h ⊢
  obtain ⟨htoken, heq | ⟨hsym, hlen, heq⟩⟩ := h
  · exact ⟨htoken.symm, Or.inl heq.symm⟩
  · have hlen' := congrArg List.length heq
    simp only [List.length_map, List.length_reverse] at hlen'
    refine ⟨htoken.symm, Or.inr ⟨htoken ▸ hsym, by omega, ?_⟩⟩
    rw [heq, List.reverse_reverse]

theorem similar_trans {m n k : EngineNode} {f : Nat → Nat} (h₁ : similar m n f = true)
    (h₂ : similar n k f = true) : similar m k f = true := by
  rw [similar_iff] at h₁ h₂ ⊢
  obtain ⟨htoken₁, heq₁ | ⟨hsym₁, hlen₁, heq₁⟩⟩ := h₁ <;>
    obtain ⟨htoken₂, heq₂ | ⟨hsym₂, hlen₂, heq₂⟩⟩ := h₂
  · exact ⟨htoken₁.trans htoken₂, Or.inl (heq₁.trans heq₂)⟩
  · have hlen := congrArg List.length heq₁
    simp only [List.length_map] at hlen
    exact ⟨htoken₁.trans htoken₂, Or.inr ⟨htoken₁ ▸ hsym₂, by omega, heq₁.trans heq₂⟩⟩
  · exact ⟨htoken₁.trans htoken₂, Or.inr ⟨hsym₁, hlen₁, by rw [heq₁, heq₂]⟩⟩
  · exact ⟨htoken₁.trans htoken₂, Or.inl (by rw [heq₁, heq₂, List.reverse_reverse])⟩

/-- The nodes' classes are settled in order. -/
theorem foldl_classAt (k : Nat) :
    ((List.range k).foldl (fun acc i => acc ++ [classAt g acc i]) []).length = k ∧
    ∀ i < k, ((List.range k).foldl (fun acc i => acc ++ [classAt g acc i]) []).getD i 0 =
      classAt g ((List.range i).foldl (fun acc i => acc ++ [classAt g acc i]) []) i := by
  induction k with
  | zero => simp
  | succ k ih =>
      rw [List.range_succ, List.foldl_append, List.foldl_cons, List.foldl_nil]
      refine ⟨by simp [ih.1], fun i hi => ?_⟩
      rw [List.getD_eq_getElem?_getD]
      rcases Nat.lt_succ_iff_lt_or_eq.mp hi with hlt | rfl
      · rw [List.getElem?_append_left (ih.1.symm ▸ hlt), ← List.getD_eq_getElem?_getD, ih.2 i hlt]
      · rw [List.getElem?_append_right (Nat.le_of_eq ih.1), ih.1, Nat.sub_self]
        rfl

theorem foldl_classAt_getD {i k : Nat} (hik : i ≤ k) {x : Nat} (hx : x < i) :
    ((List.range i).foldl (fun acc i => acc ++ [classAt g acc i]) []).getD x 0 =
      ((List.range k).foldl (fun acc i => acc ++ [classAt g acc i]) []).getD x 0 := by
  rw [(foldl_classAt i).2 x hx, (foldl_classAt k).2 x (by omega)]

variable (hg : g.Topological)
include hg

/-- The equations the classes satisfy. -/
theorem referenceClasses_eq {i : Nat} {node : EngineNode} (hi : g.nodes[i]? = some node) :
    (referenceClasses g).getD i 0 =
      if isIdentity node then (referenceClasses g).getD (node.inputs.headD 0) 0
      else ((List.range i).find? fun j => !isIdentity (g.nodes.getD j default) &&
        similar (g.nodes.getD j default) node ((referenceClasses g).getD · 0)).getD i := by
  have hlt := (List.getElem?_eq_some_iff.mp hi).1
  have hnode : g.nodes.getD i default = node := by
    rw [List.getD_eq_getElem?_getD, hi, Option.getD_some]
  rw [referenceClasses, (foldl_classAt g.nodes.length).2 i hlt, classAt, hnode]
  split_ifs with hid
  · obtain ⟨x, hx⟩ : ∃ x, node.inputs = [x] := by
      rw [isIdentity, Bool.and_eq_true, beq_iff_eq] at hid
      exact List.length_eq_one_iff.mp hid.2
    rw [hx]
    exact foldl_classAt_getD hlt.le (hg.inputs_lt i node hi x (by simp [hx]))
  · congr 1
    refine List.find?_congr fun j hj => ?_
    have hjlt := List.mem_range.mp hj
    congr 1
    have hj' := List.getElem?_eq_getElem (hjlt.trans hlt)
    have hjnode : g.nodes.getD j default = g.nodes[j] := by
      rw [List.getD_eq_getElem?_getD, hj', Option.getD_some]
    refine similar_congr (fun x hx => ?_) fun x hx => ?_
    · rw [hjnode] at hx
      exact foldl_classAt_getD hlt.le ((hg.inputs_lt j _ hj' x hx).trans hjlt)
    · exact foldl_classAt_getD hlt.le (hg.inputs_lt i node hi x hx)

/-- A node that is no identity is in the class of the earliest node similar to it. -/
theorem referenceClasses_of_not_identity {i : Nat} {node : EngineNode}
    (hi : g.nodes[i]? = some node) (hid : isIdentity node = false) :
    ∃ m : EngineNode, g.nodes[(referenceClasses g).getD i 0]? = some m ∧ isIdentity m = false ∧
      similar m node ((referenceClasses g).getD · 0) = true ∧
      ∀ (j : Nat) (n : EngineNode), g.nodes[j]? = some n → isIdentity n = false →
        similar n node ((referenceClasses g).getD · 0) = true →
          (referenceClasses g).getD i 0 ≤ j := by
  have hlt := (List.getElem?_eq_some_iff.mp hi).1
  have hget : ∀ (j : Nat) (n : EngineNode), g.nodes[j]? = some n → g.nodes.getD j default = n := by
    intro j n hn
    rw [List.getD_eq_getElem?_getD, hn, Option.getD_some]
  rw [referenceClasses_eq hg hi, hid, if_neg (by decide)]
  cases hfind : (List.range i).find? fun j => !isIdentity (g.nodes.getD j default) &&
      similar (g.nodes.getD j default) node ((referenceClasses g).getD · 0) with
  | some j =>
      have hj := List.mem_range.mp (List.mem_of_find?_eq_some hfind)
      have hmatch := List.find?_some hfind
      rw [hget j _ (List.getElem?_eq_getElem (hj.trans hlt)), Bool.and_eq_true,
        Bool.not_eq_true'] at hmatch
      refine ⟨_, List.getElem?_eq_getElem (hj.trans hlt), hmatch.1, hmatch.2, fun k n hn hnid hsim => ?_⟩
      rw [Option.getD_some]
      by_contra hk
      rw [List.find?_range_eq_some] at hfind
      have hbefore := hfind.2.2 k (by omega)
      rw [hget k n hn, hnid, hsim] at hbefore
      exact absurd hbefore (by decide)
  | none =>
      refine ⟨node, hi, hid, similar_iff.mpr ⟨rfl, Or.inl rfl⟩, fun k n hn hnid hsim => ?_⟩
      rw [Option.getD_none]
      by_contra hk
      have hbefore := List.find?_eq_none.mp hfind k (List.mem_range.mpr (by omega))
      rw [hget k n hn, hnid, hsim] at hbefore
      exact hbefore (by decide)

theorem referenceClasses_identity {i x : Nat} {node : EngineNode} (hi : g.nodes[i]? = some node)
    (htoken : node.token ∈ identityTokens) (hins : node.inputs = [x]) :
    (referenceClasses g).getD i 0 = (referenceClasses g).getD x 0 := by
  have hid : isIdentity node = true := by simp [isIdentity, htoken, hins]
  rw [referenceClasses_eq hg hi, if_pos hid, hins]
  rfl

/-- Similar nodes share a class. -/
theorem referenceClasses_eq_of_similar {i j : Nat} {m n : EngineNode} (hi : g.nodes[i]? = some m)
    (hj : g.nodes[j]? = some n) (hm : isIdentity m = false) (hn : isIdentity n = false)
    (hsim : similar m n ((referenceClasses g).getD · 0) = true) :
    (referenceClasses g).getD i 0 = (referenceClasses g).getD j 0 := by
  obtain ⟨m', hm', hmid, hmsim, hmle⟩ := referenceClasses_of_not_identity hg hi hm
  obtain ⟨n', hn', hnid, hnsim, hnle⟩ := referenceClasses_of_not_identity hg hj hn
  exact Nat.le_antisymm (hmle _ n' hn' hnid (similar_trans hnsim (similar_symm hsim)))
    (hnle _ m' hm' hmid (similar_trans hmsim hsim))

/-- Every node is equal, by the rules, to its class. -/
theorem ruleEq_referenceClasses {i : Nat} (hi : i < g.nodes.length) :
    RuleEq g i ((referenceClasses g).getD i 0) := by
  induction i using Nat.strongRecOn with
  | ind i ih =>
      have hnode := List.getElem?_eq_getElem hi
      by_cases hid : isIdentity g.nodes[i] = true
      · rw [isIdentity, Bool.and_eq_true, beq_iff_eq, List.contains_iff_mem] at hid
        obtain ⟨x, hx⟩ := List.length_eq_one_iff.mp hid.2
        have hxi := hg.inputs_lt i _ hnode x (by simp [hx])
        rw [referenceClasses_identity hg hnode hid.1 hx]
        exact (RuleEq.identity hnode hid.1 hx).trans (ih x hxi (hxi.trans hi))
      · obtain ⟨m, hm, hmid, hsim, hle⟩ :=
          referenceClasses_of_not_identity hg hnode (by simpa using hid)
        have hci := hle i _ hnode (by simpa using hid) (similar_iff.mpr ⟨rfl, Or.inl rfl⟩)
        -- inputs of one class are equal by the rules, being below `i`
        have hins : ∀ x y : Nat, x < i → y < i →
            (referenceClasses g).getD x 0 = (referenceClasses g).getD y 0 → RuleEq g x y := by
          intro x y hx hy hxy
          exact (ih x hx (hx.trans hi)).trans (hxy ▸ (ih y hy (hy.trans hi)).symm)
        have hmlt : ∀ x ∈ m.inputs, x < i := fun x hx => (hg.inputs_lt _ m hm x hx).trans_le hci
        have hilt : ∀ x ∈ g.nodes[i].inputs, x < i := hg.inputs_lt i _ hnode
        obtain ⟨htoken, heq | ⟨hsym, hlen, heq⟩⟩ := similar_iff.mp hsim
        · refine RuleEq.congr hnode hm htoken.symm ?_ fun k x y hx hy => ?_
          · simpa using (congrArg List.length heq).symm
          · refine hins x y (hilt x (List.mem_of_getElem? hx)) (hmlt y (List.mem_of_getElem? hy)) ?_
            have hk := congrArg (·[k]?) heq
            simpa [hx, hy] using hk.symm
        · obtain ⟨a, b, hab⟩ := List.length_eq_two.mp hlen
          have hlen' := congrArg List.length heq
          simp only [List.length_map, List.length_reverse, hab] at hlen'
          obtain ⟨c, d, hcd⟩ := List.length_eq_two.mp hlen'.symm
          simp only [hab, hcd, List.map_cons, List.map_nil, List.reverse_cons, List.reverse_nil,
            List.nil_append, List.cons_append, List.cons.injEq, and_true] at heq
          refine RuleEq.commute hnode hm htoken.symm (htoken ▸ hsym) hcd hab ?_ ?_
          · exact hins c b (hilt c (by simp [hcd])) (hmlt b (by simp [hab])) heq.2.symm
          · exact hins d a (hilt d (by simp [hcd])) (hmlt a (by simp [hab])) heq.1.symm

end Classes

/-- **The reference engine is sound.** -/
theorem referenceEngine_sound : referenceEngine.Sound := by
  intro g hg i hi j hj h
  have hij : (referenceClasses g).getD i 0 = (referenceClasses g).getD j 0 := h
  exact (ruleEq_referenceClasses hg hi).trans (hij ▸ (ruleEq_referenceClasses hg hj).symm)

/-- **The reference engine is saturated.** -/
theorem referenceEngine_saturated : referenceEngine.Saturated := by
  intro g hg i hi j hj h
  clear hi hj
  change (referenceClasses g).getD i 0 = (referenceClasses g).getD j 0
  induction h with
  | refl => rfl
  | symm _ ih => exact ih.symm
  | trans _ _ ih₁ ih₂ => exact ih₁.trans ih₂
  | @congr i j m n hm hn htoken hlen _ ih =>
      have hmap : m.inputs.map ((referenceClasses g).getD · 0) =
          n.inputs.map ((referenceClasses g).getD · 0) := by
        refine List.ext_getElem (by simpa using hlen) fun k hk hk' => ?_
        rw [List.getElem_map, List.getElem_map]
        exact ih k _ _ (List.getElem?_eq_getElem (by simpa using hk))
          (List.getElem?_eq_getElem (by simpa using hk'))
      have hidmn : isIdentity m = isIdentity n := by rw [isIdentity, isIdentity, htoken, hlen]
      by_cases hid : isIdentity m = true
      · have hnid := hidmn ▸ hid
        rw [referenceClasses_eq hg hm, referenceClasses_eq hg hn, if_pos hid, if_pos hnid]
        rw [isIdentity, Bool.and_eq_true, beq_iff_eq] at hid hnid
        obtain ⟨x, hx⟩ := List.length_eq_one_iff.mp hid.2
        obtain ⟨y, hy⟩ := List.length_eq_one_iff.mp hnid.2
        simp only [hx, hy, List.map_cons, List.map_nil, List.cons.injEq, and_true] at hmap
        rw [hx, hy]
        exact hmap
      · exact referenceClasses_eq_of_similar hg hm hn (by simpa using hid)
          (by simpa [hidmn] using hid) (similar_iff.mpr ⟨htoken, Or.inl hmap⟩)
  | @commute i j m n a b a' b' hm hn htoken hsym hma hnb _ _ iha ihb =>
      have hnotid : ∀ node : EngineNode, node.token ∈ symmetricTokens → isIdentity node = false := by
        intro node hnode
        rw [isIdentity, Bool.and_eq_false_iff]
        left
        rw [← Bool.not_eq_true, List.contains_iff_mem]
        exact fun h => notMem_symmetric_of_identity h hnode
      refine referenceClasses_eq_of_similar hg hm hn (hnotid m hsym) (hnotid n (htoken ▸ hsym))
        (similar_iff.mpr ⟨htoken, Or.inr ⟨hsym, by simp [hma], ?_⟩⟩)
      simp only [hma, hnb, List.map_cons, List.map_nil, List.reverse_cons, List.reverse_nil,
        List.nil_append, List.cons_append, iha, ihb]
  | identity hi htoken hins => exact referenceClasses_identity hg hi htoken hins

end Graphed
