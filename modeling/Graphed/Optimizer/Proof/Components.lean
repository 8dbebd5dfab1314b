import Graphed.Optimizer.Fusion
import Mathlib.Logic.Relation

/-!
# Fusion plans

What rebuilding needs of the components: a boundary is alone, and a node whose value leaves its
component, as an output or to a consumer elsewhere, is the component's last node. Both modes keep it.
-/

namespace Graphed

open FirstSeen

variable {g : EngineGraph}

/-- Some other component consumes this node, or it is an output. -/
def Escapes (g : EngineGraph) (comp : List Nat) (i : Nat) : Prop :=
  i ∈ g.outputs ∨ ∃ (c : Nat) (node : EngineNode), g.nodes[c]? = some node ∧ i ∈ node.inputs ∧
    comp.getD c 0 ≠ comp.getD i 0

structure FusionPlan (g : EngineGraph) (comp : List Nat) : Prop where
  length_eq : comp.length = g.nodes.length
  getD_lt : ∀ i < g.nodes.length, comp.getD i 0 < g.nodes.length
  idem : ∀ i < g.nodes.length, comp.getD (comp.getD i 0) 0 = comp.getD i 0
  alone : ∀ i < g.nodes.length, ∀ j < g.nodes.length, isBoundaryAt g i = true →
    comp.getD j 0 = comp.getD i 0 → j = i
  le_of_escapes : ∀ i < g.nodes.length, ∀ j < g.nodes.length, comp.getD j 0 = comp.getD i 0 →
    Escapes g comp i → j ≤ i

/-! ### Consumers and outputs -/

theorem mem_modify_inputs {k c i : Nat} (ins : List Nat) (acc : List (List Nat))
    (hi : i < acc.length) :
    c ∈ (ins.foldl (fun acc inp => acc.modify inp (· ++ [k])) acc).getD i [] ↔
      c ∈ acc.getD i [] ∨ c = k ∧ i ∈ ins := by
  induction ins generalizing acc with
  | nil => simp
  | cons x ins ih =>
      rw [List.foldl_cons, ih _ (by simpa using hi), List.getD_eq_getElem?_getD,
        List.getElem?_modify, List.getD_eq_getElem?_getD, List.getElem?_eq_getElem hi]
      by_cases hx : x = i
      · subst hx
        simp only [if_pos, Option.map_eq_map, Option.map_some, Option.getD_some, List.mem_append,
          List.mem_cons, true_or, and_true]
        tauto
      · simp [hx, Ne.symm hx]

theorem length_modify_inputs {k : Nat} (ins : List Nat) (acc : List (List Nat)) :
    (ins.foldl (fun acc inp => acc.modify inp (· ++ [k])) acc).length = acc.length := by
  induction ins generalizing acc with
  | nil => rfl
  | cons x ins ih => rw [List.foldl_cons, ih, List.length_modify]

/-- The consumers of a node are the nodes that list it as an input. -/
theorem mem_consumers {i c : Nat} (hi : i < g.nodes.length) :
    c ∈ (consumers g).getD i [] ↔
      ∃ node : EngineNode, g.nodes[c]? = some node ∧ i ∈ node.inputs := by
  have hfold : ∀ pre : List EngineNode,
      (pre.zipIdx.foldl (fun acc node =>
        node.1.inputs.foldl (fun acc inp => acc.modify inp (· ++ [node.2])) acc)
        (List.replicate g.nodes.length [])).length = g.nodes.length ∧
      (c ∈ (pre.zipIdx.foldl (fun acc node =>
        node.1.inputs.foldl (fun acc inp => acc.modify inp (· ++ [node.2])) acc)
        (List.replicate g.nodes.length [])).getD i [] ↔
      ∃ node : EngineNode, pre[c]? = some node ∧ i ∈ node.inputs) := by
    intro pre
    induction pre using List.reverseRecOn with
    | nil => simp [hi]
    | append_singleton pre node ih =>
        rw [List.zipIdx_append, List.foldl_append]
        simp only [List.zipIdx_singleton, List.foldl_cons, List.foldl_nil, Nat.zero_add]
        refine ⟨by rw [length_modify_inputs, ih.1], ?_⟩
        rw [mem_modify_inputs _ _ (ih.1.symm ▸ hi), ih.2]
        simp only [List.getElem?_append, List.getElem?_singleton]
        constructor
        · rintro (⟨m, hm, hmem⟩ | ⟨rfl, hmem⟩)
          · exact ⟨m, by rw [if_pos (List.getElem?_eq_some_iff.mp hm).1, hm], hmem⟩
          · exact ⟨node, by simp, hmem⟩
        · rintro ⟨m, hm, hmem⟩
          split_ifs at hm with hlt hlast
          · exact Or.inl ⟨m, hm, hmem⟩
          · obtain rfl := Option.some.inj hm
            exact Or.inr ⟨by omega, hmem⟩
  exact (hfold g.nodes).2

theorem isOutput_getD {i : Nat} (hi : i < g.nodes.length) :
    (isOutput g).getD i false = true ↔ i ∈ g.outputs := by
  have hfold : ∀ (outs : List Nat) (acc : List Bool), acc.length = g.nodes.length →
      ((outs.foldl (fun acc o => acc.set o true) acc).getD i false = true ↔
        acc.getD i false = true ∨ i ∈ outs) := by
    intro outs
    induction outs with
    | nil => simp
    | cons o outs ih =>
        intro acc hacc
        rw [List.foldl_cons, ih _ (by simpa using hacc), List.getD_eq_getElem?_getD,
          List.getElem?_set, List.getD_eq_getElem?_getD, List.mem_cons]
        by_cases ho : o = i
        · simp [ho, hacc, hi]
        · simp [ho, Ne.symm ho]
  rw [isOutput, hfold _ _ (by simp)]
  simp [hi]

/-- What a sole consumer is: an operator, the only node that uses this one, itself not an
output. -/
theorem soleConsumer_spec (hg : g.Topological) {i c : Nat} (hi : i < g.nodes.length)
    (h : soleConsumer g i = some c) : isBoundaryAt g i = false ∧ isBoundaryAt g c = false ∧
      i < c ∧ c < g.nodes.length ∧ i ∉ g.outputs ∧
      ∀ (d : Nat) (node : EngineNode), g.nodes[d]? = some node → i ∈ node.inputs → d = c := by
  unfold soleConsumer at h
  split_ifs at h with hbound
  split at h
  next c' hcons =>
    split_ifs at h with hcond
    obtain rfl := Option.some.inj h
    simp only [Bool.and_eq_true, Bool.not_eq_true'] at hcond
    have hmem : ∀ d, d ∈ (consumers g).getD i [] ↔ d = c' := fun d => by
      rw [hcons, List.mem_singleton]
    obtain ⟨node, hnode, hin⟩ := (mem_consumers hi).mp ((hmem c').mpr rfl)
    refine ⟨by simpa using hbound, hcond.2, hg.inputs_lt _ _ hnode i hin,
      (List.getElem?_eq_some_iff.mp hnode).1, ?_, ?_⟩
    · rw [← isOutput_getD hi, hcond.1]
      decide
    · intro d m hm hin'
      exact (hmem d).mp ((mem_consumers hi).mpr ⟨m, hm, hin'⟩)
  next => cases h

/-! ### Single-use components -/

section SingleUse

/-- The pairs the pass joins. -/
def solePairs (g : EngineGraph) : List (Nat × Nat) :=
  (List.range g.nodes.length).filterMap fun i => (soleConsumer g i).map fun c => (i, c)

def SoleStep (g : EngineGraph) (a b : Nat) : Prop := (a, b) ∈ solePairs g

theorem soleStep_iff {a b : Nat} :
    SoleStep g a b ↔ a < g.nodes.length ∧ soleConsumer g a = some b := by
  simp only [SoleStep, solePairs, List.mem_filterMap, List.mem_range, Option.map_eq_some_iff,
    Prod.mk.injEq]
  constructor
  · rintro ⟨i, hi, c, hc, rfl, rfl⟩
    exact ⟨hi, hc⟩
  · rintro ⟨ha, hb⟩
    exact ⟨a, ha, b, hb, rfl, rfl⟩

theorem singleUseDsu_eq : singleUseDsu g = (Dsu.new g.nodes.length).unions (solePairs g) := by
  unfold singleUseDsu Dsu.unions solePairs
  generalize Dsu.new g.nodes.length = dsu
  induction List.range g.nodes.length generalizing dsu with
  | nil => rfl
  | cons i is ih =>
      rw [List.foldl_cons, List.filterMap_cons]
      cases hsole : soleConsumer g i with
      | none => exact ih dsu
      | some c => exact ih (dsu.union i c)

/-- Two chains of sole consumers from one class meet. -/
theorem join_of_eqvGen {a b : Nat} (h : Relation.EqvGen (SoleStep g) a b) :
    Relation.Join (Relation.ReflTransGen (SoleStep g)) a b := by
  have hequiv := Relation.equivalence_join_reflTransGen (r := SoleStep g) fun a b c hab hac => by
    rw [soleStep_iff] at hab hac
    obtain rfl := Option.some.inj (hab.2.symm.trans hac.2)
    exact ⟨b, Relation.ReflGen.refl, Relation.ReflTransGen.refl⟩
  induction h with
  | rel a b hab => exact ⟨b, Relation.ReflTransGen.single hab, Relation.ReflTransGen.refl⟩
  | refl a => exact hequiv.refl a
  | symm _ _ _ ih => exact hequiv.symm ih
  | trans _ _ _ _ _ ih₁ ih₂ => exact hequiv.trans ih₁ ih₂

theorem le_of_soleSteps (hg : g.Topological) {a b : Nat}
    (h : Relation.ReflTransGen (SoleStep g) a b) : a ≤ b := by
  induction h with
  | refl => exact Nat.le_refl _
  | tail _ hstep ih =>
      rw [soleStep_iff] at hstep
      have := (soleConsumer_spec hg hstep.1 hstep.2).2.2.1
      omega

theorem isBoundaryAt_of_eqvGen (hg : g.Topological) {a b : Nat}
    (h : Relation.EqvGen (SoleStep g) a b) : a = b ∨
      isBoundaryAt g a = false ∧ isBoundaryAt g b = false := by
  induction h with
  | rel a b hab =>
      rw [soleStep_iff] at hab
      have hspec := soleConsumer_spec hg hab.1 hab.2
      exact Or.inr ⟨hspec.1, hspec.2.1⟩
  | refl => exact Or.inl rfl
  | symm _ _ _ ih => exact ih.imp Eq.symm And.symm
  | trans _ _ _ _ _ ih₁ ih₂ =>
      rcases ih₁ with rfl | ih₁
      · exact ih₂
      · rcases ih₂ with rfl | ih₂
        · exact Or.inr ih₁
        · exact Or.inr ⟨ih₁.1, ih₂.2⟩

/-- An operator's component is its root, which two operators share when joins connect them. -/
theorem singleUseComponents_spec (hg : g.Topological) :
    (singleUseComponents g).length = g.nodes.length ∧
    ∃ root : Nat → Nat, (∀ x, root x ≤ x) ∧
      (∀ x y, root x = root y ↔ Relation.EqvGen (SoleStep g) x y) ∧ (∀ x, root (root x) = root x) ∧
      ∀ i < g.nodes.length, (singleUseComponents g).getD i 0 =
        if isBoundaryAt g i = true then i else root i := by
  have hpairs : ∀ p ∈ solePairs g, p.1 < g.nodes.length ∧ p.2 < g.nodes.length := by
    intro p hp
    have hstep := soleStep_iff.mp (show SoleStep g p.1 p.2 from hp)
    exact ⟨hstep.1, (soleConsumer_spec hg hstep.1 hstep.2).2.2.2.1⟩
  obtain ⟨hdesc, -, hroot⟩ := Dsu.root_unions hpairs
  rw [← singleUseDsu_eq] at hdesc hroot
  have hfold : ∀ k, (((List.range k).foldl
      (fun acc i =>
        if isBoundaryAt g i then (acc.1 ++ [i], acc.2)
        else (acc.1 ++ [(acc.2.find i).1], (acc.2.find i).2))
      (([] : List Nat), singleUseDsu g)).1 = (List.range k).map fun i =>
        if isBoundaryAt g i = true then i else Dsu.root (singleUseDsu g).parent i) ∧
      Dsu.Descending ((List.range k).foldl
      (fun acc i =>
        if isBoundaryAt g i then (acc.1 ++ [i], acc.2)
        else (acc.1 ++ [(acc.2.find i).1], (acc.2.find i).2))
      (([] : List Nat), singleUseDsu g)).2.parent ∧
      ∀ x, Dsu.root ((List.range k).foldl
      (fun acc i =>
        if isBoundaryAt g i then (acc.1 ++ [i], acc.2)
        else (acc.1 ++ [(acc.2.find i).1], (acc.2.find i).2))
      (([] : List Nat), singleUseDsu g)).2.parent x = Dsu.root (singleUseDsu g).parent x := by
    intro k
    induction k with
    | zero => exact ⟨rfl, hdesc, fun _ => rfl⟩
    | succ k ih =>
        obtain ⟨hlist, hdesc', hroot'⟩ := ih
        rw [List.range_succ, List.foldl_append, List.foldl_cons, List.foldl_nil, List.map_append]
        split_ifs with hbound
        · exact ⟨by rw [hlist]; simp [hbound], hdesc', hroot'⟩
        · refine ⟨?_, (Dsu.find_snd hdesc' k).1, fun x => ?_⟩
          · rw [hlist, Dsu.find_fst hdesc', hroot']
            simp [hbound]
          · rw [(Dsu.find_snd hdesc' k).2.1, hroot']
  have hcomp : singleUseComponents g = (List.range g.nodes.length).map fun i =>
      if isBoundaryAt g i = true then i else Dsu.root (singleUseDsu g).parent i :=
    (hfold g.nodes.length).1
  refine ⟨by rw [hcomp]; simp, Dsu.root (singleUseDsu g).parent, Dsu.root_le hdesc, hroot,
    Dsu.root_root hdesc, fun i hi => ?_⟩
  rw [hcomp, getD_eq_getElem (by simpa using hi)]
  simp

theorem singleUse_plan (hg : g.Topological) : FusionPlan g (singleUseComponents g) := by
  obtain ⟨hlen, root, hle, hroot, hidem, hcomp⟩ := singleUseComponents_spec hg
  have hop : ∀ i < g.nodes.length, isBoundaryAt g i = false → isBoundaryAt g (root i) = false := by
    intro i _ hi
    rcases isBoundaryAt_of_eqvGen hg ((hroot i (root i)).mp (hidem i).symm) with heq | hops
    · rwa [← heq]
    · exact hops.2
  -- two nodes of one component are one boundary or are connected operators
  have hsame : ∀ i < g.nodes.length, ∀ j < g.nodes.length,
      (singleUseComponents g).getD j 0 = (singleUseComponents g).getD i 0 →
        j = i ∨ isBoundaryAt g i = false ∧ Relation.EqvGen (SoleStep g) j i := by
    intro i hi j hj h
    rw [hcomp i hi, hcomp j hj] at h
    split_ifs at h with hbj hbi hbi
    · exact Or.inl h
    · have := hop i hi (by simpa using hbi)
      rw [← h, hbj] at this
      exact absurd this (by decide)
    · have := hop j hj (by simpa using hbj)
      rw [h, hbi] at this
      exact absurd this (by decide)
    · exact Or.inr ⟨by simpa using hbi, (hroot j i).mp h⟩
  refine ⟨hlen, fun i hi => ?_, fun i hi => ?_, fun i hi j hj hbound h => ?_,
    fun i hi j hj h hescape => ?_⟩
  · rw [hcomp i hi]
    split_ifs
    · exact hi
    · exact (hle i).trans_lt hi
  · by_cases hbound : isBoundaryAt g i = true
    · have hself : (singleUseComponents g).getD i 0 = i := by rw [hcomp i hi, if_pos hbound]
      rw [hself, hself]
    · have hself : (singleUseComponents g).getD i 0 = root i := by rw [hcomp i hi, if_neg hbound]
      rw [hself, hcomp (root i) ((hle i).trans_lt hi),
        if_neg (by rw [hop i hi (by simpa using hbound)]; decide), hidem]
  · rcases hsame i hi j hj h with rfl | ⟨hop, -⟩
    · rfl
    · rw [hbound] at hop
      exact absurd hop (by decide)
  · rcases hsame i hi j hj h with rfl | ⟨hop, heqv⟩
    · exact Nat.le_refl _
    · -- a node that escapes has no sole consumer, so its class's chains end in it
      have hlast : ∀ c, ¬ SoleStep g i c := by
        intro c hstep
        have hspec := soleConsumer_spec hg (soleStep_iff.mp hstep).1 (soleStep_iff.mp hstep).2
        rcases hescape with hout | ⟨d, node, hnode, hin, hne⟩
        · exact hspec.2.2.2.2.1 hout
        · obtain rfl := hspec.2.2.2.2.2 d node hnode hin
          refine hne ?_
          rw [hcomp d hspec.2.2.2.1, hcomp i hi, if_neg (by rw [hspec.2.1]; decide),
            if_neg (by rw [hspec.1]; decide)]
          exact ((hroot i d).mpr (Relation.EqvGen.rel _ _ hstep)).symm
      obtain ⟨k, hjk, hik⟩ := join_of_eqvGen heqv
      rcases Relation.ReflTransGen.cases_head hik with rfl | ⟨c, hstep, -⟩
      · exact le_of_soleSteps hg hjk
      · exact absurd hstep (hlast c)

end SingleUse

/-! ### Maximal components -/

section Maximal

/-- What the descending pass has settled: an operator that joined its consumers' component escapes
from nowhere else. -/
structure Settled (g : EngineGraph) (m : Nat) (comp : List Nat) : Prop where
  length_eq : comp.length = g.nodes.length
  below : ∀ i < m, i < g.nodes.length → comp.getD i 0 = i
  le_getD : ∀ i < g.nodes.length, i ≤ comp.getD i 0
  getD_lt : ∀ i < g.nodes.length, comp.getD i 0 < g.nodes.length
  idem : ∀ i < g.nodes.length, comp.getD (comp.getD i 0) 0 = comp.getD i 0
  joined : ∀ i < g.nodes.length, comp.getD i 0 ≠ i → isBoundaryAt g i = false ∧
    isBoundaryAt g (comp.getD i 0) = false ∧ ¬ Escapes g comp i

theorem settled_range : Settled g g.nodes.length (List.range g.nodes.length) := by
  have hself : ∀ i < g.nodes.length, (List.range g.nodes.length).getD i 0 = i := by
    intro i hi
    rw [getD_eq_getElem (by simpa using hi), List.getElem_range]
  exact ⟨by simp, fun i _ hi => hself i hi, fun i hi => (hself i hi).ge,
    fun i hi => (hself i hi).symm ▸ hi, fun i hi => by rw [hself i hi, hself i hi],
    fun i hi h => absurd (hself i hi) h⟩

theorem Settled.weaken {m : Nat} {comp : List Nat} (h : Settled g (m + 1) comp) :
    Settled g m comp :=
  { h with below := fun i hi => h.below i (hi.trans (Nat.lt_succ_self m)) }

theorem settled_maximalStep (hg : g.Topological) {m : Nat} {comp : List Nat}
    (hm : m < g.nodes.length) (h : Settled g (m + 1) comp) : Settled g m (maximalStep g m comp) := by
  unfold maximalStep
  split_ifs with hskip
  · exact h.weaken
  split
  · exact h.weaken
  next c cs hcons =>
  split_ifs with hany hall
  · exact h.weaken
  · simp only [Bool.or_eq_true, not_or, Bool.not_eq_true] at hskip
    have hmem : ∀ d, d ∈ c :: cs ↔
        ∃ node : EngineNode, g.nodes[d]? = some node ∧ m ∈ node.inputs := by
      intro d
      rw [← hcons, mem_consumers hm]
    obtain ⟨node, hnode, hin⟩ := (hmem c).mp List.mem_cons_self
    have hmc := hg.inputs_lt c node hnode m hin
    have hcn := (List.getElem?_eq_some_iff.mp hnode).1
    have hget : ∀ i, i < g.nodes.length → (comp.set m (comp.getD c 0)).getD i 0 =
        if i = m then comp.getD c 0 else comp.getD i 0 := by
      intro i hi
      rw [List.getD_eq_getElem?_getD, List.getElem?_set, List.getD_eq_getElem?_getD,
        List.getD_eq_getElem?_getD]
      by_cases him : m = i
      · subst him
        simp [h.length_eq, hm]
      · simp [him, Ne.symm him]
    have hself : comp.getD m 0 = m := h.below m (Nat.lt_succ_self m) hm
    have hcle : c ≤ comp.getD c 0 := h.le_getD c hcn
    have hclt := h.getD_lt c hcn
    have hbc : isBoundaryAt g (comp.getD c 0) = false := by
      by_cases hcc : comp.getD c 0 = c
      · rw [hcc]
        simp only [List.any_eq_true, not_exists, not_and, Bool.not_eq_true] at hany
        exact hany c List.mem_cons_self
      · exact (h.joined c hcn hcc).2.1
    refine ⟨by simp [h.length_eq], fun i hi hin => ?_, fun i hi => ?_, fun i hi => ?_,
      fun i hi => ?_, fun i hi hne => ?_⟩
    · rw [hget i hin, if_neg (by omega)]
      exact h.below i (by omega) hin
    · rw [hget i hi]
      split_ifs
      · omega
      · exact h.le_getD i hi
    · rw [hget i hi]
      split_ifs
      · exact hclt
      · exact h.getD_lt i hi
    · rw [hget i hi]
      split_ifs with him
      · rw [hget _ hclt, if_neg (by omega), h.idem c hcn]
      · have hne : comp.getD i 0 ≠ m := by
          intro heq
          have hle := h.le_getD i hi
          have := h.below i (by omega) hi
          omega
        rw [hget _ (h.getD_lt i hi), if_neg hne, h.idem i hi]
    · rw [hget i hi] at hne ⊢
      split_ifs at hne ⊢ with him
      · subst him
        refine ⟨hskip.1, hbc, ?_⟩
        rintro (hout | ⟨d, n, hn, hin', hdiff⟩)
        · rw [← isOutput_getD hm, hskip.2] at hout
          exact absurd hout (by decide)
        · have hdn := (List.getElem?_eq_some_iff.mp hn).1
          have hid := hg.inputs_lt d n hn i hin'
          rw [hget d hdn, hget i hm, if_neg (by omega), if_pos rfl] at hdiff
          exact hdiff (by simpa using List.all_eq_true.mp hall d ((hmem d).mpr ⟨n, hn, hin'⟩))
      · obtain ⟨hbi, hbci, hesc⟩ := h.joined i hi hne
        refine ⟨hbi, hbci, ?_⟩
        rintro (hout | ⟨d, n, hn, hin', hdiff⟩)
        · exact hesc (Or.inl hout)
        · have hdn := (List.getElem?_eq_some_iff.mp hn).1
          have hmi : m < i := by
            by_contra hle
            exact hne (h.below i (by omega) hi)
          have hid := hg.inputs_lt d n hn i hin'
          rw [hget d hdn, hget i hi, if_neg (by omega), if_neg him] at hdiff
          exact hesc (Or.inr ⟨d, n, hn, hin', hdiff⟩)
  · exact h.weaken

theorem settled_maximalComponents (hg : g.Topological) : Settled g 0 (maximalComponents g) := by
  have hfold : ∀ k, k ≤ g.nodes.length → ∀ comp, Settled g k comp →
      Settled g 0 ((List.range k).foldr (maximalStep g) comp) := by
    intro k
    induction k with
    | zero => intro _ comp h; exact h
    | succ k ih =>
        intro hk comp h
        rw [List.range_succ, List.foldr_append, List.foldr_cons, List.foldr_nil]
        exact ih (by omega) _ (settled_maximalStep hg (by omega) h)
  exact hfold _ (Nat.le_refl _) _ settled_range

theorem maximal_plan (hg : g.Topological) : FusionPlan g (maximalComponents g) := by
  have h := settled_maximalComponents hg
  refine ⟨h.length_eq, h.getD_lt, h.idem, fun i hi j hj hbound heq => ?_,
    fun i hi j hj heq hescape => ?_⟩
  · have hself : ∀ k < g.nodes.length, isBoundaryAt g ((maximalComponents g).getD k 0) = true →
        (maximalComponents g).getD k 0 = k := by
      intro k hk hb
      by_contra hne
      rw [(h.joined k hk hne).2.1] at hb
      exact absurd hb (by decide)
    have hii : (maximalComponents g).getD i 0 = i := by
      by_contra hne
      rw [(h.joined i hi hne).1] at hbound
      exact absurd hbound (by decide)
    rw [hii] at heq
    rw [← hself j hj (by rwa [heq]), heq]
  · have hii : (maximalComponents g).getD i 0 = i := by
      by_contra hne
      exact (h.joined i hi hne).2.2 hescape
    rw [← hii, ← heq]
    exact h.le_getD j hj

end Maximal

/-- **Both modes plan for rebuilding.** -/
theorem FusionMode.plan (mode : FusionMode) (hg : g.Topological) :
    FusionPlan g (mode.components g) := by
  cases mode with
  | singleUse => exact singleUse_plan hg
  | maximal => exact maximal_plan hg

end Graphed
