import Graphed.Optimizer.Proof.Components

/-!
# Which operators share a component

The rule of each mode, read off the finished components: a single-use join is an only use by an
operator, a maximal join is a component that holds every use. The first implies the second.
-/

namespace Graphed

variable {g : EngineGraph}

/-- Node `c` reads node `i`. -/
def Consumes (g : EngineGraph) (c i : Nat) : Prop :=
  ∃ node : EngineNode, g.nodes[c]? = some node ∧ i ∈ node.inputs

/-- How often the nodes read node `i`, a node that reads it twice counting twice. -/
def useCount (g : EngineGraph) (i : Nat) : Nat := (g.nodes.flatMap (·.inputs)).count i

theorem Consumes.lt_length {c i : Nat} (h : Consumes g c i) : c < g.nodes.length := by
  obtain ⟨node, hnode, -⟩ := h
  exact (List.getElem?_eq_some_iff.mp hnode).1

theorem Consumes.lt (hg : g.Topological) {c i : Nat} (h : Consumes g c i) : i < c := by
  obtain ⟨node, hnode, hi⟩ := h
  exact hg.inputs_lt c node hnode i hi

/-! ### Uses -/

theorem length_getD_modify_inputs {k i : Nat} (ins : List Nat) (acc : List (List Nat))
    (hi : i < acc.length) :
    ((ins.foldl (fun acc inp => acc.modify inp (· ++ [k])) acc).getD i []).length =
      (acc.getD i []).length + ins.count i := by
  induction ins generalizing acc with
  | nil => simp
  | cons x ins ih =>
      rw [List.foldl_cons, ih _ (by simpa using hi), List.getD_eq_getElem?_getD,
        List.getElem?_modify, List.getD_eq_getElem?_getD, List.getElem?_eq_getElem hi]
      by_cases hx : x = i
      · subst hx
        simp only [if_pos, Option.map_eq_map, Option.map_some, Option.getD_some,
          List.length_append, List.length_singleton, List.count_cons_self]
        omega
      · simp [hx]

/-- A node has one consumer entry for each use. -/
theorem length_consumers {i : Nat} (hi : i < g.nodes.length) :
    ((consumers g).getD i []).length = useCount g i := by
  have hfold : ∀ pre : List EngineNode,
      (pre.zipIdx.foldl (fun acc node =>
        node.1.inputs.foldl (fun acc inp => acc.modify inp (· ++ [node.2])) acc)
        (List.replicate g.nodes.length [])).length = g.nodes.length ∧
      ((pre.zipIdx.foldl (fun acc node =>
        node.1.inputs.foldl (fun acc inp => acc.modify inp (· ++ [node.2])) acc)
        (List.replicate g.nodes.length [])).getD i []).length =
        (pre.flatMap (·.inputs)).count i := by
    intro pre
    induction pre using List.reverseRecOn with
    | nil => simp [hi]
    | append_singleton pre node ih =>
        rw [List.zipIdx_append, List.foldl_append]
        simp only [List.zipIdx_singleton, List.foldl_cons, List.foldl_nil, Nat.zero_add]
        refine ⟨by rw [length_modify_inputs, ih.1], ?_⟩
        rw [length_getD_modify_inputs _ _ (ih.1.symm ▸ hi), ih.2]
        simp
  exact (hfold g.nodes).2

/-- The sole consumer of an operator: its only use, when that is an operator and the value is no
output. -/
theorem soleConsumer_eq_some_iff {i c : Nat} (hi : i < g.nodes.length)
    (hop : isBoundaryAt g i = false) : soleConsumer g i = some c ↔
      Consumes g c i ∧ useCount g i = 1 ∧ isBoundaryAt g c = false ∧ i ∉ g.outputs := by
  rw [← length_consumers hi, List.length_eq_one_iff, ← isOutput_getD hi]
  have hmem : c ∈ (consumers g).getD i [] ↔ Consumes g c i := mem_consumers hi
  rw [← hmem, soleConsumer, if_neg (by rw [hop]; decide)]
  constructor
  · intro h
    split at h
    next c' hcons =>
      split_ifs at h with hcond
      obtain rfl := Option.some.inj h
      rw [Bool.and_eq_true, Bool.not_eq_true', Bool.not_eq_true'] at hcond
      refine ⟨by rw [hcons]; exact List.mem_singleton_self c', ⟨c', hcons⟩, hcond.2, ?_⟩
      rw [hcond.1]
      decide
    next => cases h
  · rintro ⟨hc, ⟨d, hd⟩, hbound, hout⟩
    rw [hd, List.mem_singleton] at hc
    subst hc
    rw [hd]
    simp only
    rw [Bool.not_eq_true] at hout
    rw [if_pos (by rw [hbound, hout]; decide)]

/-! ### The single-use rule -/

/-- **Single use**: an operator is in its consumer's component exactly when that is its only use,
an operator, and the value is no output. -/
theorem singleUse_eq_iff (hg : g.Topological) {i c : Nat} (hop : isBoundaryAt g i = false)
    (hc : Consumes g c i) :
    (singleUseComponents g).getD c 0 = (singleUseComponents g).getD i 0 ↔
      useCount g i = 1 ∧ isBoundaryAt g c = false ∧ i ∉ g.outputs := by
  have hic := hc.lt hg
  have hcn := hc.lt_length
  have hin : i < g.nodes.length := hic.trans hcn
  obtain ⟨-, root, -, hroot, -, hcomp⟩ := singleUseComponents_spec hg
  constructor
  · intro heq
    have hbc : isBoundaryAt g c = false := by
      by_contra hb
      have := (singleUse_plan hg).alone c hcn i hin (by simpa using hb) heq.symm
      omega
    rw [hcomp c hcn, hcomp i hin, if_neg (by rw [hbc]; decide), if_neg (by rw [hop]; decide)] at heq
    -- the chain of sole consumers from `i` leaves it, or `c` would come before its own input
    obtain ⟨k, hck, hik⟩ := join_of_eqvGen ((hroot c i).mp heq)
    rcases Relation.ReflTransGen.cases_head hik with rfl | ⟨d, hstep, -⟩
    · have := le_of_soleSteps hg hck
      omega
    · have hsole := (soleStep_iff.mp hstep).2
      obtain ⟨node, hnode, hmem⟩ := hc
      obtain rfl := (soleConsumer_spec hg hin hsole).2.2.2.2.2 c node hnode hmem
      exact ((soleConsumer_eq_some_iff hin hop).mp hsole).2
  · rintro ⟨huse, hbc, hout⟩
    have hsole := (soleConsumer_eq_some_iff hin hop).mpr ⟨hc, huse, hbc, hout⟩
    rw [hcomp c hcn, hcomp i hin, if_neg (by rw [hbc]; decide), if_neg (by rw [hop]; decide)]
    exact ((hroot i c).mpr (Relation.EqvGen.rel _ _ (soleStep_iff.mpr ⟨hin, hsole⟩))).symm

/-! ### The maximal rule -/

/-- Every use of node `i` is an operator of one component, and it is no output. -/
structure AllIn (g : EngineGraph) (comp : List Nat) (i : Nat) : Prop where
  not_output : i ∉ g.outputs
  used : ∃ c, Consumes g c i
  ops : ∀ c, Consumes g c i → isBoundaryAt g c = false
  shared : ∃ r, ∀ c, Consumes g c i → comp.getD c 0 = r

theorem maximalStep_getD {m i : Nat} (comp : List Nat) (hne : i ≠ m) :
    (maximalStep g m comp).getD i 0 = comp.getD i 0 := by
  have hset : ∀ v, (comp.set m v).getD i 0 = comp.getD i 0 := by
    intro v
    rw [List.getD_eq_getElem?_getD, List.getElem?_set, if_neg (Ne.symm hne),
      ← List.getD_eq_getElem?_getD]
  unfold maximalStep
  split_ifs
  · rfl
  · split
    · rfl
    · split_ifs
      · rfl
      · exact hset _
      · rfl

theorem maximalStep_getD_self {m c : Nat} {comp : List Nat} (hlen : comp.length = g.nodes.length)
    (hm : m < g.nodes.length) (hop : isBoundaryAt g m = false) (hall : AllIn g comp m)
    (hc : Consumes g c m) : (maximalStep g m comp).getD m 0 = comp.getD c 0 := by
  obtain ⟨r, hr⟩ := hall.shared
  have hmem : ∀ d, d ∈ (consumers g).getD m [] ↔ Consumes g d m := fun d => mem_consumers hm
  have hout : (isOutput g).getD m false = false := by
    rw [← Bool.not_eq_true, isOutput_getD hm]
    exact hall.not_output
  unfold maximalStep
  rw [if_neg (by rw [hop, hout]; decide)]
  cases hcons : (consumers g).getD m [] with
  | nil =>
      have hin := (hmem c).mpr hc
      rw [hcons] at hin
      exact absurd hin List.not_mem_nil
  | cons d ds =>
      have hd : ∀ e ∈ d :: ds, Consumes g e m := fun e he => (hmem e).mp (hcons ▸ he)
      have hrd := hr d (hd d List.mem_cons_self)
      have hany : ¬ (d :: ds).any (isBoundaryAt g) = true := by
        rw [List.any_eq_true]
        rintro ⟨e, he, hb⟩
        rw [hall.ops e (hd e he)] at hb
        exact absurd hb (by decide)
      have hshared : ((d :: ds).all fun e => comp.getD e 0 == comp.getD d 0) = true := by
        rw [List.all_eq_true]
        intro e he
        rw [hr e (hd e he), hrd]
        exact beq_self_eq_true r
      simp only
      rw [if_neg hany, if_pos hshared, List.getD_eq_getElem?_getD,
        List.getElem?_set_self (hlen ▸ hm), Option.getD_some, hrd, hr c hc]

/-- From `m` on, the pass has joined every operator whose uses one component holds. -/
def JoinedFrom (g : EngineGraph) (m : Nat) (comp : List Nat) : Prop :=
  ∀ i, m ≤ i → isBoundaryAt g i = false → AllIn g comp i → ∀ c, Consumes g c i →
    comp.getD c 0 = comp.getD i 0

theorem joinedFrom_maximalStep (hg : g.Topological) {m : Nat} {comp : List Nat}
    (hm : m < g.nodes.length) (hlen : comp.length = g.nodes.length) (h : JoinedFrom g (m + 1) comp) :
    JoinedFrom g m (maximalStep g m comp) := by
  intro i hmi hop hall c hc
  -- consumers come later, so the step leaves their components as they are
  have hkeep : ∀ d, Consumes g d i → (maximalStep g m comp).getD d 0 = comp.getD d 0 := by
    intro d hd
    have := hd.lt hg
    exact maximalStep_getD comp (by omega)
  have hbefore : AllIn g comp i := by
    obtain ⟨r, hr⟩ := hall.shared
    exact ⟨hall.not_output, hall.used, hall.ops, r, fun d hd => (hkeep d hd).symm.trans (hr d hd)⟩
  rw [hkeep c hc]
  by_cases him : i = m
  · subst him
    exact (maximalStep_getD_self hlen hm hop hbefore hc).symm
  · rw [maximalStep_getD comp him]
    exact h i (by omega) hop hbefore c hc

theorem joinedFrom_maximalComponents (hg : g.Topological) : JoinedFrom g 0 (maximalComponents g) := by
  have hfold : ∀ k, k ≤ g.nodes.length → ∀ comp, Settled g k comp → JoinedFrom g k comp →
      JoinedFrom g 0 ((List.range k).foldr (maximalStep g) comp) := by
    intro k
    induction k with
    | zero => intro _ comp _ h; exact h
    | succ k ih =>
        intro hk comp hsettled h
        rw [List.range_succ, List.foldr_append, List.foldr_cons, List.foldr_nil]
        exact ih (by omega) _ (settled_maximalStep hg (by omega) hsettled)
          (joinedFrom_maximalStep hg (by omega) hsettled.length_eq h)
  refine hfold _ (Nat.le_refl _) _ settled_range fun i hi _ _ c hc => ?_
  have hlt := (hc.lt hg).trans hc.lt_length
  omega

/-- An operator that shares its component with one consumer shares it with every consumer. -/
theorem allIn_of_maximal_eq (hg : g.Topological) {i c : Nat} (hc : Consumes g c i)
    (heq : (maximalComponents g).getD c 0 = (maximalComponents g).getD i 0) :
    AllIn g (maximalComponents g) i := by
  have hsettled := settled_maximalComponents hg
  have hic := hc.lt hg
  have hin : i < g.nodes.length := hic.trans hc.lt_length
  have hne : (maximalComponents g).getD i 0 ≠ i := by
    have := hsettled.le_getD c hc.lt_length
    omega
  obtain ⟨-, hbound, hesc⟩ := hsettled.joined i hin hne
  have hsame : ∀ d, Consumes g d i →
      (maximalComponents g).getD d 0 = (maximalComponents g).getD i 0 := by
    rintro d ⟨node, hnode, hmem⟩
    by_contra hdiff
    exact hesc (Or.inr ⟨d, node, hnode, hmem, hdiff⟩)
  refine ⟨fun hout => hesc (Or.inl hout), ⟨c, hc⟩, fun d hd => ?_, _, hsame⟩
  by_contra hb
  -- a boundary consumer would be alone in its component
  have := (maximal_plan hg).alone d hd.lt_length i hin (by simpa using hb) (hsame d hd).symm
  have := hd.lt hg
  omega

/-! ### Single-use components lie in maximal ones -/

theorem maximal_eq_of_soleSteps (hg : g.Topological) {a b : Nat}
    (h : Relation.EqvGen (SoleStep g) a b) :
    (maximalComponents g).getD a 0 = (maximalComponents g).getD b 0 := by
  induction h with
  | rel a b hab =>
      obtain ⟨ha, hsole⟩ := soleStep_iff.mp hab
      obtain ⟨hop, hbop, -, -, hout, honly⟩ := soleConsumer_spec hg ha hsole
      have hb := ((soleConsumer_eq_some_iff ha hop).mp hsole).1
      have hall : AllIn g (maximalComponents g) a := by
        refine ⟨hout, ⟨b, hb⟩, ?_, (maximalComponents g).getD b 0, ?_⟩
        · rintro d ⟨node, hnode, hmem⟩
          rw [honly d node hnode hmem]
          exact hbop
        · rintro d ⟨node, hnode, hmem⟩
          rw [honly d node hnode hmem]
      exact (joinedFrom_maximalComponents hg a (Nat.zero_le a) hop hall b hb).symm
  | refl a => rfl
  | symm _ _ _ ih => exact ih.symm
  | trans _ _ _ _ _ ih₁ ih₂ => exact ih₁.trans ih₂

/-- **Operators that a single-use component holds together, a maximal one does too.** -/
theorem maximal_eq_of_singleUse_eq (hg : g.Topological) {i j : Nat} (hi : i < g.nodes.length)
    (hj : j < g.nodes.length) (hiop : isBoundaryAt g i = false) (hjop : isBoundaryAt g j = false)
    (heq : (singleUseComponents g).getD i 0 = (singleUseComponents g).getD j 0) :
    (maximalComponents g).getD i 0 = (maximalComponents g).getD j 0 := by
  obtain ⟨-, root, -, hroot, -, hcomp⟩ := singleUseComponents_spec hg
  rw [hcomp i hi, hcomp j hj, if_neg (by rw [hiop]; decide), if_neg (by rw [hjop]; decide)] at heq
  exact maximal_eq_of_soleSteps hg ((hroot i j).mp heq)

end Graphed
