import Graphed.Optimizer.Proof.Pipeline

/-!
# What a stage holds, and when two reduced nodes are equal

A stage's slots name the heads of other components. Where no two nodes have one token and one input
list, two boundary nodes, and two stages, of different components spell different keys.
-/

namespace Graphed

open FirstSeen

variable {g : EngineGraph} {comp : List Nat}

namespace EngineGraph

/-- No two nodes have one token and one input list. -/
def Distinct (g : EngineGraph) : Prop :=
  ∀ (c d : Nat) (m n : EngineNode), g.nodes[c]? = some m → g.nodes[d]? = some n →
    m.token = n.token → m.inputs = n.inputs → c = d

/-- Some key has a boundary node's token, which `stage_fusion` looks up, and a source reads
nothing. -/
def Templated (g : EngineGraph) (keys : List NodeKey) : Prop :=
  ∀ node ∈ g.nodes, node.boundary = true → ∃ key ∈ keys, key.token = node.token ∧
    (key.isSource = true → node.inputs = [])

end EngineGraph

theorem eq_of_map_eq_map {α β γ : Type} {f : α → γ} {h : β → γ} {R : α → β → Prop} {xs : List α}
    {ys : List β} (heq : xs.map f = ys.map h) (hR : ∀ x ∈ xs, ∀ y ∈ ys, f x = h y → R x y) :
    List.Forall₂ R xs ys := by
  induction xs generalizing ys with
  | nil =>
      rw [List.map_nil, eq_comm, List.map_eq_nil_iff] at heq
      rw [heq]
      exact List.Forall₂.nil
  | cons x xs ih =>
      cases ys with
      | nil => exact absurd heq (List.cons_ne_nil _ _)
      | cons y ys =>
          rw [List.map_cons, List.map_cons, List.cons.injEq] at heq
          refine List.Forall₂.cons (hR x List.mem_cons_self y List.mem_cons_self heq.1) ?_
          exact ih heq.2 fun a ha b hb =>
            hR a (List.mem_cons_of_mem x ha) b (List.mem_cons_of_mem y hb)

/-- Lists with equal images under maps that separate their entries. -/
theorem eq_of_map_eq {f h : Nat → Nat} {xs ys : List Nat} (heq : xs.map f = ys.map h)
    (hinj : ∀ x ∈ xs, ∀ y ∈ ys, f x = h y → x = y) : xs = ys :=
  List.forall₂_eq_eq_eq ▸ eq_of_map_eq_map heq hinj

theorem nodeAt_getElem? {i : Nat} (hi : i < g.nodes.length) :
    g.nodes[i]? = some (nodeAt g i) := by
  rw [nodeAt_eq (List.getElem?_eq_getElem hi), List.getElem?_eq_getElem hi]

theorem nodeAt_input_lt (hg : g.Topological) {m x : Nat} (hm : m < g.nodes.length)
    (hx : x ∈ (nodeAt g m).inputs) : x < m :=
  hg.inputs_lt m _ (nodeAt_getElem? hm) x hx

theorem idxOf_sortedComponents_inj {c d : Nat} (hc : c ∈ comp)
    (h : (sortedComponents comp).idxOf c = (sortedComponents comp).idxOf d) : c = d :=
  (List.idxOf_inj (mem_sortedComponents.mpr hc)).mp h

/-- The components a stage reads, in first-use order. -/
def stageSlots (g : EngineGraph) (comp : List Nat) (c : Nat) : List Nat :=
  firsts (outsideReads g (membersOf comp c) comp (membersOf comp c))

theorem mem_stageSlots {c d : Nat} : d ∈ stageSlots g comp c ↔ ∃ m ∈ membersOf comp c,
    ∃ x ∈ (nodeAt g m).inputs, x ∉ membersOf comp c ∧ comp.getD x 0 = d := by
  simp only [stageSlots, mem_firsts, outsideReads, List.mem_flatMap, List.mem_map,
    List.mem_filter, decide_eq_true_eq, and_assoc]

/-- An operator component's reduced node. -/
theorem componentNode_op {keys : List NodeKey} {ids : List Nat} {c : Nat}
    (hop : isBoundaryAt g c = false) : componentNode g keys comp ids c =
      .stage ((stageSlots g comp c).map ids.idxOf)
        ((membersOf comp c).map fun op => ⟨(nodeAt g op).token,
          (nodeAt g op).inputs.map (refOf (membersOf comp c) comp (stageSlots g comp c))⟩) := by
  rw [componentNode, if_neg (by rw [hop]; decide), fuseStage_eq]
  rfl

namespace FusionPlan

variable (hplan : FusionPlan g comp) (hg : g.Topological)
include hplan hg

/-- A node read from outside its component is the component's head. -/
theorem headOf_input {m x : Nat} (hm : m < g.nodes.length) (hx : x ∈ (nodeAt g m).inputs)
    (hne : comp.getD x 0 ≠ comp.getD m 0) : headOf comp (comp.getD x 0) = x :=
  hplan.headOf_eq_of_escapes ((nodeAt_input_lt hg hm hx).trans hm)
    (Or.inr ⟨m, nodeAt g m, nodeAt_getElem? hm, hx, hne.symm⟩)

theorem comp_ne_of_boundary {m x : Nat} (hm : m < g.nodes.length)
    (hb : isBoundaryAt g m = true) (hx : x ∈ (nodeAt g m).inputs) :
    comp.getD x 0 ≠ comp.getD m 0 := by
  intro heq
  have hlt := nodeAt_input_lt hg hm hx
  have := hplan.alone m hm x (hlt.trans hm) hb heq
  omega

theorem comp_ne_of_notMem {c m x : Nat} (hm : m ∈ membersOf comp c)
    (hx : x ∈ (nodeAt g m).inputs) (hout : x ∉ membersOf comp c) :
    comp.getD x 0 ≠ comp.getD m 0 := by
  obtain ⟨hmlt, hmc⟩ := mem_membersOf.mp hm
  intro heq
  have hlt := nodeAt_input_lt hg (hplan.length_eq ▸ hmlt) hx
  exact hout (mem_membersOf.mpr ⟨hlt.trans hmlt, heq.trans hmc⟩)

theorem stageSlots_mem {c d : Nat} (hd : d ∈ stageSlots g comp c) : d ∈ comp := by
  obtain ⟨m, hm, x, hx, -, rfl⟩ := mem_stageSlots.mp hd
  have hmn : m < g.nodes.length := hplan.length_eq ▸ (mem_membersOf.mp hm).1
  exact hplan.getD_mem ((nodeAt_input_lt hg hmn hx).trans hmn)

/-- A member's reference says which node it reads. -/
theorem eq_of_refOf_eq {c d m n x y : Nat} (hm : m ∈ membersOf comp c)
    (hn : n ∈ membersOf comp d) (hx : x ∈ (nodeAt g m).inputs) (hy : y ∈ (nodeAt g n).inputs)
    (hslots : stageSlots g comp c = stageSlots g comp d)
    (hmember : x ∈ membersOf comp c → y ∈ membersOf comp d →
      (membersOf comp c).idxOf x = (membersOf comp d).idxOf y → x = y)
    (h : refOf (membersOf comp c) comp (stageSlots g comp c) x =
      refOf (membersOf comp d) comp (stageSlots g comp d) y) : x = y := by
  have hmn : m < g.nodes.length := hplan.length_eq ▸ (mem_membersOf.mp hm).1
  have hnn : n < g.nodes.length := hplan.length_eq ▸ (mem_membersOf.mp hn).1
  unfold refOf at h
  split_ifs at h with hxc hyd hyd
  · exact hmember hxc hyd (StageRef.member.inj h)
  · have hin : comp.getD x 0 ∈ stageSlots g comp d :=
      hslots ▸ mem_stageSlots.mpr ⟨m, hm, x, hx, hxc, rfl⟩
    rw [hslots] at h
    have hsame : comp.getD x 0 = comp.getD y 0 := (List.idxOf_inj hin).mp (StageRef.input.inj h)
    rw [← hplan.headOf_input hg hmn hx (hplan.comp_ne_of_notMem hg hm hx hxc), hsame]
    exact hplan.headOf_input hg hnn hy
      (hplan.comp_ne_of_notMem hg hn hy hyd)

/-- **Two stages of different components differ.** -/
theorem eq_of_stage_eq (hdistinct : g.Distinct) {c d : Nat} (hc : c ∈ comp)
    (hcop : isBoundaryAt g c = false) (hdop : isBoundaryAt g d = false) (keys : List NodeKey)
    (h : componentNode g keys comp (sortedComponents comp) c =
      componentNode g keys comp (sortedComponents comp) d) : c = d := by
  rw [componentNode_op hcop, componentNode_op hdop, NodeKey.stage.injEq] at h
  obtain ⟨hinputs, hmembers⟩ := h
  have hslots : stageSlots g comp c = stageSlots g comp d := by
    refine eq_of_map_eq hinputs fun x hx y _ hxy => ?_
    exact idxOf_sortedComponents_inj (hplan.stageSlots_mem hg hx) hxy
  have hlen : (membersOf comp c).length = (membersOf comp d).length := by
    simpa using congrArg List.length hmembers
  -- member by member: a member reads earlier members of its stage and heads of other components
  have hall : ∀ k, ∀ (hkc : k < (membersOf comp c).length) (hkd : k < (membersOf comp d).length),
      (membersOf comp c)[k] = (membersOf comp d)[k] := by
    intro k
    induction k using Nat.strong_induction_on with
    | _ k ih =>
        intro hkc hkd
        have hm : (membersOf comp c)[k] ∈ membersOf comp c := List.getElem_mem hkc
        have hn : (membersOf comp d)[k] ∈ membersOf comp d := List.getElem_mem hkd
        have hmn : (membersOf comp c)[k] < g.nodes.length :=
          hplan.length_eq ▸ (mem_membersOf.mp hm).1
        have hnn : (membersOf comp d)[k] < g.nodes.length :=
          hplan.length_eq ▸ (mem_membersOf.mp hn).1
        have hk := congrArg (·[k]?) hmembers
        simp only [List.getElem?_map, List.getElem?_eq_getElem hkc, List.getElem?_eq_getElem hkd,
          Option.map_some, Option.some.injEq, StageOp.mk.injEq] at hk
        obtain ⟨htoken, hrefs⟩ := hk
        refine hdistinct _ _ _ _ (nodeAt_getElem? hmn) (nodeAt_getElem? hnn) htoken ?_
        have hsame : List.Forall₂ (· = ·) (nodeAt g (membersOf comp c)[k]).inputs
            (nodeAt g (membersOf comp d)[k]).inputs := by
          refine eq_of_map_eq_map hrefs fun x hx y hy hxy => ?_
          refine hplan.eq_of_refOf_eq hg hm hn hx hy hslots (fun hxc hyd hidx => ?_) hxy
          have hxlt := List.idxOf_lt_length_of_mem hxc
          have hylt := List.idxOf_lt_length_of_mem hyd
          have hlt : (membersOf comp c).idxOf x < k := by
            by_contra hle
            have hascending : (membersOf comp c).Pairwise (· < ·) := pairwise_membersOf c
            have hsorted := List.pairwise_iff_getElem.mp hascending
            have hxm := nodeAt_input_lt hg hmn hx
            rcases Nat.lt_or_eq_of_le (Nat.not_lt.mp hle) with hgt | heq
            · have := hsorted k _ hkc hxlt hgt
              rw [List.getElem_idxOf hxlt] at this
              omega
            · subst heq
              rw [List.getElem_idxOf hxlt] at hxm
              omega
          have hstep := ih _ hlt hxlt (hidx ▸ hylt)
          rw [List.getElem_idxOf hxlt] at hstep
          rw [hstep]
          simp only [hidx]
          exact List.getElem_idxOf hylt
        rwa [List.forall₂_eq_eq_eq] at hsame
  obtain ⟨i, hi⟩ := exists_member hc
  have hpos : 0 < (membersOf comp c).length := List.length_pos_of_mem hi
  have hfirst := hall 0 hpos (hlen ▸ hpos)
  have hmem := List.getElem_mem hpos
  rw [← (mem_membersOf.mp hmem).2, hfirst]
  exact (mem_membersOf.mp (List.getElem_mem (hlen ▸ hpos))).2

/-- **Two boundary nodes differ.** -/
theorem eq_of_boundary_eq (hdistinct : g.Distinct) {keys : List NodeKey}
    (hkeys : g.Templated keys) {c d : Nat} (hc : c ∈ comp) (hd : d ∈ comp)
    (hcb : isBoundaryAt g c = true) (hdb : isBoundaryAt g d = true)
    (h : (componentNode g keys comp (sortedComponents comp) c).canon =
      (componentNode g keys comp (sortedComponents comp) d).canon) : c = d := by
  obtain ⟨hcn, hcc⟩ := hplan.label hc
  obtain ⟨hdn, hdd⟩ := hplan.label hd
  rw [componentNode, if_pos hcb, componentNode, if_pos hdb] at h
  have hspec : ∀ i, i < g.nodes.length → isBoundaryAt g i = true →
      (template keys (nodeAt g i).token).token = (nodeAt g i).token ∧
      ((template keys (nodeAt g i).token).isSource = true → (nodeAt g i).inputs = []) := by
    intro i hi hb
    obtain ⟨key, hkey, htoken, hsource⟩ := hkeys (nodeAt g i)
      (List.mem_of_getElem? (nodeAt_getElem? hi)) hb
    have htemplate := (template_spec ⟨key, hkey, htoken⟩).2
    refine ⟨htemplate, fun h => hsource ?_⟩
    rw [isSource_of_token (htoken.trans htemplate.symm), h]
  have htoken : (nodeAt g c).token = (nodeAt g d).token := by
    rw [← (hspec c hcn hcb).1, ← (hspec d hdn hdb).1]
    have := congrArg NodeKey.token h
    rwa [NodeKey.token_canon, NodeKey.token_canon, NodeKey.token_withInputs,
      NodeKey.token_withInputs] at this
  refine hdistinct c d _ _ (nodeAt_getElem? hcn) (nodeAt_getElem? hdn) htoken ?_
  have hins := congrArg NodeKey.inputs h
  rw [NodeKey.inputs_canon, NodeKey.inputs_canon,
    NodeKey.inputs_withInputs fun hs => by rw [(hspec c hcn hcb).2 hs, List.map_nil],
    NodeKey.inputs_withInputs fun hs => by rw [(hspec d hdn hdb).2 hs, List.map_nil]] at hins
  refine eq_of_map_eq hins fun x hx y hy hxy => ?_
  have hxn := (nodeAt_input_lt hg hcn hx).trans hcn
  have hsame := idxOf_sortedComponents_inj (hplan.getD_mem hxn) hxy
  rw [← hplan.headOf_input hg hcn hx (hplan.comp_ne_of_boundary hg hcn hcb hx), hsame]
  exact hplan.headOf_input hg hdn hy (hplan.comp_ne_of_boundary hg hdn hdb hy)

end FusionPlan

end Graphed
