import Graphed.Optimizer.Proof.Components
import Mathlib.Data.List.Sort

/-!
# What rebuilding emits

Under a fusion plan the components come out in the order of their last nodes, each after the
components it reads. A stage's slots are the components its members read from outside, in first-use
order, and every node lands in its component's reduced node.
-/

namespace Graphed

open FirstSeen

variable {g : EngineGraph} {comp : List Nat}

/-! ### Members and heads -/

theorem mem_membersOf {c i : Nat} : i ∈ membersOf comp c ↔ i < comp.length ∧ comp.getD i 0 = c := by
  simp [membersOf]

theorem pairwise_membersOf (c : Nat) : (membersOf comp c).Pairwise (· < ·) :=
  List.pairwise_lt_range.filter _

theorem nodup_membersOf (c : Nat) : (membersOf comp c).Nodup :=
  (pairwise_membersOf c).imp Nat.ne_of_lt

theorem foldl_max_spec (xs : List Nat) (a : Nat) : a ≤ xs.foldl max a ∧
    (∀ x ∈ xs, x ≤ xs.foldl max a) ∧ (xs.foldl max a = a ∨ xs.foldl max a ∈ xs) := by
  induction xs generalizing a with
  | nil => simp
  | cons x xs ih =>
      obtain ⟨hle, hall, hmem⟩ := ih (max a x)
      rw [List.foldl_cons]
      refine ⟨by omega, fun y hy => ?_, ?_⟩
      · rcases List.mem_cons.mp hy with rfl | hy
        · omega
        · exact hall y hy
      · rcases hmem with heq | hmem
        · rcases max_choice a x with hm | hm
          · exact Or.inl (heq.trans hm)
          · exact Or.inr (List.mem_cons.mpr (Or.inl (heq.trans hm)))
        · exact Or.inr (List.mem_cons_of_mem x hmem)

theorem le_headOf {c i : Nat} (hi : i ∈ membersOf comp c) : i ≤ headOf comp c :=
  (foldl_max_spec _ 0).2.1 i hi

theorem headOf_mem {c i : Nat} (hi : i ∈ membersOf comp c) : headOf comp c ∈ membersOf comp c := by
  rcases (foldl_max_spec (membersOf comp c) 0).2.2 with heq | hmem
  · have hle := le_headOf hi
    rw [headOf, heq] at hle ⊢
    rwa [← Nat.le_zero.mp hle]
  · exact hmem

/-- A node that no member exceeds is the head. -/
theorem headOf_eq {c i : Nat} (hi : i ∈ membersOf comp c) (hle : ∀ j ∈ membersOf comp c, j ≤ i) :
    headOf comp c = i :=
  Nat.le_antisymm (hle _ (headOf_mem hi)) (le_headOf hi)

theorem comp_headOf {c i : Nat} (hi : i ∈ membersOf comp c) : comp.getD (headOf comp c) 0 = c :=
  (mem_membersOf.mp (headOf_mem hi)).2

/-- The head is the last member. -/
theorem getLast?_membersOf {c i : Nat} (hi : i ∈ membersOf comp c) :
    (membersOf comp c).getLast? = some (headOf comp c) := by
  have hne := List.ne_nil_of_mem hi
  rw [List.getLast?_eq_some_getLast hne, headOf_eq (List.getLast_mem hne) fun j hj => ?_]
  have hsorted : (membersOf comp c).Pairwise (· < ·) := pairwise_membersOf c
  rw [← List.dropLast_append_getLast hne] at hsorted hj
  rcases List.mem_append.mp hj with hj | hj
  · exact ((List.pairwise_append.mp hsorted).2.2 j hj _ (by simp)).le
  · exact (List.mem_singleton.mp hj).le

/-! ### The order of the components -/

theorem mem_sortedComponents {c : Nat} : c ∈ sortedComponents comp ↔ c ∈ comp := by
  rw [sortedComponents, List.mem_insertionSort, mem_firsts]

theorem nodup_sortedComponents : (sortedComponents comp).Nodup :=
  (List.perm_insertionSort _ _).nodup_iff.mpr (nodup_firsts comp)

theorem exists_member {c : Nat} (hc : c ∈ comp) : ∃ i, i ∈ membersOf comp c := by
  obtain ⟨i, hi, hget⟩ := List.getElem_of_mem hc
  exact ⟨i, mem_membersOf.mpr ⟨hi, by rw [getD_eq_getElem hi, hget]⟩⟩

theorem headOf_inj {c d : Nat} (hc : c ∈ comp) (hd : d ∈ comp)
    (h : headOf comp c = headOf comp d) : c = d := by
  obtain ⟨i, hi⟩ := exists_member hc
  obtain ⟨j, hj⟩ := exists_member hd
  rw [← comp_headOf hi, h, comp_headOf hj]

/-- The components ascend by their heads. -/
theorem pairwise_sortedComponents :
    (sortedComponents comp).Pairwise fun c d => headOf comp c < headOf comp d := by
  have htotal : Std.Total fun c d => headOf comp c ≤ headOf comp d :=
    ⟨fun c d => Nat.le_total _ _⟩
  have htrans : IsTrans Nat fun c d => headOf comp c ≤ headOf comp d :=
    ⟨fun _ _ _ => Nat.le_trans⟩
  have hle : (sortedComponents comp).Pairwise fun c d => headOf comp c ≤ headOf comp d :=
    List.pairwise_insertionSort _ _
  refine (hle.and nodup_sortedComponents).imp_of_mem fun hc hd h => ?_
  exact lt_of_le_of_ne h.1 fun heq =>
    h.2 (headOf_inj (mem_sortedComponents.mp hc) (mem_sortedComponents.mp hd) heq)

theorem idxOf_lt_of_headOf_lt {c d : Nat} (hc : c ∈ comp) (hd : d ∈ comp)
    (h : headOf comp c < headOf comp d) :
    (sortedComponents comp).idxOf c < (sortedComponents comp).idxOf d := by
  have hci := List.idxOf_lt_length_of_mem (mem_sortedComponents.mpr hc)
  have hdi := List.idxOf_lt_length_of_mem (mem_sortedComponents.mpr hd)
  rcases Nat.lt_trichotomy ((sortedComponents comp).idxOf c) ((sortedComponents comp).idxOf d)
    with hlt | heq | hgt
  · exact hlt
  · rw [(List.idxOf_inj (mem_sortedComponents.mpr hc)).mp heq] at h
    exact absurd h (Nat.lt_irrefl _)
  · have hsorted : (sortedComponents comp).Pairwise fun c d => headOf comp c < headOf comp d :=
      pairwise_sortedComponents
    have hpair := List.pairwise_iff_getElem.mp hsorted _ _ hdi hci hgt
    rw [List.getElem_idxOf hdi, List.getElem_idxOf hci] at hpair
    omega

namespace FusionPlan

variable (hplan : FusionPlan g comp)
include hplan

theorem mem_membersOf_self {i : Nat} (hi : i < g.nodes.length) :
    i ∈ membersOf comp (comp.getD i 0) :=
  mem_membersOf.mpr ⟨hplan.length_eq ▸ hi, rfl⟩

theorem getD_mem {i : Nat} (hi : i < g.nodes.length) : comp.getD i 0 ∈ comp := by
  rw [getD_eq_getElem (hplan.length_eq ▸ hi)]
  exact List.getElem_mem _

/-- A component's label is one of its nodes. -/
theorem label {c : Nat} (hc : c ∈ comp) : c < g.nodes.length ∧ comp.getD c 0 = c := by
  obtain ⟨i, hi, hget⟩ := List.getElem_of_mem hc
  have hin : i < g.nodes.length := hplan.length_eq ▸ hi
  have hci : comp.getD i 0 = c := by rw [getD_eq_getElem hi, hget]
  exact ⟨hci ▸ hplan.getD_lt i hin, hci ▸ hplan.idem i hin⟩

theorem isBoundaryAt_label {i : Nat} (hi : i < g.nodes.length) :
    isBoundaryAt g (comp.getD i 0) = isBoundaryAt g i := by
  have hc := hplan.getD_lt i hi
  have hidem := hplan.idem i hi
  by_cases hb : isBoundaryAt g i = true
  · rw [hplan.alone i hi _ hc hb hidem]
  · by_cases hbc : isBoundaryAt g (comp.getD i 0) = true
    · rw [← hplan.alone _ hc i hi hbc hidem.symm]
    · simp only [Bool.not_eq_true] at hb hbc
      rw [hb, hbc]

/-- A boundary is its whole component. -/
theorem membersOf_boundary {i : Nat} (hi : i < g.nodes.length) (hb : isBoundaryAt g i = true) :
    comp.getD i 0 = i ∧ ∀ j ∈ membersOf comp i, j = i := by
  have hself : comp.getD i 0 = i := hplan.alone i hi _ (hplan.getD_lt i hi) hb (hplan.idem i hi)
  refine ⟨hself, fun j hj => ?_⟩
  obtain ⟨hjlt, hj⟩ := mem_membersOf.mp hj
  exact hplan.alone i hi j (hplan.length_eq ▸ hjlt) hb (hj.trans hself.symm)

/-- A node whose value escapes its component is the component's head. -/
theorem headOf_eq_of_escapes {i : Nat} (hi : i < g.nodes.length) (hesc : Escapes g comp i) :
    headOf comp (comp.getD i 0) = i := by
  refine headOf_eq (hplan.mem_membersOf_self hi) fun j hj => ?_
  obtain ⟨hjlt, hj⟩ := mem_membersOf.mp hj
  exact hplan.le_of_escapes i hi j (hplan.length_eq ▸ hjlt) hj hesc

/-- A component comes after the components its members read. -/
theorem idxOf_input_lt (hg : g.Topological) {i m : Nat} {node : EngineNode}
    (hm : g.nodes[m]? = some node) (hi : i ∈ node.inputs)
    (hne : comp.getD i 0 ≠ comp.getD m 0) : (sortedComponents comp).idxOf (comp.getD i 0) <
      (sortedComponents comp).idxOf (comp.getD m 0) := by
  have hmlt := (List.getElem?_eq_some_iff.mp hm).1
  have him := hg.inputs_lt m node hm i hi
  have hilt := him.trans hmlt
  refine idxOf_lt_of_headOf_lt (hplan.getD_mem hilt) (hplan.getD_mem hmlt) ?_
  rw [hplan.headOf_eq_of_escapes hilt (Or.inr ⟨m, node, hm, hi, Ne.symm hne⟩)]
  exact him.trans_le (le_headOf (hplan.mem_membersOf_self hmlt))

end FusionPlan

/-! ### Stages -/

def nodeAt (g : EngineGraph) (i : Nat) : EngineNode := g.nodes.getD i default

theorem nodeAt_eq {i : Nat} {node : EngineNode} (h : g.nodes[i]? = some node) :
    nodeAt g i = node := by
  rw [nodeAt, List.getD_eq_getElem?_getD, h, Option.getD_some]

/-- The components some members read from outside, one entry for each use. -/
def outsideReads (g : EngineGraph) (ops comp members : List Nat) : List Nat :=
  members.flatMap fun op => ((nodeAt g op).inputs.filter (· ∉ ops)).map (comp.getD · 0)

/-- The reference a member holds to one of its inputs. -/
def refOf (ops comp slots : List Nat) (inp : Nat) : StageRef :=
  if inp ∈ ops then .member (ops.idxOf inp) else .input (slots.idxOf (comp.getD inp 0))

theorem stageRef_foldl (ops comp : List Nat) (ins slots : List Nat) (refs : List StageRef) :
    ins.foldl (stageRef ops comp) (slots, refs) =
      (((ins.filter (· ∉ ops)).map (comp.getD · 0)).foldl insertNew slots,
        refs ++ ins.map (refOf ops comp
          (((ins.filter (· ∉ ops)).map (comp.getD · 0)).foldl insertNew slots))) := by
  induction ins using List.reverseRecOn generalizing refs with
  | nil => simp
  | append_singleton ins x ih =>
      rw [List.foldl_append, ih, List.foldl_cons, List.foldl_nil, stageRef]
      by_cases hx : x ∈ ops
      · simp [hx, refOf]
      · have hkeep : ins.map (refOf ops comp (((ins.filter (· ∉ ops)).map
            (comp.getD · 0)).foldl insertNew slots)) =
            ins.map (refOf ops comp (insertNew (((ins.filter (· ∉ ops)).map
              (comp.getD · 0)).foldl insertNew slots) (comp.getD x 0))) := by
          refine List.map_congr_left fun y hy => ?_
          unfold refOf
          split_ifs with hyops
          · rfl
          · congr 1
            refine (idxOf_of_isPrefix (prefix_insertNew _ _) ?_).symm
            refine mem_foldl_insertNew.mpr (Or.inr (List.mem_map_of_mem ?_))
            exact List.mem_filter.mpr ⟨hy, by simpa using hyops⟩
        have hfilter : (ins ++ [x]).filter (· ∉ ops) = ins.filter (· ∉ ops) ++ [x] := by
          simp [List.filter_append, hx]
        rw [if_neg hx, hfilter, List.map_append, List.map_singleton, List.foldl_append,
          List.foldl_cons, List.foldl_nil, List.map_append, List.map_singleton, hkeep]
        simp [refOf, hx]

/-- A stage's slots are its outside reads in first-use order. -/
theorem fuseStage_eq (g : EngineGraph) (ops comp reducedId : List Nat) :
    fuseStage g ops comp reducedId =
      .stage ((firsts (outsideReads g ops comp ops)).map reducedId.idxOf)
        (ops.map fun op => ⟨(nodeAt g op).token, (nodeAt g op).inputs.map
          (refOf ops comp (firsts (outsideReads g ops comp ops)))⟩) := by
  have hfold : ∀ members : List Nat,
      members.foldl (StageBuild.step g ops comp) ⟨[], []⟩ =
        ⟨firsts (outsideReads g ops comp members), members.map fun op =>
          ⟨(nodeAt g op).token, (nodeAt g op).inputs.map
            (refOf ops comp (firsts (outsideReads g ops comp members)))⟩⟩ := by
    intro members
    induction members using List.reverseRecOn with
    | nil => rfl
    | append_singleton members op ih =>
        have hreads : firsts (outsideReads g ops comp (members ++ [op])) =
            ((((nodeAt g op).inputs.filter (· ∉ ops)).map (comp.getD · 0))).foldl insertNew
              (firsts (outsideReads g ops comp members)) := by
          rw [outsideReads, List.flatMap_append, firsts_append]
          simp [outsideReads]
        rw [List.foldl_append, ih, List.foldl_cons, List.foldl_nil, StageBuild.step]
        simp only
        change (⟨(List.foldl (stageRef ops comp) _ (nodeAt g op).inputs).1,
          _ ++ [⟨(nodeAt g op).token,
            (List.foldl (stageRef ops comp) _ (nodeAt g op).inputs).2⟩]⟩ : StageBuild) = _
        rw [stageRef_foldl, hreads, List.map_append, List.map_singleton, List.nil_append]
        congr 2
        refine List.map_congr_left fun m hm => ?_
        congr 1
        refine List.map_congr_left fun y hy => ?_
        unfold refOf
        split_ifs with hyops
        · rfl
        · congr 1
          refine (idxOf_of_isPrefix (prefix_foldl_insertNew _ _) ?_).symm
          refine mem_firsts.mpr (List.mem_flatMap.mpr ⟨m, hm, List.mem_map_of_mem ?_⟩)
          exact List.mem_filter.mpr ⟨hy, by simpa using hyops⟩
  rw [fuseStage, hfold]

/-! ### The loop over the components -/

/-- The reduced node of a component, `ids` being the components by reduced id. -/
def componentNode (g : EngineGraph) (keys : List NodeKey) (comp ids : List Nat) (c : Nat) :
    NodeKey :=
  if isBoundaryAt g c then
    (template keys (nodeAt g c).token).withInputs
      ((nodeAt g c).inputs.map fun i => ids.idxOf (comp.getD i 0))
  else fuseStage g (membersOf comp c) comp ids

/-- Where a node lands. -/
def landingOf (g : EngineGraph) (comp ids : List Nat) (i : Nat) : Landing :=
  (ids.idxOf (comp.getD i 0),
    if isBoundaryAt g i then none else some ((membersOf comp (comp.getD i 0)).idxOf i))

theorem length_landMembers (members : List Nat) (rid : Nat) (landing : List Landing) :
    (landMembers members rid landing).length = landing.length := by
  unfold landMembers
  generalize members.zipIdx = ps
  induction ps generalizing landing with
  | nil => rfl
  | cons p ps ih => rw [List.foldl_cons, ih, List.length_set]

theorem landMembers_getD {members : List Nat} (hnodup : members.Nodup) (rid : Nat)
    (landing : List Landing) (hlt : ∀ m ∈ members, m < landing.length) (i : Nat) :
    (landMembers members rid landing).getD i (0, none) =
      if i ∈ members then (rid, some (members.idxOf i)) else landing.getD i (0, none) := by
  induction members using List.reverseRecOn with
  | nil => simp [landMembers]
  | append_singleton members m ih =>
      have hsplit := List.nodup_append.mp hnodup
      have hm : m ∉ members := fun h => hsplit.2.2 m h m (by simp) rfl
      have hstep : landMembers (members ++ [m]) rid landing =
          (landMembers members rid landing).set m (rid, some members.length) := by
        simp [landMembers, List.zipIdx_append, List.foldl_append]
      have hmlt : m < (landMembers members rid landing).length := by
        rw [length_landMembers]
        exact hlt m (by simp)
      rw [hstep, List.getD_eq_getElem?_getD, List.getElem?_set]
      by_cases him : m = i
      · subst him
        simp [hmlt, hm, List.idxOf_append_of_notMem]
      · rw [if_neg him, ← List.getD_eq_getElem?_getD,
          ih hsplit.1 fun k hk => hlt k (List.mem_append_left _ hk)]
        by_cases hi : i ∈ members
        · simp [hi, List.idxOf_append_of_mem]
        · simp [hi, Ne.symm him]

section Loop

variable (hplan : FusionPlan g comp) (hg : g.Topological) (keys : List NodeKey)
include hplan hg

/-- A rebuilt component reads components before it. -/
theorem lt_of_mem_inputs_componentNode {c x : Nat} (hc : c ∈ comp)
    (hx : x ∈ (componentNode g keys comp (sortedComponents comp) c).inputs) :
    x < (sortedComponents comp).idxOf c := by
  obtain ⟨hclt, hself⟩ := hplan.label hc
  unfold componentNode at hx
  split_ifs at hx with hb
  · obtain ⟨i, hi, rfl⟩ := List.mem_map.mp (NodeKey.mem_of_mem_inputs_withInputs hx)
    rw [nodeAt_eq (List.getElem?_eq_getElem hclt)] at hi
    have hne : comp.getD i 0 ≠ comp.getD c 0 := by
      intro heq
      have hlt := hg.inputs_lt c _ (List.getElem?_eq_getElem hclt) i hi
      have hic := hplan.alone c hclt i (hlt.trans hclt) hb heq
      omega
    have hlt := hplan.idxOf_input_lt hg (List.getElem?_eq_getElem hclt) hi hne
    rwa [hself] at hlt
  · rw [fuseStage_eq] at hx
    obtain ⟨d, hd, rfl⟩ := List.mem_map.mp hx
    obtain ⟨op, hop, hd⟩ := List.mem_flatMap.mp (mem_firsts.mp hd)
    obtain ⟨i, hi, rfl⟩ := List.mem_map.mp hd
    obtain ⟨hi, hout⟩ := List.mem_filter.mp hi
    obtain ⟨hoplt, hcomp⟩ := mem_membersOf.mp hop
    have hoplt' : op < g.nodes.length := hplan.length_eq ▸ hoplt
    rw [nodeAt_eq (List.getElem?_eq_getElem hoplt')] at hi
    have hilt := (hg.inputs_lt op _ (List.getElem?_eq_getElem hoplt') i hi).trans hoplt'
    have hne : comp.getD i 0 ≠ comp.getD op 0 := by
      intro heq
      exact of_decide_eq_true hout (mem_membersOf.mpr ⟨hplan.length_eq ▸ hilt, heq.trans hcomp⟩)
    have hlt := hplan.idxOf_input_lt hg (List.getElem?_eq_getElem hoplt') hi hne
    rwa [hcomp] at hlt

/-- The rebuilt graph names earlier nodes only. -/
theorem topologicalKeys_componentNodes : GraphStore.TopologicalKeys
    ((sortedComponents comp).map (componentNode g keys comp (sortedComponents comp))) := by
  intro r key hkey x hx
  rw [List.getElem?_map, Option.map_eq_some_iff] at hkey
  obtain ⟨c, hc, rfl⟩ := hkey
  obtain ⟨hr, rfl⟩ := List.getElem?_eq_some_iff.mp hc
  have hlt := lt_of_mem_inputs_componentNode hplan hg keys
    (mem_sortedComponents.mp (List.getElem_mem hr)) hx
  rwa [nodup_sortedComponents.idxOf_getElem] at hlt

/-- Rebuilding a component reads only components rebuilt before it. -/
theorem componentNode_prefix {pre rest : List Nat} {c : Nat}
    (hsplit : sortedComponents comp = pre ++ c :: rest) :
    componentNode g keys comp pre c = componentNode g keys comp (sortedComponents comp) c := by
  have hc : c ∈ sortedComponents comp := by simp [hsplit]
  obtain ⟨hclt, hcc⟩ := hplan.label (mem_sortedComponents.mp hc)
  have hcidx : (sortedComponents comp).idxOf c = pre.length := by
    have hnotMem : c ∉ pre := by
      have hnodup : (sortedComponents comp).Nodup := nodup_sortedComponents
      rw [hsplit] at hnodup
      exact fun h => (List.nodup_append.mp hnodup).2.2 c h c List.mem_cons_self rfl
    rw [hsplit, List.idxOf_append_of_notMem hnotMem, List.idxOf_cons_self, Nat.add_zero]
  -- a component before `c` is in the prefix, at the same place
  have hbefore : ∀ d, (sortedComponents comp).idxOf d < (sortedComponents comp).idxOf c →
      pre.idxOf d = (sortedComponents comp).idxOf d := by
    intro d hd
    have hmem : d ∈ pre := by
      by_contra hnot
      rw [hcidx, hsplit, List.idxOf_append_of_notMem hnot] at hd
      omega
    rw [hsplit, List.idxOf_append_of_mem hmem]
  unfold componentNode
  split_ifs with hb
  · congr 1
    refine List.map_congr_left fun i hi => ?_
    have hnode := List.getElem?_eq_getElem hclt
    rw [nodeAt_eq hnode] at hi
    have hic := hg.inputs_lt c _ hnode i hi
    have hne : comp.getD i 0 ≠ comp.getD c 0 := fun heq => by
      have := hplan.alone c hclt i (hic.trans hclt) hb heq
      omega
    have hlt := hplan.idxOf_input_lt hg hnode hi hne
    rw [hcc] at hlt
    exact hbefore _ hlt
  · rw [fuseStage_eq, fuseStage_eq]
    congr 1
    refine List.map_congr_left fun d hd => ?_
    obtain ⟨m, hm, hd⟩ := List.mem_flatMap.mp (mem_firsts.mp hd)
    obtain ⟨i, hi, rfl⟩ := List.mem_map.mp hd
    obtain ⟨hi, hout⟩ := List.mem_filter.mp hi
    obtain ⟨hmlt, hmc⟩ := mem_membersOf.mp hm
    have hmlt' : m < g.nodes.length := hplan.length_eq ▸ hmlt
    have hnode := List.getElem?_eq_getElem hmlt'
    rw [nodeAt_eq hnode] at hi
    have him := hg.inputs_lt m _ hnode i hi
    have hne : comp.getD i 0 ≠ comp.getD m 0 := fun heq =>
      (by simpa using hout : i ∉ membersOf comp c)
        (mem_membersOf.mpr ⟨him.trans hmlt, heq.trans hmc⟩)
    have hlt := hplan.idxOf_input_lt hg hnode hi hne
    rw [hmc] at hlt
    exact hbefore _ hlt

/-- What rebuilding a prefix of the components has done. -/
theorem foldl_step_eq {pre rest : List Nat} (hsplit : sortedComponents comp = pre ++ rest) :
    ∃ stages boundaryNodes landing,
      pre.foldl (FusionState.step g keys comp)
          ⟨[], [], List.replicate g.nodes.length (0, none), 0, 0⟩ =
        ⟨pre, pre.map (componentNode g keys comp (sortedComponents comp)), landing, stages,
          boundaryNodes⟩ ∧
      landing.length = g.nodes.length ∧
      ∀ i < g.nodes.length, comp.getD i 0 ∈ pre →
        landing.getD i (0, none) = landingOf g comp (sortedComponents comp) i := by
  induction pre using List.reverseRecOn generalizing rest with
  | nil => exact ⟨0, 0, _, rfl, by simp, by simp⟩
  | append_singleton pre c ih =>
      have hsplit' : sortedComponents comp = pre ++ c :: rest := by simpa using hsplit
      obtain ⟨stages, boundaryNodes, landing, hstate, hlen, hland⟩ := ih hsplit'
      have hc : c ∈ sortedComponents comp := by simp [hsplit']
      obtain ⟨hclt, hcc⟩ := hplan.label (mem_sortedComponents.mp hc)
      have hnotMem : c ∉ pre := by
        have hnodup : (sortedComponents comp).Nodup := nodup_sortedComponents
        rw [hsplit'] at hnodup
        exact fun h => (List.nodup_append.mp hnodup).2.2 c h c List.mem_cons_self rfl
      have hcidx : (sortedComponents comp).idxOf c = pre.length := by
        rw [hsplit', List.idxOf_append_of_notMem hnotMem, List.idxOf_cons_self, Nat.add_zero]
      have hnode := componentNode_prefix hplan hg keys hsplit'
      rw [List.foldl_append, hstate, List.foldl_cons, List.foldl_nil]
      unfold FusionState.step
      simp only [List.length_map]
      split_ifs with hb
      · refine ⟨stages, boundaryNodes + 1, landing.set c (pre.length, none), ?_, ?_,
          fun i hi hmem => ?_⟩
        · rw [List.map_append, List.map_singleton, ← hnode, componentNode, if_pos hb]
          rfl
        · rw [List.length_set, hlen]
        · have hself := hplan.membersOf_boundary hclt hb
          rw [List.getD_eq_getElem?_getD, List.getElem?_set]
          by_cases hci : c = i
          · subst hci
            rw [if_pos rfl, if_pos (hlen.symm ▸ hi), Option.getD_some, landingOf, hcc, hcidx,
              if_pos hb]
          · rw [if_neg hci, ← List.getD_eq_getElem?_getD]
            refine hland i hi ((List.mem_append.mp hmem).resolve_right fun hlast => ?_)
            exact hci (hself.2 i (mem_membersOf.mpr
              ⟨hplan.length_eq ▸ hi, List.mem_singleton.mp hlast⟩)).symm
      · refine ⟨stages + 1, boundaryNodes, landMembers (membersOf comp c) pre.length landing, ?_,
          ?_, fun i hi hmem => ?_⟩
        · rw [List.map_append, List.map_singleton, ← hnode, componentNode, if_neg hb]
        · rw [length_landMembers, hlen]
        · rw [landMembers_getD (nodup_membersOf c) _ _ fun m hm => by
            rw [hlen, ← hplan.length_eq]
            exact (mem_membersOf.mp hm).1]
          by_cases hic : comp.getD i 0 = c
          · subst hic
            rw [if_pos (hplan.mem_membersOf_self hi), landingOf, hcidx,
              ← hplan.isBoundaryAt_label hi, if_neg hb]
          · rw [if_neg fun h => hic (mem_membersOf.mp h).2]
            refine hland i hi ((List.mem_append.mp hmem).resolve_right fun hlast => ?_)
            exact hic (List.mem_singleton.mp hlast)

/-- **What rebuilding emits**: a node for each component in order, and where every node landed. -/
theorem fuseComponents_eq :
    (fuseComponents g keys comp).1.nodes =
        (sortedComponents comp).map (componentNode g keys comp (sortedComponents comp)) ∧
      (fuseComponents g keys comp).1.outputs =
        g.outputs.map (fun o => (sortedComponents comp).idxOf (comp.getD o 0)) ∧
      ∀ i < g.nodes.length, (fuseComponents g keys comp).2.getD i (0, none) =
        landingOf g comp (sortedComponents comp) i := by
  obtain ⟨stages, boundaryNodes, landing, hstate, -, hland⟩ :=
    foldl_step_eq hplan hg keys (List.append_nil (sortedComponents comp)).symm
  unfold fuseComponents
  rw [hstate]
  exact ⟨rfl, rfl, fun i hi => hland i hi (mem_sortedComponents.mpr (hplan.getD_mem hi))⟩

end Loop

end Graphed
