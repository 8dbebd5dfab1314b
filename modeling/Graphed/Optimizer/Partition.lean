import Graphed.Optimizer.Proof.Joins
import Graphed.Optimizer.Proof.Reintern
import Graphed.Optimizer.Proof.Stages

/-!
# Stage fusion partitions a graph

Every operator is a member of one stage and every boundary node a reduced node of its own, in both
modes; a stage's value leaves it at its last member; and the two modes differ in which operators
they put together.
-/

namespace Graphed

open FirstSeen GraphStore

/-- Where stage fusion lands node `i`: a reduced node and, for an operator, its place there. -/
def landed (fused : Reduced × List Landing) (i : Nat) : Landing := fused.2.getD i (0, none)

/-- A stage of the reduced graph, seen from the nodes that landed in it. -/
structure StageHolds (g : EngineGraph) (fused : Reduced × List Landing) (r : Nat)
    (inputs : List Nat) (members : List StageOp) : Prop where
  filled : ∀ k < members.length, ∃ i < g.nodes.length, landed fused i = (r, some k)
  ascending : ∀ i < g.nodes.length, ∀ j < g.nodes.length, ∀ a b, landed fused i = (r, some a) →
    landed fused j = (r, some b) → i < j → a < b
  member_lt : ∀ (k : Nat) (m : StageOp), members[k]? = some m → ∀ j, .member j ∈ m.inputs → j < k
  slot_lt : ∀ m ∈ members, ∀ s, .input s ∈ m.inputs → s < inputs.length
  slots_nodup : inputs.Nodup
  slots_lt : ∀ s ∈ inputs, s < r
  escapes_last : ∀ i < g.nodes.length, ∀ k, landed fused i = (r, some k) →
    (i ∈ g.outputs ∨ ∃ c, Consumes g c i ∧ (landed fused c).1 ≠ r) → k + 1 = members.length

/-- The reduced nodes partition the graph's nodes. -/
structure FusedPartition (g : EngineGraph) (keys : List NodeKey) (fused : Reduced × List Landing) :
    Prop where
  injective : ∀ i < g.nodes.length, ∀ j < g.nodes.length, landed fused i = landed fused j → i = j
  covered : ∀ r < fused.1.nodes.length, ∃ i < g.nodes.length, (landed fused i).1 = r
  op : ∀ (i : Nat) (node : EngineNode), g.nodes[i]? = some node → node.boundary = false →
    ∃ r k inputs members refs, landed fused i = (r, some k) ∧
      fused.1.nodes[r]? = some (.stage inputs members) ∧ members[k]? = some ⟨node.token, refs⟩ ∧
      StageHolds g fused r inputs members
  boundary : ∀ (i : Nat) (node : EngineNode), g.nodes[i]? = some node → node.boundary = true →
    ∃ r, ∃ key ∈ keys, key.token = node.token ∧ landed fused i = (r, none) ∧
      fused.1.nodes[r]? = some (key.withInputs (node.inputs.map fun x => (landed fused x).1)) ∧
      ∀ j < g.nodes.length, (landed fused j).1 = r → j = i

/-! ### Rebuilding partitions -/

section Rebuild

variable {g : EngineGraph} {comp : List Nat} (hplan : FusionPlan g comp) (hg : g.Topological)
  (keys : List NodeKey)
include hplan hg

theorem landed_eq {i : Nat} (hi : i < g.nodes.length) :
    landed (fuseComponents g keys comp) i = landingOf g comp (sortedComponents comp) i :=
  (fuseComponents_eq hplan hg keys).2.2 i hi

theorem landed_fst {i : Nat} (hi : i < g.nodes.length) :
    (landed (fuseComponents g keys comp) i).1 = (sortedComponents comp).idxOf (comp.getD i 0) := by
  rw [landed_eq hplan hg keys hi, landingOf]

/-- Two nodes share a reduced node exactly when they share a component. -/
theorem landed_fst_eq_iff {i j : Nat} (hi : i < g.nodes.length) (hj : j < g.nodes.length) :
    (landed (fuseComponents g keys comp) i).1 = (landed (fuseComponents g keys comp) j).1 ↔
      comp.getD i 0 = comp.getD j 0 := by
  rw [landed_fst hplan hg keys hi, landed_fst hplan hg keys hj]
  exact ⟨idxOf_sortedComponents_inj (hplan.getD_mem hi), fun h => by rw [h]⟩

theorem landed_op {i : Nat} (hi : i < g.nodes.length) (hop : isBoundaryAt g i = false) :
    landed (fuseComponents g keys comp) i = ((sortedComponents comp).idxOf (comp.getD i 0),
      some ((membersOf comp (comp.getD i 0)).idxOf i)) := by
  rw [landed_eq hplan hg keys hi, landingOf, if_neg (by rw [hop]; decide)]

theorem landed_boundary {i : Nat} (hi : i < g.nodes.length) (hb : isBoundaryAt g i = true) :
    landed (fuseComponents g keys comp) i = ((sortedComponents comp).idxOf i, none) := by
  rw [landed_eq hplan hg keys hi, landingOf, if_pos hb, (hplan.membersOf_boundary hi hb).1]

/-- The reduced node of a component. -/
theorem fuseComponents_getElem? {c : Nat} (hc : c ∈ comp) :
    (fuseComponents g keys comp).1.nodes[(sortedComponents comp).idxOf c]? =
      some (componentNode g keys comp (sortedComponents comp) c) := by
  have hlt := List.idxOf_lt_length_of_mem (mem_sortedComponents.mpr hc)
  rw [(fuseComponents_eq hplan hg keys).1, List.getElem?_map, List.getElem?_eq_getElem hlt,
    List.getElem_idxOf hlt, Option.map_some]

/-- Each reduced node is a component's, whose label landed in it. -/
theorem exists_component {r : Nat} {key : NodeKey}
    (hkey : (fuseComponents g keys comp).1.nodes[r]? = some key) : ∃ c, c ∈ comp ∧
      c < g.nodes.length ∧ (landed (fuseComponents g keys comp) c).1 = r ∧
      key = componentNode g keys comp (sortedComponents comp) c := by
  rw [(fuseComponents_eq hplan hg keys).1, List.getElem?_map, Option.map_eq_some_iff] at hkey
  obtain ⟨c, hc, rfl⟩ := hkey
  obtain ⟨hr, rfl⟩ := List.getElem?_eq_some_iff.mp hc
  have hmem := mem_sortedComponents.mp (List.getElem_mem hr)
  obtain ⟨hlt, hself⟩ := hplan.label hmem
  refine ⟨_, hmem, hlt, ?_, rfl⟩
  rw [landed_fst hplan hg keys hlt, hself, nodup_sortedComponents.idxOf_getElem]

/-- Nodes that land in an operator's stage are the members of its component. -/
theorem mem_membersOf_of_landed {i j r k : Nat} (hi : i < g.nodes.length)
    (hj : j < g.nodes.length) (hr : (landed (fuseComponents g keys comp) i).1 = r)
    (hland : landed (fuseComponents g keys comp) j = (r, some k)) :
    j ∈ membersOf comp (comp.getD i 0) ∧ (membersOf comp (comp.getD i 0)).idxOf j = k := by
  have hsame : comp.getD j 0 = comp.getD i 0 :=
    (landed_fst_eq_iff hplan hg keys hj hi).mp (by rw [hland, hr])
  have hop : isBoundaryAt g j = false := by
    by_contra hb
    rw [landed_boundary hplan hg keys hj (by simpa using hb)] at hland
    exact absurd (congrArg Prod.snd hland) (by simp)
  rw [landed_op hplan hg keys hj hop] at hland
  rw [← hsame]
  exact ⟨hplan.mem_membersOf_self hj, Option.some.inj (congrArg Prod.snd hland)⟩

/-- **What a stage holds.** -/
theorem stageHolds {i : Nat} (hi : i < g.nodes.length) (hop : isBoundaryAt g i = false) :
    StageHolds g (fuseComponents g keys comp) ((sortedComponents comp).idxOf (comp.getD i 0))
      ((stageSlots g comp (comp.getD i 0)).map (sortedComponents comp).idxOf)
      ((membersOf comp (comp.getD i 0)).map fun op => ⟨(nodeAt g op).token,
        (nodeAt g op).inputs.map (refOf (membersOf comp (comp.getD i 0)) comp
          (stageSlots g comp (comp.getD i 0)))⟩) := by
  have hfst := landed_fst hplan hg keys hi
  have hmem := hplan.getD_mem hi
  have hlabel : isBoundaryAt g (comp.getD i 0) = false := by
    rw [hplan.isBoundaryAt_label hi, hop]
  have hmemlt : ∀ m ∈ membersOf comp (comp.getD i 0), m < g.nodes.length := fun m hm =>
    hplan.length_eq ▸ (mem_membersOf.mp hm).1
  have hascending : (membersOf comp (comp.getD i 0)).Pairwise (· < ·) := pairwise_membersOf _
  have hsorted := List.pairwise_iff_getElem.mp hascending
  -- an earlier node of the component has an earlier place in the stage
  have hplace : ∀ x ∈ membersOf comp (comp.getD i 0), ∀ y ∈ membersOf comp (comp.getD i 0), x < y →
      (membersOf comp (comp.getD i 0)).idxOf x < (membersOf comp (comp.getD i 0)).idxOf y := by
    intro x hx y hy hxy
    have hxlt := List.idxOf_lt_length_of_mem hx
    have hylt := List.idxOf_lt_length_of_mem hy
    by_contra hle
    rcases Nat.lt_or_eq_of_le (Nat.not_lt.mp hle) with hlt | heq
    · have := hsorted _ _ hylt hxlt hlt
      rw [List.getElem_idxOf, List.getElem_idxOf] at this
      omega
    · rw [(List.idxOf_inj hy).mp heq] at hxy
      exact absurd hxy (Nat.lt_irrefl x)
  refine ⟨fun k hk => ?_, fun a ha b hb p q hpa hqb hab => ?_, fun k m hm j hj => ?_,
    fun m hm s hs => ?_, ?_, fun s hs => ?_, fun j hj k hland hesc => ?_⟩
  · rw [List.length_map] at hk
    have hkmem : (membersOf comp (comp.getD i 0))[k] ∈ membersOf comp (comp.getD i 0) :=
      List.getElem_mem hk
    have hkc := (mem_membersOf.mp hkmem).2
    refine ⟨_, hmemlt _ hkmem, ?_⟩
    have hkop : isBoundaryAt g (membersOf comp (comp.getD i 0))[k] = false := by
      rw [← hplan.isBoundaryAt_label (hmemlt _ hkmem), hkc, hlabel]
    rw [landed_op hplan hg keys (hmemlt _ hkmem) hkop, hkc,
      (nodup_membersOf (comp.getD i 0)).idxOf_getElem]
  · obtain ⟨hamem, rfl⟩ := mem_membersOf_of_landed hplan hg keys hi ha hfst hpa
    obtain ⟨hbmem, rfl⟩ := mem_membersOf_of_landed hplan hg keys hi hb hfst hqb
    exact hplace a hamem b hbmem hab
  · rw [List.getElem?_map, Option.map_eq_some_iff] at hm
    obtain ⟨op, hget, rfl⟩ := hm
    obtain ⟨hk, rfl⟩ := List.getElem?_eq_some_iff.mp hget
    have hopmem : (membersOf comp (comp.getD i 0))[k] ∈ membersOf comp (comp.getD i 0) :=
      List.getElem_mem hk
    obtain ⟨x, hx, href⟩ := List.mem_map.mp hj
    unfold refOf at href
    split_ifs at href with hin
    obtain rfl := StageRef.member.inj href
    have hlt := hplace x hin _ hopmem (nodeAt_input_lt hg (hmemlt _ hopmem) hx)
    rwa [(nodup_membersOf (comp.getD i 0)).idxOf_getElem] at hlt
  · obtain ⟨op, hopmem, rfl⟩ := List.mem_map.mp hm
    obtain ⟨x, hx, href⟩ := List.mem_map.mp hs
    unfold refOf at href
    split_ifs at href with hin
    obtain rfl := StageRef.input.inj href
    rw [List.length_map]
    exact List.idxOf_lt_length_of_mem (mem_stageSlots.mpr ⟨op, hopmem, x, hx, hin, rfl⟩)
  · refine (nodup_firsts _).map_on fun x hx y _ hxy => ?_
    exact idxOf_sortedComponents_inj (hplan.stageSlots_mem hg hx) hxy
  · refine lt_of_mem_inputs_componentNode hplan hg keys hmem ?_
    rw [componentNode_op hlabel]
    exact hs
  · obtain ⟨hjmem, rfl⟩ := mem_membersOf_of_landed hplan hg keys hi hj hfst hland
    have hjc := (mem_membersOf.mp hjmem).2
    have hescapes : Escapes g comp j := by
      rcases hesc with hout | ⟨c, ⟨node, hnode, hread⟩, hne⟩
      · exact Or.inl hout
      · refine Or.inr ⟨c, node, hnode, hread, fun heq => hne ?_⟩
        rw [landed_fst hplan hg keys (List.getElem?_eq_some_iff.mp hnode).1, heq, hjc]
    have hhead := hplan.headOf_eq_of_escapes hj hescapes
    rw [hjc] at hhead
    have hlast := getLast?_membersOf hjmem
    rw [hhead, List.getLast?_eq_getElem?] at hlast
    obtain ⟨hlt, hget⟩ := List.getElem?_eq_some_iff.mp hlast
    have hidx := (nodup_membersOf (comp.getD i 0)).idxOf_getElem _ hlt
    rw [hget] at hidx
    rw [hidx, List.length_map]
    omega

/-- **Rebuilding under a plan partitions the nodes.** -/
theorem partition_fuseComponents (hkeys : g.Templated keys) :
    FusedPartition g keys (fuseComponents g keys comp) := by
  refine ⟨fun i hi j hj heq => ?_, fun r hr => ?_, fun i node hnode hop => ?_,
    fun i node hnode hb => ?_⟩
  · have hsame := (landed_fst_eq_iff hplan hg keys hi hj).mp (congrArg Prod.fst heq)
    by_cases hb : isBoundaryAt g i = true
    · exact (hplan.alone i hi j hj hb hsame.symm).symm
    · have hjb : isBoundaryAt g j = false := by
        rw [← hplan.isBoundaryAt_label hj, ← hsame, hplan.isBoundaryAt_label hi]
        simpa using hb
      have hsnd := congrArg Prod.snd heq
      rw [landed_op hplan hg keys hi (by simpa using hb), landed_op hplan hg keys hj hjb,
        ← hsame] at hsnd
      exact (List.idxOf_inj (hplan.mem_membersOf_self hi)).mp (Option.some.inj hsnd)
  · obtain ⟨c, -, hlt, hland, -⟩ := exists_component hplan hg keys (List.getElem?_eq_getElem hr)
    exact ⟨c, hlt, hland⟩
  · have hi := (List.getElem?_eq_some_iff.mp hnode).1
    have hiop : isBoundaryAt g i = false := by
      rw [isBoundaryAt, List.getD_eq_getElem?_getD, hnode]
      exact hop
    have hlabel : isBoundaryAt g (comp.getD i 0) = false := by
      rw [hplan.isBoundaryAt_label hi, hiop]
    have hself := hplan.mem_membersOf_self hi
    have hlt := List.idxOf_lt_length_of_mem hself
    refine ⟨_, _, _, _, node.inputs.map (refOf (membersOf comp (comp.getD i 0)) comp
      (stageSlots g comp (comp.getD i 0))), landed_op hplan hg keys hi hiop, ?_, ?_,
      stageHolds hplan hg keys hi hiop⟩
    · rw [fuseComponents_getElem? hplan hg keys (hplan.getD_mem hi), componentNode_op hlabel]
    · rw [List.getElem?_map, List.getElem?_eq_getElem hlt, List.getElem_idxOf hlt, Option.map_some,
        nodeAt_eq hnode]
  · have hi := (List.getElem?_eq_some_iff.mp hnode).1
    have hib : isBoundaryAt g i = true := by
      rw [isBoundaryAt, List.getD_eq_getElem?_getD, hnode]
      exact hb
    obtain ⟨hself, halone⟩ := hplan.membersOf_boundary hi hib
    obtain ⟨key, hkey, htoken, -⟩ := hkeys node (List.mem_of_getElem? hnode) hb
    obtain ⟨htmem, httoken⟩ := template_spec ⟨key, hkey, htoken⟩
    refine ⟨_, template keys node.token, htmem, httoken, landed_boundary hplan hg keys hi hib, ?_,
      fun j hj hland => ?_⟩
    · have hmem : i ∈ comp := hself ▸ hplan.getD_mem hi
      rw [fuseComponents_getElem? hplan hg keys hmem, componentNode, if_pos hib, nodeAt_eq hnode]
      congr 2
      refine List.map_congr_left fun x hx => ?_
      have hxi := hg.inputs_lt i node hnode x hx
      exact (landed_fst hplan hg keys (hxi.trans hi)).symm
    · refine hplan.alone i hi j hj hib ?_
      rw [landed_fst hplan hg keys hj] at hland
      exact (idxOf_sortedComponents_inj (hplan.getD_mem hj) hland).trans hself.symm

/-- The reduced nodes name earlier ones. -/
theorem topologicalKeys_fuseComponents :
    TopologicalKeys (fuseComponents g keys comp).1.nodes := by
  rw [(fuseComponents_eq hplan hg keys).1]
  exact topologicalKeys_componentNodes hplan hg keys

/-- **Two equal reduced nodes** are a boundary node that is a stage already and a fused stage. -/
theorem boundary_stage_of_beq (hkeys : g.Templated keys) (hdistinct : g.Distinct) {r s : Nat}
    {a b : NodeKey} (hne : r ≠ s) (ha : (fuseComponents g keys comp).1.nodes[r]? = some a)
    (hb : (fuseComponents g keys comp).1.nodes[s]? = some b) (hbeq : (a == b) = true) :
    ∃ i j, i < g.nodes.length ∧ j < g.nodes.length ∧ isBoundaryAt g i = true ∧
      isBoundaryAt g j = false ∧ (template keys (nodeAt g i).token).isStage = true ∧
      ((landed (fuseComponents g keys comp) i).1 = r ∧
          (landed (fuseComponents g keys comp) j).1 = s ∨
        (landed (fuseComponents g keys comp) i).1 = s ∧
          (landed (fuseComponents g keys comp) j).1 = r) := by
  obtain ⟨c, hc, hcn, hcr, rfl⟩ := exists_component hplan hg keys ha
  obtain ⟨d, hd, hdn, hds, rfl⟩ := exists_component hplan hg keys hb
  rw [NodeKey.beq_iff] at hbeq
  have hcd : c ≠ d := by
    rintro rfl
    exact hne (hcr.symm.trans hds)
  have hstage : ∀ {x y : Nat}, isBoundaryAt g x = true → isBoundaryAt g y = false →
      (componentNode g keys comp (sortedComponents comp) x).canon =
        (componentNode g keys comp (sortedComponents comp) y).canon →
      (template keys (nodeAt g x).token).isStage = true := by
    intro x y hx hy h
    rw [componentNode_op hy, componentNode, if_pos hx, NodeKey.canon_withInputs] at h
    have hkind := congrArg NodeKey.isStage h
    rw [NodeKey.isStage_withInputs] at hkind
    have hcanon : ∀ key : NodeKey, key.canon.isStage = key.isStage := by
      intro key
      cases key <;> rfl
    rwa [hcanon] at hkind
  cases hcb : isBoundaryAt g c with
  | true =>
      cases hdb : isBoundaryAt g d with
      | true => exact absurd (hplan.eq_of_boundary_eq hg hdistinct hkeys hc hd hcb hdb hbeq) hcd
      | false => exact ⟨c, d, hcn, hdn, hcb, hdb, hstage hcb hdb hbeq, Or.inl ⟨hcr, hds⟩⟩
  | false =>
      cases hdb : isBoundaryAt g d with
      | true => exact ⟨d, c, hdn, hcn, hdb, hcb, hstage hdb hcb hbeq.symm, Or.inr ⟨hds, hcr⟩⟩
      | false =>
          refine absurd (hplan.eq_of_stage_eq hg hdistinct hc hcb hdb keys ?_) hcd
          rwa [componentNode_op hcb, componentNode_op hdb] at hbeq ⊢

end Rebuild

/-! ### Re-interning distinct nodes -/

/-- Nodes that spell different keys are re-interned at their own places. -/
theorem reinternMap_eq_range {red : Reduced} (h : TopologicalKeys red.nodes)
    (hdistinct : ∀ (r s : Nat) (a b : NodeKey), red.nodes[r]? = some a → red.nodes[s]? = some b →
      (a == b) = true → r = s) : reinternMap red = List.range red.nodes.length := by
  have hacc : Reinterned red.nodes (red.nodes.foldl reintern (new, [])) := reinterned_foldl h
  have hlen : (reinternMap red).length = red.nodes.length := hacc.length_eq
  -- two nodes with one id read the same earlier nodes, so they spell one key
  have hlt : ∀ s, s < red.nodes.length → ∀ r < s,
      (reinternMap red).getD r 0 ≠ (reinternMap red).getD s 0 := by
    intro s
    induction s using Nat.strong_induction_on with
    | _ s ih =>
        intro hs r hr heq
        have hget := List.getElem?_eq_getElem (hr.trans hs)
        have hgets := List.getElem?_eq_getElem hs
        obtain ⟨k, hk, hkr, -⟩ := hacc.node_eq r _ hget
        obtain ⟨k', hk', hks, -⟩ := hacc.node_eq s _ hgets
        change (red.nodes.foldl reintern (new, [])).1.nodes[(reinternMap red).getD r 0]? =
          some k at hk
        change (red.nodes.foldl reintern (new, [])).1.nodes[(reinternMap red).getD s 0]? =
          some k' at hk'
        rw [← heq, hk] at hk'
        obtain rfl := Option.some.inj hk'
        have hsame := hkr.symm.trans hks
        have hop := congrArg NodeKey.operator hsame
        simp only [NodeKey.operator_canon, NodeKey.operator_withInputs] at hop
        have hins := congrArg NodeKey.inputs hsame
        simp only [NodeKey.inputs_canon, NodeKey.inputs_withInputs_map] at hins
        have hread : red.nodes[r].inputs = red.nodes[s].inputs := by
          refine eq_of_map_eq hins fun x hx y hy hxy => ?_
          have hxr := h r _ hget x hx
          have hys := h s _ hgets y hy
          rcases Nat.lt_trichotomy x y with hlt | rfl | hgt
          · exact absurd hxy (ih y hys (hys.trans hs) x hlt)
          · rfl
          · exact absurd hxy.symm (ih x (hxr.trans hr) (by omega) y hgt)
        have := hdistinct r s _ _ hget hgets (NodeKey.beq_iff_operator.mpr ⟨hop, hread⟩)
        omega
  have hnodup : (reinternMap red).Nodup := by
    rw [List.nodup_iff_pairwise_ne, List.pairwise_iff_getElem]
    intro r s hr hs hrs
    rw [← getD_eq_getElem hr, ← getD_eq_getElem hs]
    exact hlt s (hlen ▸ hs) r hrs
  have hnumbering : IdNumbering (reinternMap red) _ := hacc.numbering
  rw [IdNumbering, firsts_of_nodup hnodup] at hnumbering
  have hcount := congrArg List.length hnumbering
  rw [hlen, List.length_range] at hcount
  rw [hnumbering, ← hcount]

/-! ### Both modes -/

/-- What stage fusion does to a graph, in both modes. -/
structure FusionLaws (g : EngineGraph) (keys : List NodeKey) : Prop where
  partition : ∀ mode, FusedPartition g keys (stageFusion g keys mode)
  /-- Equal reduced nodes are a boundary node that is a stage already and a fused stage. -/
  equal_nodes : ∀ mode r s a b, r ≠ s → (stageFusion g keys mode).1.nodes[r]? = some a →
    (stageFusion g keys mode).1.nodes[s]? = some b → (a == b) = true →
    ∃ i j, i < g.nodes.length ∧ j < g.nodes.length ∧ isBoundaryAt g i = true ∧
      isBoundaryAt g j = false ∧ (template keys (nodeAt g i).token).isStage = true ∧
      ((landed (stageFusion g keys mode) i).1 = r ∧ (landed (stageFusion g keys mode) j).1 = s ∨
        (landed (stageFusion g keys mode) i).1 = s ∧ (landed (stageFusion g keys mode) j).1 = r)
  reinterned : (∀ node ∈ g.nodes, node.boundary = true →
      (template keys node.token).isStage = false) →
    ∀ mode, reinternMap (stageFusion g keys mode).1 =
      List.range (stageFusion g keys mode).1.nodes.length
  single_use : ∀ i c, isBoundaryAt g i = false → Consumes g c i →
    ((landed (stageFusion g keys .singleUse) c).1 = (landed (stageFusion g keys .singleUse) i).1 ↔
      useCount g i = 1 ∧ isBoundaryAt g c = false ∧ i ∉ g.outputs)
  maximal : ∀ i < g.nodes.length, isBoundaryAt g i = false →
    ((∃ c, Consumes g c i) ∧ (∀ c, Consumes g c i →
        (landed (stageFusion g keys .maximal) c).1 = (landed (stageFusion g keys .maximal) i).1) ↔
      i ∉ g.outputs ∧ (∃ c, Consumes g c i) ∧ (∀ c, Consumes g c i → isBoundaryAt g c = false) ∧
        ∃ r, ∀ c, Consumes g c i → (landed (stageFusion g keys .maximal) c).1 = r)
  /-- A maximal stage that holds one consumer of an operator and the operator holds them all. -/
  maximal_all : ∀ i c, Consumes g c i → (landed (stageFusion g keys .maximal) c).1 =
      (landed (stageFusion g keys .maximal) i).1 →
    ∀ d, Consumes g d i → (landed (stageFusion g keys .maximal) d).1 =
      (landed (stageFusion g keys .maximal) i).1
  contained : ∀ i < g.nodes.length, ∀ j < g.nodes.length, isBoundaryAt g i = false →
    isBoundaryAt g j = false → (landed (stageFusion g keys .singleUse) i).1 =
      (landed (stageFusion g keys .singleUse) j).1 →
    (landed (stageFusion g keys .maximal) i).1 = (landed (stageFusion g keys .maximal) j).1

theorem stageFusion_fst_eq_iff {g : EngineGraph} (hg : g.Topological) (keys : List NodeKey)
    (mode : FusionMode) {i j : Nat} (hi : i < g.nodes.length) (hj : j < g.nodes.length) :
    (landed (stageFusion g keys mode) i).1 = (landed (stageFusion g keys mode) j).1 ↔
      (mode.components g).getD i 0 = (mode.components g).getD j 0 :=
  landed_fst_eq_iff (mode.plan hg) hg keys hi hj

/-- The maximal rule, read off where the nodes landed. -/
theorem maximal_landed_iff {g : EngineGraph} (hg : g.Topological) (keys : List NodeKey) {i : Nat}
    (hi : i < g.nodes.length) (hop : isBoundaryAt g i = false) :
    (∃ c, Consumes g c i) ∧ (∀ c, Consumes g c i →
        (landed (stageFusion g keys .maximal) c).1 = (landed (stageFusion g keys .maximal) i).1) ↔
      i ∉ g.outputs ∧ (∃ c, Consumes g c i) ∧ (∀ c, Consumes g c i → isBoundaryAt g c = false) ∧
        ∃ r, ∀ c, Consumes g c i → (landed (stageFusion g keys .maximal) c).1 = r := by
  constructor
  · rintro ⟨⟨c, hc⟩, hall⟩
    have hin := allIn_of_maximal_eq hg hc
      ((stageFusion_fst_eq_iff hg keys .maximal hc.lt_length hi).mp (hall c hc))
    exact ⟨hin.not_output, hin.used, hin.ops, _, hall⟩
  · rintro ⟨hout, ⟨c, hc⟩, hops, r, hr⟩
    have hin : AllIn g (maximalComponents g) i :=
      ⟨hout, ⟨c, hc⟩, hops, (maximalComponents g).getD c 0, fun e he =>
        (stageFusion_fst_eq_iff hg keys .maximal he.lt_length hc.lt_length).mp
          ((hr e he).trans (hr c hc).symm)⟩
    refine ⟨⟨c, hc⟩, fun d hd => ?_⟩
    rw [stageFusion_fst_eq_iff hg keys .maximal hd.lt_length hi]
    exact joinedFrom_maximalComponents hg i (Nat.zero_le i) hop hin d hd

theorem maximal_landed_all {g : EngineGraph} (hg : g.Topological) (keys : List NodeKey) {i c d : Nat}
    (hc : Consumes g c i) (hd : Consumes g d i) (heq : (landed (stageFusion g keys .maximal) c).1 =
      (landed (stageFusion g keys .maximal) i).1) :
    (landed (stageFusion g keys .maximal) d).1 = (landed (stageFusion g keys .maximal) i).1 := by
  have hi := (hc.lt hg).trans hc.lt_length
  rw [stageFusion_fst_eq_iff hg keys .maximal hc.lt_length hi] at heq
  rw [stageFusion_fst_eq_iff hg keys .maximal hd.lt_length hi]
  obtain ⟨r, hr⟩ := (allIn_of_maximal_eq hg hc heq).shared
  exact (hr d hd).trans ((hr c hc).symm.trans heq)

/-- A source, an operator on it, and a stage node that fuses the same operator. -/
def restagedKeys : List NodeKey :=
  [.source "x" (.new []), .op "f" (.new []) [0], .stage [0] [⟨"op|f", [.input 0]⟩]]

def restagedGraph : EngineGraph :=
  ⟨[⟨"src|x", true, []⟩, ⟨"op|f", false, [0]⟩, ⟨"stage|op%7Cf=i0", true, [0]⟩], [1, 2]⟩

theorem restagedGraph_topological : restagedGraph.Topological where
  inputs_lt := by
    intro i node hnode j hj
    match i, hnode with
    | 0, hnode => cases hnode; cases hj
    | 1, hnode => cases hnode; simp_all
    | 2, hnode => cases hnode; simp_all
  outputs_lt := by decide

theorem restagedGraph_distinct : restagedGraph.Distinct := by
  intro c d m n hm hn htoken _
  have hnodup : (restagedGraph.nodes.map (·.token)).Nodup := by decide
  have hc : (restagedGraph.nodes.map (·.token))[c]? = some m.token := by
    rw [List.getElem?_map, hm, Option.map_some]
  have hd : (restagedGraph.nodes.map (·.token))[d]? = some m.token := by
    rw [List.getElem?_map, hn, Option.map_some, htoken]
  exact (List.getElem?_inj (List.getElem?_eq_some_iff.mp hc).1 hnodup).mp (hc.trans hd.symm)

theorem restagedGraph_templated : restagedGraph.Templated restagedKeys := by
  intro node hnode hb
  simp only [restagedGraph, List.mem_cons, List.not_mem_nil, or_false] at hnode
  rcases hnode with rfl | rfl | rfl
  · exact ⟨_, List.mem_cons_self, by decide, fun _ => rfl⟩
  · exact absurd hb (by decide)
  · exact ⟨_, List.mem_of_getElem? (show restagedKeys[2]? = _ from rfl), by decide, by decide⟩

end Graphed
