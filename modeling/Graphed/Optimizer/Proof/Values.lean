import Graphed.Optimizer.Meaning
import Graphed.Optimizer.Proof.Pipeline
import Graphed.Optimizer.Proof.Reintern

/-!
# Values along the passes

The values of a recorded arena solve its node equations, and each pass carries the solution along its
re-indexing: DCE along the post-order, the quotients because they merge nodes of one value, fusion
because a component shows only its last node, and re-interning because equal keys have equal values.
-/

namespace Graphed

open FirstSeen GraphStore

variable {V : Type*} {I : String → List V → V}

/-! ### Values along the passes -/

/-- `v` solves a graph's node equations. -/
def EngineGraph.Values (I : String → List V → V) (g : EngineGraph) (v : Nat → V) : Prop :=
  ∀ (i : Nat) (node : EngineNode), g.nodes[i]? = some node →
    v i = I node.token (node.inputs.map v)

namespace EngineGraph.Values

variable {g h : EngineGraph} {v : Nat → V} {φ : List Nat}

/-- Nodes the rules make equal have one value, when the graph's identity nodes have their
input's. -/
theorem eq_of_ruleEq (hv : g.Values I v)
    (hcomm : ∀ t ∈ symmetricTokens, ∀ x y, I t [x, y] = I t [y, x])
    (hident : ∀ (i : Nat) (m : EngineNode) (x : Nat), g.nodes[i]? = some m →
      m.token ∈ identityTokens → m.inputs = [x] → v i = v x) {i j : Nat} (hij : RuleEq g i j) :
    v i = v j := by
  induction hij with
  | refl => rfl
  | symm _ ih => exact ih.symm
  | trans _ _ ih₁ ih₂ => exact ih₁.trans ih₂
  | @congr i j m n hm hn htoken hlen _ ih =>
      rw [hv i m hm, hv j n hn, htoken]
      congr 1
      refine List.ext_getElem (by simpa using hlen) fun k hk hk' => ?_
      rw [List.getElem_map, List.getElem_map]
      exact ih k _ _ (List.getElem?_eq_getElem (by simpa using hk))
        (List.getElem?_eq_getElem (by simpa using hk'))
  | @commute i j m n a b a' b' hm hn htoken hsym hma hnb _ _ iha ihb =>
      rw [hv i m hm, hv j n hn, hma, hnb, ← htoken]
      simp only [List.map_cons, List.map_nil, iha, ihb]
      exact hcomm _ hsym _ _
  | identity hi htoken hins => exact hident _ _ _ hi htoken hins

/-- A quotient by classes of one value carries the values along. -/
theorem quotient (hv : g.Values I v) (hq : g.Quotient h φ)
    (hφ : ∀ i < g.nodes.length, ∀ j < g.nodes.length, φ.getD i 0 = φ.getD j 0 → v i = v j)
    (hg : g.Topological) : h.Values I (fun c => v (φ.idxOf c)) ∧
      ∀ i < g.nodes.length, v (φ.idxOf (φ.getD i 0)) = v i := by
  have hrep : ∀ i < g.nodes.length, v (φ.idxOf (φ.getD i 0)) = v i := by
    intro i hi
    have hmem : φ.getD i 0 ∈ φ :=
      hq.numbering.mem_iff.mpr (hq.numbering.getD_lt (hq.length_eq.symm ▸ hi))
    refine hφ _ (hq.length_eq ▸ List.idxOf_lt_length_of_mem hmem) i hi ?_
    rw [getD_idxOf hmem]
  refine ⟨fun c m hm => ?_, hrep⟩
  obtain ⟨node, hnode, -, rfl⟩ := hq.exists_first hm
  refine (hv _ node hnode).trans ?_
  rw [List.map_map]
  congr 1
  refine List.map_congr_left fun j hj => (hrep j ?_).symm
  exact (hg.inputs_lt _ node hnode j hj).trans (List.getElem?_eq_some_iff.mp hnode).1

/-- Nodes CSE merges have one value. -/
theorem eq_of_cse (hv : g.Values I v) (hg : g.Topological) {i j : Nat} (hi : i < g.nodes.length)
    (hj : j < g.nodes.length) (h : (cse g).2.getD i 0 = (cse g).2.getD j 0) : v i = v j := by
  induction i using Nat.strongRecOn generalizing j with
  | ind i ih =>
      have hm := List.getElem?_eq_getElem hi
      have hn := List.getElem?_eq_getElem hj
      obtain ⟨htoken, hins⟩ := (cse_getD_eq_iff hg hm hn).mp h
      rw [hv i _ hm, hv j _ hn, htoken]
      congr 1
      have hlen := congrArg List.length hins
      simp only [List.length_map] at hlen
      refine List.ext_getElem (by simpa using hlen) fun k hk hk' => ?_
      simp only [List.length_map] at hk hk'
      rw [List.getElem_map, List.getElem_map]
      have hx := hg.inputs_lt i _ hm _ (List.getElem_mem hk)
      have hy := hg.inputs_lt j _ hn _ (List.getElem_mem hk')
      refine ih _ hx (hx.trans hi) (hy.trans hj) ?_
      have hk'' := congrArg (·[k]?) hins
      simpa [List.getElem?_eq_getElem hk, List.getElem?_eq_getElem hk'] using hk''

end EngineGraph.Values

section Arena

variable {nodes : List NodeKey} {swap : Option (List Bool)} {outputs : List Nat}

/-- The walk's operands give a node the value its inputs give it. -/
theorem arenaValue_operands (htopo : TopologicalKeys nodes)
    (hcomm : ∀ t ∈ symmetricTokens, ∀ x y, I t [x, y] = I t [y, x])
    (hpairs : SwapsPairs nodes swap)
    (hsym : ∀ i, Swapped swap i → isSymmetric (nodes.getD i default) = true) {i : Nat}
    (hi : i < nodes.length) : arenaValue I nodes i = I (nodes.getD i default).token
      ((operands nodes swap i).map (arenaValue I nodes)) := by
  have hget : nodes.getD i default = nodes[i] := by
    rw [List.getD_eq_getElem?_getD, List.getElem?_eq_getElem hi, Option.getD_some]
  have heq := arenaValue_eq (I := I) htopo (List.getElem?_eq_getElem hi)
  have hins : inputsAt nodes i = nodes[i].inputs := by rw [inputsAt, hget]
  by_cases hswap : Swapped swap i
  · obtain ⟨a, b, hab⟩ := hpairs i hswap
    rw [operands_of_swapped hswap hab, heq, ← hins, hab, hget]
    have htoken := ((isSymmetric_iff _).mp (hsym i hswap)).1
    rw [hget] at htoken
    exact hcomm _ htoken _ _
  · rw [operands_of_not_swapped hswap, heq, hins, hget]

/-- The deduped graph's nodes have the values of the arena nodes they stand for. -/
theorem deduped_values (htopo : TopologicalKeys nodes) {engine : EggEngine} (hsound : engine.Sound)
    (hcomm : ∀ t ∈ symmetricTokens, ∀ x y, I t [x, y] = I t [y, x])
    (hpairs : SwapsPairs nodes swap)
    (hsym : ∀ i, Swapped swap i → isSymmetric (nodes.getD i default) = true)
    (houtputs : ∀ o ∈ outputs, o < nodes.length)
    (hident : ∀ i ∈ reached htopo swap outputs, ∀ x, (nodes.getD i default).token ∈ identityTokens →
      inputsAt nodes i = [x] → arenaValue I nodes i = arenaValue I nodes x) :
    ∃ w : Nat → V, (dedupedGraph htopo swap outputs engine).Values I w ∧
      ∀ i ∈ reached htopo swap outputs,
        w ((dedupedMap htopo swap outputs engine).getD ((reached htopo swap outputs).idxOf i) 0) =
          arenaValue I nodes i := by
  have hg : (keptGraph htopo swap outputs).Topological := keptGraph_topological htopo hpairs
  have hlen : (keptGraph htopo swap outputs).nodes.length = (reached htopo swap outputs).length :=
    length_keptGraph htopo
  have hget : ∀ i ∈ reached htopo swap outputs, (reached htopo swap outputs).getD
      ((reached htopo swap outputs).idxOf i) 0 = i := fun i hi => getD_idxOf hi
  have hv₀ : (keptGraph htopo swap outputs).Values I
      (fun k => arenaValue I nodes ((reached htopo swap outputs).getD k 0)) := by
    intro k node hnode
    have hk : k < (reached htopo swap outputs).length := by
      rw [← hlen]
      exact (List.getElem?_eq_some_iff.mp hnode).1
    rw [getElem?_keptGraph htopo hpairs hk] at hnode
    obtain rfl := Option.some.inj hnode
    have hmem := List.getElem_mem hk
    simp only [List.map_map]
    rw [getD_eq_getElem hk, arenaValue_operands htopo hcomm hpairs hsym
      (lt_of_mem_reached htopo houtputs hmem)]
    congr 1
    refine List.map_congr_left fun x hx => ?_
    rw [Function.comp_apply, hget x (mem_reached_of_operand htopo hmem hx)]
  -- the engine merges only nodes of one value, and so does CSE
  have hq₁ : (keptGraph htopo swap outputs).Quotient _ _ :=
    canonicalized_quotient htopo engine hpairs
  obtain ⟨hv₁, hrep₁⟩ := hv₀.quotient hq₁ (fun i hi j hj h => by
    refine hv₀.eq_of_ruleEq hcomm (fun k m x hm htoken hins => ?_)
      (hsound _ hg i hi j hj ((engine.canonicalize_getD_eq_iff hg hi hj).mp h))
    have hk : k < (reached htopo swap outputs).length := by
      rw [← hlen]
      exact (List.getElem?_eq_some_iff.mp hm).1
    rw [getElem?_keptGraph htopo hpairs hk] at hm
    obtain rfl := Option.some.inj hm
    have hmem := List.getElem_mem hk
    obtain ⟨y, hy⟩ := List.length_eq_one_iff.mp (by
      simpa using congrArg List.length hins : (operands nodes swap _).length = 1)
    have hnswap : ¬ Swapped swap (reached htopo swap outputs)[k] := by
      intro hswap
      obtain ⟨a, b, hab⟩ := hpairs _ hswap
      rw [operands_of_swapped hswap hab] at hy
      simp at hy
    have hin : inputsAt nodes (reached htopo swap outputs)[k] = [y] := by
      rw [← operands_of_not_swapped hnswap, hy]
    simp only [hy, List.map_cons, List.map_nil, List.cons.injEq, and_true] at hins
    rw [getD_eq_getElem hk, ← hins, hget y (mem_reached_of_operand htopo hmem (by simp [hy]))]
    exact hident _ hmem y htoken hin) hg
  have hg₁ := hq₁.topological hg
  obtain ⟨hv₂, hrep₂⟩ := hv₁.quotient (cse_quotient hg₁)
    (fun i hi j hj h => hv₁.eq_of_cse hg₁ hi hj h) hg₁
  refine ⟨_, hv₂, fun i hi => ?_⟩
  have hk := List.idxOf_lt_length_of_mem hi
  have hk₁ : (reached htopo swap outputs).idxOf i <
      (engine.canonicalize (keptGraph htopo swap outputs)).2.length := by
    rw [hq₁.length_eq, hlen]
    exact hk
  rw [dedupedMap, EngineGraph.Quotient.getD_comp hk₁, hrep₂ _ (hq₁.numbering.getD_lt hk₁),
    hrep₁ _ (hlen.symm ▸ hk), hget i hi]

end Arena

/-! ### Stages -/

/-- Members that refer to values of `w` have the values of `w`. -/
theorem memberValues_eq {ins : List (Option V)} {w : Nat → V} {tokenOf : Nat → String}
    {inputsOf : Nat → List Nat} {ref : Nat → StageRef} {ops : List Nat}
    (hw : ∀ op ∈ ops, w op = I (tokenOf op) ((inputsOf op).map w))
    (href : ∀ pre op rest, ops = pre ++ op :: rest → ∀ x ∈ inputsOf op,
      refValue ins (pre.map fun o => some (w o)) (ref x) = some (w x)) :
    memberValues I ins (ops.map fun op => ⟨tokenOf op, (inputsOf op).map ref⟩) =
      ops.map fun op => some (w op) := by
  suffices h : ∀ pre rest, ops = pre ++ rest →
      memberValues I ins (pre.map fun op => ⟨tokenOf op, (inputsOf op).map ref⟩) =
        pre.map fun op => some (w op) from h ops [] (List.append_nil ops).symm
  intro pre
  induction pre using List.reverseRecOn with
  | nil => intro _ _; rfl
  | append_singleton pre op ih =>
      intro rest hsplit
      have hsplit' : ops = pre ++ op :: rest := by simpa using hsplit
      have hargs : ((inputsOf op).map ref).map (refValue ins (pre.map fun o => some (w o))) =
          (inputsOf op).map fun x => some (w x) := by
        rw [List.map_map]
        exact List.map_congr_left fun x hx => href pre op rest hsplit' x hx
      rw [List.map_append, List.map_singleton, memberValues_concat, ih (op :: rest) hsplit', hargs,
        mapM_map_some, Option.map_some, ← hw op (by simp [hsplit']), List.map_append,
        List.map_singleton]

/-! ### Fusion -/

section Fusion

variable {g : EngineGraph} {comp : List Nat} {keys : List NodeKey} {w : Nat → V}

/-- A reduced node has the value of its component's last node. -/
def reducedValue (comp : List Nat) (w : Nat → V) (r : Nat) : V :=
  w (headOf comp ((sortedComponents comp).getD r 0))

variable (hplan : FusionPlan g comp) (hg : g.Topological) (hw : g.Values I w)
  (hkeys : ∀ node ∈ g.nodes, node.boundary = true →
    (template keys node.token).token = node.token ∧ (template keys node.token).isStage = false ∧
      ((template keys node.token).isSource = true → node.inputs = []))
include hplan

theorem reducedValue_idxOf {i : Nat} (hi : i < g.nodes.length) (hesc : Escapes g comp i) :
    reducedValue comp w ((sortedComponents comp).idxOf (comp.getD i 0)) = w i := by
  rw [reducedValue, getD_idxOf (mem_sortedComponents.mpr (hplan.getD_mem hi)),
    hplan.headOf_eq_of_escapes hi hesc]

include hg hw

/-- A stage's members have their nodes' values. -/
theorem memberValues_stage {c : Nat} :
    memberValues I ((firsts (outsideReads g (membersOf comp c) comp (membersOf comp c))).map
        fun d => some (reducedValue comp w ((sortedComponents comp).idxOf d)))
      ((membersOf comp c).map fun op => ⟨(nodeAt g op).token, (nodeAt g op).inputs.map
        (refOf (membersOf comp c) comp
          (firsts (outsideReads g (membersOf comp c) comp (membersOf comp c))))⟩) =
      (membersOf comp c).map fun op => some (w op) := by
  have hnode : ∀ op ∈ membersOf comp c, g.nodes[op]? = some (nodeAt g op) := by
    intro op hop
    have hlt : op < g.nodes.length := hplan.length_eq ▸ (mem_membersOf.mp hop).1
    rw [nodeAt_eq (List.getElem?_eq_getElem hlt), List.getElem?_eq_getElem hlt]
  refine memberValues_eq (fun op hop => hw op _ (hnode op hop)) fun pre op rest hsplit x hx => ?_
  have hop : op ∈ membersOf comp c := by simp [hsplit]
  have hxop := hg.inputs_lt op _ (hnode op hop) x hx
  have hoplt : op < g.nodes.length := (List.getElem?_eq_some_iff.mp (hnode op hop)).1
  have hxlt := hxop.trans hoplt
  unfold refOf
  split_ifs with hin
  · -- an earlier member, since members ascend
    have hpre : x ∈ pre := by
      rw [hsplit] at hin
      rcases List.mem_append.mp hin with hin | hin
      · exact hin
      · have hpair : (membersOf comp c).Pairwise (· < ·) := pairwise_membersOf c
        rw [hsplit] at hpair
        have hafter := List.pairwise_cons.mp (List.pairwise_append.mp hpair).2.1
        rcases List.mem_cons.mp hin with rfl | hin
        · exact absurd hxop (Nat.lt_irrefl _)
        · exact absurd (hafter.1 x hin) (Nat.not_lt.mpr hxop.le)
    have hlt := List.idxOf_lt_length_of_mem hpre
    rw [refValue, hsplit, List.idxOf_append_of_mem hpre, List.getD_eq_getElem?_getD,
      List.getElem?_map, List.getElem?_eq_getElem hlt, List.getElem_idxOf hlt]
    rfl
  · have hne : comp.getD x 0 ≠ comp.getD op 0 := fun heq =>
      hin (mem_membersOf.mpr ⟨hplan.length_eq.symm ▸ hxlt, heq.trans (mem_membersOf.mp hop).2⟩)
    have hslot : comp.getD x 0 ∈
        firsts (outsideReads g (membersOf comp c) comp (membersOf comp c)) := by
      refine mem_firsts.mpr (List.mem_flatMap.mpr ⟨op, hop, List.mem_map_of_mem ?_⟩)
      exact List.mem_filter.mpr ⟨hx, by simpa using hin⟩
    have hlt := List.idxOf_lt_length_of_mem hslot
    rw [refValue, List.getD_eq_getElem?_getD, List.getElem?_map, List.getElem?_eq_getElem hlt,
      List.getElem_idxOf hlt, Option.map_some, Option.getD_some,
      reducedValue_idxOf hplan hxlt (Or.inr ⟨op, _, hnode op hop, hx, Ne.symm hne⟩)]

/-- A fused member lands on its value. -/
theorem memberValues_componentNode (keys : List NodeKey) {i : Nat} (hi : i < g.nodes.length)
    (hb : isBoundaryAt g i = false) :
    ∃ ins members, componentNode g keys comp (sortedComponents comp) (comp.getD i 0) =
        .stage ins members ∧
      (memberValues I (ins.map fun r => some (reducedValue comp w r)) members).getD
        ((membersOf comp (comp.getD i 0)).idxOf i) none = some (w i) := by
  have hmem := hplan.mem_membersOf_self hi
  refine ⟨_, _, by rw [componentNode, hplan.isBoundaryAt_label hi, hb, if_neg (by decide),
    fuseStage_eq], ?_⟩
  rw [List.map_map, Function.comp_def, memberValues_stage hplan hg hw]
  have hlt := List.idxOf_lt_length_of_mem hmem
  rw [List.getD_eq_getElem?_getD, List.getElem?_map, List.getElem?_eq_getElem hlt,
    List.getElem_idxOf hlt]
  rfl

include hkeys

/-- A component's node has its last node's value. -/
theorem nodeValue_componentNode {c : Nat} (hc : c ∈ comp) :
    nodeValue I (componentNode g keys comp (sortedComponents comp) c)
      ((componentNode g keys comp (sortedComponents comp) c).inputs.map fun r =>
        some (reducedValue comp w r)) = some (w (headOf comp c)) := by
  obtain ⟨hclt, hcc⟩ := hplan.label hc
  have hnode := List.getElem?_eq_getElem hclt
  have hat : nodeAt g c = g.nodes[c] := nodeAt_eq hnode
  unfold componentNode
  split_ifs with hb
  · have hboundary : g.nodes[c].boundary = true := by
      rwa [isBoundaryAt, List.getD_eq_getElem?_getD, hnode, Option.getD_some] at hb
    obtain ⟨htoken, hstage, hsource⟩ := hkeys _ (List.getElem_mem hclt) hboundary
    have hself := hplan.membersOf_boundary hclt hb
    have hhead : headOf comp c = c :=
      hself.2 _ (headOf_mem (mem_membersOf.mpr ⟨hplan.length_eq.symm ▸ hclt, hcc⟩))
    rw [nodeValue_withInputs, hat, hhead, hw c _ hnode]
    have hreads : (g.nodes[c].inputs.map fun i => (sortedComponents comp).idxOf (comp.getD i 0)).map
        (fun r => some (reducedValue comp w r)) = g.nodes[c].inputs.map fun x => some (w x) := by
      rw [List.map_map]
      refine List.map_congr_left fun x hx => ?_
      have hxc := hg.inputs_lt c _ hnode x hx
      have hxlt := hxc.trans hclt
      refine congrArg some (reducedValue_idxOf hplan hxlt (Or.inr ⟨c, _, hnode, hx, fun heq => ?_⟩))
      have := hplan.alone c hclt x hxlt hb heq.symm
      omega
    rw [NodeKey.inputs_withInputs fun h => by rw [hsource h, List.map_nil], hreads,
      nodeValue_of_not_stage hstage, htoken]
  · rw [fuseStage_eq, nodeValue]
    simp only [NodeKey.inputs, List.map_map]
    have hmembers := memberValues_stage hplan hg hw (c := c)
    rw [Function.comp_def, hmembers]
    rw [List.getLast?_map, getLast?_membersOf (mem_membersOf.mpr ⟨hplan.length_eq.symm ▸ hclt, hcc⟩)]
    rfl

end Fusion

/-! ### Re-interning -/

section Reintern

variable {red : Reduced} {u : Nat → V} (htopo : TopologicalKeys red.nodes)
  (houts : ∀ o ∈ red.outputs, o < red.nodes.length)
  (hu : ∀ (r : Nat) (key : NodeKey), red.nodes[r]? = some key →
    nodeValue I key (key.inputs.map fun x => some (u x)) = some (u r))
include htopo houts hu

/-- Reduced nodes that become one node have one value. -/
theorem eq_of_reinternMap {r r' : Nat} (hr : r < red.nodes.length) (hr' : r' < red.nodes.length)
    (h : (reinternMap red).getD r 0 = (reinternMap red).getD r' 0) : u r = u r' := by
  obtain ⟨-, -, -, hnode, -, -⟩ := fromReduced_spec htopo houts
  induction r using Nat.strongRecOn generalizing r' with
  | ind r ih =>
      have hkey := List.getElem?_eq_getElem hr
      have hkey' := List.getElem?_eq_getElem hr'
      obtain ⟨k, hk, hcanon, -⟩ := hnode r _ hkey
      obtain ⟨k', hk', hcanon', -⟩ := hnode r' _ hkey'
      rw [h, hk'] at hk
      rw [← Option.some.inj hk, hcanon'] at hcanon
      have hins := congrArg NodeKey.inputs hcanon
      simp only [NodeKey.inputs_canon, NodeKey.inputs_withInputs_map] at hins
      have hvals : red.nodes[r'].inputs.map (fun x => some (u x)) =
          red.nodes[r].inputs.map fun x => some (u x) := by
        have hlen := congrArg List.length hins
        simp only [List.length_map] at hlen
        refine List.ext_getElem (by simpa using hlen) fun j hj hj' => ?_
        simp only [List.length_map] at hj hj'
        rw [List.getElem_map, List.getElem_map]
        have hx := htopo r _ hkey _ (List.getElem_mem hj')
        have hy := htopo r' _ hkey' _ (List.getElem_mem hj)
        have heq := congrArg (·[j]?) hins
        simp only [List.getElem?_map, List.getElem?_eq_getElem hj, List.getElem?_eq_getElem hj',
          Option.map_some, Option.some.injEq] at heq
        exact congrArg some (ih _ hx (hx.trans hr) (hy.trans hr') heq.symm).symm
      apply Option.some.inj
      rw [← hu r _ hkey, ← hu r' _ hkey', hvals,
        ← nodeValue_withInputs red.nodes[r] (red.nodes[r].inputs.map ((reinternMap red).getD · 0)),
        ← nodeValue_canon, ← hcanon, nodeValue_canon, nodeValue_withInputs]

/-- The rebuilt store's nodes have the values of the reduced nodes they came from. -/
theorem values_fromReduced {r : Nat} (hr : r < red.nodes.length) :
    (values I (fromReduced red).1.nodes).getD ((reinternMap red).getD r 0) none = some (u r) := by
  obtain ⟨hinterned, hnumbering, hlen, hnode, -, -⟩ := fromReduced_spec htopo houts
  have hrep : ∀ x < red.nodes.length,
      u ((reinternMap red).idxOf ((reinternMap red).getD x 0)) = u x := by
    intro x hx
    have hmem : (reinternMap red).getD x 0 ∈ reinternMap red :=
      hnumbering.mem_iff.mpr (hnumbering.getD_lt (hlen.symm ▸ hx))
    refine eq_of_reinternMap htopo houts hu (hlen ▸ List.idxOf_lt_length_of_mem hmem) hx ?_
    rw [getD_idxOf hmem]
  rw [values_getD hinterned.inputs_lt (v := fun c => u ((reinternMap red).idxOf c))
    (fun c k hk => ?_) (hnumbering.getD_lt (hlen.symm ▸ hr)), hrep r hr]
  have hc : c ∈ reinternMap red :=
    hnumbering.mem_iff.mpr (List.getElem?_eq_some_iff.mp hk).1
  have hfirst : (reinternMap red).idxOf c < red.nodes.length :=
    hlen ▸ List.idxOf_lt_length_of_mem hc
  have hkey := List.getElem?_eq_getElem hfirst
  obtain ⟨k', hk', -, heq⟩ := hnode _ _ hkey
  rw [getD_idxOf hc] at hk' heq
  rw [hk] at hk'
  obtain rfl := (Option.some.inj hk').trans (heq rfl)
  have hvals : (red.nodes[(reinternMap red).idxOf c].withInputs
      (red.nodes[(reinternMap red).idxOf c].inputs.map ((reinternMap red).getD · 0))).inputs.map
        (fun c => some (u ((reinternMap red).idxOf c))) =
      red.nodes[(reinternMap red).idxOf c].inputs.map fun x => some (u x) := by
    rw [NodeKey.inputs_withInputs_map, List.map_map]
    exact List.map_congr_left fun x hx =>
      congrArg some (hrep x ((htopo _ _ hkey x hx).trans hfirst))
  rw [hvals, nodeValue_withInputs, hu _ _ hkey]

/-- A stage member has one value before and after the re-intern. -/
theorem landingValue_fromReduced {r m : Nat} {ins : List Nat} {members : List StageOp}
    (hr : red.nodes[r]? = some (.stage ins members)) :
    landingValue I (fromReduced red).1.nodes ((reinternMap red).getD r 0, some m) =
      (memberValues I (ins.map fun x => some (u x)) members).getD m none := by
  obtain ⟨-, -, -, hnode, -, -⟩ := fromReduced_spec htopo houts
  obtain ⟨k, hk, hcanon, -⟩ := hnode r _ hr
  have hstage : k = .stage (ins.map ((reinternMap red).getD · 0)) members := by
    cases k <;> simp only [NodeKey.canon, NodeKey.withInputs, NodeKey.inputs, NodeKey.stage.injEq,
      reduceCtorEq] at hcanon
    rw [hcanon.1, hcanon.2]
  simp only [landingValue, hk, hstage, List.map_map]
  congr 2
  refine List.map_congr_left fun x hx => ?_
  have hxlt := (htopo r _ hr x hx).trans (List.getElem?_eq_some_iff.mp hr).1
  exact values_fromReduced htopo houts hu hxlt

end Reintern

end Graphed
