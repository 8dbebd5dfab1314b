import Graphed.Optimizer.Proof.Values
import Graphed.Optimizer.Reference

/-!
# Reduction preserves meaning

For every recorded arena and request, whatever classes a sound engine finds: each record's value is
the value its landing names in the reduced store, a requested output is the value of the whole
reduced node it lands in, and exactly the records no output reads are dropped.
-/

namespace Graphed

open FirstSeen GraphStore PostOrder

variable {V : Type*}

/-- What reading a node means transitively. -/
def Reads (nodes : List NodeKey) : Nat → Nat → Prop :=
  Relation.ReflTransGen fun x y => y ∈ inputsAt nodes x

/-- The reduced store `r` means what the arena means. -/
structure PreservesMeaning (I : String → List V → V) (nodes : List NodeKey) (outputs : List Nat)
    (r : GraphStore) : Prop where
  length_nodeMap : r.nodeMap.length = nodes.length
  mapped : ∀ (n : Nat) (l : Landing), r.nodeMap[n]? = some (some l) →
    ∃ v, landingValue I r.nodes l = some v ∧ (values I nodes).getD n none = some v
  requested : ∀ o ∈ outputs, ∃ l v, r.nodeMap[o]? = some (some l) ∧
    (values I r.nodes).getD l.1 none = some v ∧ (values I nodes).getD o none = some v
  outputs_eq : r.outputs = firsts (outputs.filterMap fun o => (r.nodeMap.getD o none).map Prod.fst)
  dropped : ∀ n < nodes.length,
    r.nodeMap[n]? = some none ↔ ∀ o ∈ outputs, ¬ Reads nodes o n

section Pipeline

variable {nodes : List NodeKey} {swap : Option (List Bool)} {outputs : List Nat}
  (htopo : TopologicalKeys nodes)

/-- The templates rebuild a boundary under its own token. -/
theorem template_keptKeys (engine : EggEngine) (hpairs : SwapsPairs nodes swap)
    {node : EngineNode} (hnode : node ∈ (dedupedGraph htopo swap outputs engine).nodes) :
    (template (keptKeys htopo swap outputs) node.token).token = node.token ∧
      (∃ i ∈ reached htopo swap outputs, template (keptKeys htopo swap outputs) node.token =
        keptKey nodes swap (reached htopo swap outputs) i) ∧
      ((template (keptKeys htopo swap outputs) node.token).isSource = true → node.inputs = []) := by
  obtain ⟨c, hc⟩ := List.mem_iff_getElem?.mp hnode
  obtain ⟨i, hi, -, htoken, -, hins⟩ := exists_kept htopo engine hpairs hc
  have hkey : keptKey nodes swap (reached htopo swap outputs) i ∈ keptKeys htopo swap outputs :=
    List.mem_map_of_mem hi
  obtain ⟨hmem, heq⟩ := template_spec ⟨_, hkey, (NodeKey.token_withInputs _ _).trans htoken.symm⟩
  obtain ⟨i', hi', hkept⟩ := List.mem_map.mp hmem
  refine ⟨heq, ⟨i', hi', hkept.symm⟩, fun hsource => ?_⟩
  have hsource' : (nodes.getD i default).isSource = true := by
    rw [← isSource_of_token (heq.trans htoken), hsource]
  have hnil : inputsAt nodes i = [] := NodeKey.inputs_of_isSource hsource'
  have hlen := length_operands hpairs i
  rw [hnil, List.length_nil, List.length_eq_zero_iff] at hlen
  rw [hins, hlen, List.map_nil]

/-- What an output reaches is what it reads transitively. -/
theorem mem_reached_iff_reads (hpairs : SwapsPairs nodes swap) {n : Nat} :
    n ∈ reached htopo swap outputs ↔ ∃ o ∈ outputs, Reads nodes o n := by
  have hstep : (fun x y => y ∈ (arenaDag htopo swap).children x) =
      fun x y => y ∈ inputsAt nodes x := by
    funext x y
    exact propext (mem_operands hpairs)
  rw [reached, mem_postorder]
  unfold Dag.Reaches Reads
  rw [hstep]

end Pipeline

/-! ### The landings of a reduced arena -/

section Landings

variable {nodes : List NodeKey} {outputs : List Nat} {swap : Option (List Bool)}
  {engine : EggEngine} {I : String → List V → V}

/-- The reduced node a kept node lands in, before the re-intern. -/
def reducedAt (htopo : TopologicalKeys nodes) (swap : Option (List Bool)) (outputs : List Nat)
    (engine : EggEngine) (mode : FusionMode) (n : Nat) : Landing :=
  landingOf (dedupedGraph htopo swap outputs engine)
    (mode.components (dedupedGraph htopo swap outputs engine))
    (sortedComponents (mode.components (dedupedGraph htopo swap outputs engine)))
    ((dedupedMap htopo swap outputs engine).getD ((reached htopo swap outputs).idxOf n) 0)

/-- Reduced nodes have values, under which a kept node's landing has the value the node has in the
arena, and a requested output is the whole node it lands in. -/
theorem exists_reducedValues (htopo : TopologicalKeys nodes)
    (hstage : ∀ key ∈ nodes, key.isStage = false) (hsound : engine.Sound)
    (hcomm : ∀ t ∈ symmetricTokens, ∀ x y, I t [x, y] = I t [y, x])
    (hpairs : SwapsPairs nodes swap)
    (hsym : ∀ i, Swapped swap i → isSymmetric (nodes.getD i default) = true)
    (houtputs : ∀ o ∈ outputs, o < nodes.length)
    (hident : ∀ i ∈ reached htopo swap outputs, ∀ x,
      (nodes.getD i default).token ∈ identityTokens → inputsAt nodes i = [x] →
        arenaValue I nodes i = arenaValue I nodes x) (mode : FusionMode) :
    ∃ u : Nat → V,
      (∀ (r : Nat) (key : NodeKey),
        (reduceOriented nodes outputs swap engine mode).nodes[r]? = some key →
          nodeValue I key (key.inputs.map fun x => some (u x)) = some (u r)) ∧
      (∀ n ∈ reached htopo swap outputs,
        (∃ key, (reduceOriented nodes outputs swap engine mode).nodes[
            (reducedAt htopo swap outputs engine mode n).1]? = some key ∧
          match (reducedAt htopo swap outputs engine mode n).2 with
          | none => u (reducedAt htopo swap outputs engine mode n).1 = arenaValue I nodes n
          | some m => ∃ ins members, key = .stage ins members ∧
              (memberValues I (ins.map fun x => some (u x)) members).getD m none =
                some (arenaValue I nodes n))) ∧
      ∀ o ∈ outputs, u (reducedAt htopo swap outputs engine mode o).1 = arenaValue I nodes o := by
  have hg : (dedupedGraph htopo swap outputs engine).Topological :=
    deduped_topological htopo engine hpairs
  have hplan := mode.plan hg
  have hq : (keptGraph htopo swap outputs).Quotient _ _ := deduped_quotient htopo engine hpairs
  obtain ⟨w, hw, hwarena⟩ := deduped_values htopo hsound hcomm hpairs hsym houtputs hident
  obtain ⟨hnodes, -, -⟩ := reduceOriented_eq htopo engine hpairs houtputs mode
  have hkeys : ∀ node ∈ (dedupedGraph htopo swap outputs engine).nodes, node.boundary = true →
      (template (keptKeys htopo swap outputs) node.token).token = node.token ∧
      (template (keptKeys htopo swap outputs) node.token).isStage = false ∧
      ((template (keptKeys htopo swap outputs) node.token).isSource = true →
        node.inputs = []) := by
    intro node hnode _
    obtain ⟨htoken, ⟨i, hi, hkept⟩, hsource⟩ := template_keptKeys htopo engine hpairs hnode
    refine ⟨htoken, ?_, hsource⟩
    have hlt := lt_of_mem_reached htopo houtputs hi
    rw [hkept, keptKey, NodeKey.isStage_withInputs, List.getD_eq_getElem?_getD,
      List.getElem?_eq_getElem hlt, Option.getD_some]
    exact hstage _ (List.getElem_mem hlt)
  have hlt : ∀ n ∈ reached htopo swap outputs,
      (dedupedMap htopo swap outputs engine).getD ((reached htopo swap outputs).idxOf n) 0 <
        (dedupedGraph htopo swap outputs engine).nodes.length := by
    intro n hn
    refine hq.numbering.getD_lt ?_
    rw [hq.length_eq, length_keptGraph]
    exact List.idxOf_lt_length_of_mem hn
  refine ⟨reducedValue (mode.components (dedupedGraph htopo swap outputs engine)) w,
    fun r key hkey => ?_, fun n hn => ?_, fun o ho => ?_⟩
  · rw [hnodes, List.getElem?_map, Option.map_eq_some_iff] at hkey
    obtain ⟨c, hc, rfl⟩ := hkey
    have hmem := mem_sortedComponents.mp (List.mem_of_getElem? hc)
    rw [nodeValue_componentNode hplan hg hw hkeys hmem, reducedValue,
      List.getD_eq_getElem?_getD, hc, Option.getD_some]
  · have hc := hlt n hn
    have hmem := mem_sortedComponents.mpr (hplan.getD_mem hc)
    refine ⟨_, by
      rw [hnodes, List.getElem?_map, reducedAt, landingOf,
        List.getElem?_eq_getElem (List.idxOf_lt_length_of_mem hmem),
        List.getElem_idxOf, Option.map_some], ?_⟩
    rw [reducedAt, landingOf]
    cases hb : isBoundaryAt (dedupedGraph htopo swap outputs engine)
        ((dedupedMap htopo swap outputs engine).getD ((reached htopo swap outputs).idxOf n) 0) with
    | true =>
        obtain ⟨hself, honly⟩ := hplan.membersOf_boundary hc hb
        have hhead := headOf_mem (hplan.mem_membersOf_self hc)
        rw [hself] at hhead
        simp only [if_true]
        rw [reducedValue, getD_idxOf hmem, hself, honly _ hhead, hwarena n hn]
    | false =>
        obtain ⟨ins, members, hnode, hvalue⟩ := memberValues_componentNode hplan hg hw
          (keptKeys htopo swap outputs) hc hb
        exact ⟨ins, members, hnode, hvalue.trans (congrArg some (hwarena n hn))⟩
  · have ho' : o ∈ reached htopo swap outputs := mem_reached_of_mem htopo ho
    refine (reducedValue_idxOf hplan (hlt o ho') (Or.inl ?_)).trans (hwarena o ho')
    rw [hq.outputs_eq, keptGraph, toEngineGraph, List.map_map]
    exact List.mem_map_of_mem ho

/-- The pipeline and the re-intern preserve meaning, on the nodes the outputs reach. -/
theorem oriented_preservesMeaning (htopo : TopologicalKeys nodes)
    (hstage : ∀ key ∈ nodes, key.isStage = false) (hsound : engine.Sound)
    (hcomm : ∀ t ∈ symmetricTokens, ∀ x y, I t [x, y] = I t [y, x])
    (hpairs : SwapsPairs nodes swap)
    (hsym : ∀ i, Swapped swap i → isSymmetric (nodes.getD i default) = true)
    (houtputs : ∀ o ∈ outputs, o < nodes.length)
    (hident : ∀ i ∈ reached htopo swap outputs, ∀ x,
      (nodes.getD i default).token ∈ identityTokens → inputsAt nodes i = [x] →
        arenaValue I nodes i = arenaValue I nodes x) (mode : FusionMode) :
    PreservesMeaning I nodes outputs
      (fromReduced (reduceOriented nodes outputs swap engine mode)).1 := by
  obtain ⟨u, hu, hland, hout⟩ := exists_reducedValues htopo hstage hsound hcomm hpairs
    hsym houtputs hident mode
  obtain ⟨hrtopo, hrouts⟩ := reduceOriented_topological htopo engine hpairs houtputs mode
  obtain ⟨-, houts, hmap⟩ := reduceOriented_eq htopo engine hpairs houtputs mode
  obtain ⟨-, -, -, -, houtputsEq, hnodeMap⟩ := fromReduced_spec hrtopo hrouts
  have hq : (keptGraph htopo swap outputs).Quotient _ _ :=
    deduped_quotient htopo engine hpairs
  have hvalues := fun n (hn : n < nodes.length) => values_arena (I := I) htopo hstage hn
  have hget : ∀ n < nodes.length,
      (fromReduced (reduceOriented nodes outputs swap engine mode)).1.nodeMap[n]? =
        some (if n ∈ reached htopo swap outputs then
          some ((reinternMap (reduceOriented nodes outputs swap engine mode)).getD
            (reducedAt htopo swap outputs engine mode n).1 0,
            (reducedAt htopo swap outputs engine mode n).2)
        else none) := by
    intro n hn
    rw [hnodeMap, hmap, List.map_map, List.getElem?_map, List.getElem?_range hn,
      Option.map_some, Function.comp_apply]
    split_ifs <;> rfl
  refine ⟨?_, fun n l hl => ?_, fun o ho => ?_, ?_, fun n hn => ?_⟩
  · rw [hnodeMap, hmap]
    simp
  · have hn : n < nodes.length := by
      have hlt := (List.getElem?_eq_some_iff.mp hl).1
      rw [hnodeMap, hmap] at hlt
      simpa using hlt
    rw [hget n hn, Option.some.injEq] at hl
    split_ifs at hl with hmem
    obtain rfl := Option.some.inj hl
    refine ⟨_, ?_, hvalues n hn⟩
    obtain ⟨key, hkey, hmatch⟩ := hland n hmem
    cases hm : (reducedAt htopo swap outputs engine mode n).2 with
    | none =>
        rw [hm] at hmatch
        rw [landingValue]
        exact (values_fromReduced hrtopo hrouts hu (List.getElem?_eq_some_iff.mp hkey).1).trans
          (congrArg some hmatch)
    | some m =>
        rw [hm] at hmatch
        obtain ⟨ins, members, rfl, hvalue⟩ := hmatch
        exact (landingValue_fromReduced hrtopo hrouts hu hkey).trans hvalue
  · have hmem : o ∈ reached htopo swap outputs :=
      mem_reached_of_mem htopo ho
    obtain ⟨key, hkey, -⟩ := hland o hmem
    refine ⟨_, _, by rw [hget o (houtputs o ho), if_pos hmem], ?_, hvalues o (houtputs o ho)⟩
    exact (values_fromReduced hrtopo hrouts hu (List.getElem?_eq_some_iff.mp hkey).1).trans
      (congrArg some (hout o ho))
  · rw [houtputsEq, houts, hq.outputs_eq, keptGraph, toEngineGraph, List.map_map,
      List.map_map, List.map_map]
    congr 1
    rw [← List.filterMap_eq_map]
    refine List.filterMap_congr fun o ho => ?_
    rw [List.getD_eq_getElem?_getD, hget o (houtputs o ho),
      if_pos (mem_reached_of_mem htopo ho)]
    rfl
  · rw [hget n hn]
    have hiff : n ∈ reached htopo _ outputs ↔ _ := mem_reached_iff_reads htopo hpairs
    split_ifs with hmem
    · obtain ⟨o, ho, hreads⟩ := hiff.mp hmem
      simp only [Option.some.injEq, reduceCtorEq, false_iff, not_forall, not_not]
      exact ⟨o, ho, hreads⟩
    · simp only [true_iff]
      exact fun o ho hreads => hmem (hiff.mpr ⟨o, ho, hreads⟩)

/-- The pipeline over an arena whose symmetric operators it orients itself. -/
theorem preservesMeaning (htopo : TopologicalKeys nodes)
    (hstage : ∀ key ∈ nodes, key.isStage = false) (hsound : engine.Sound)
    (hcomm : ∀ t ∈ symmetricTokens, ∀ x y, I t [x, y] = I t [y, x])
    (houtputs : ∀ o ∈ outputs, o < nodes.length)
    (hident : ∀ i ∈ reached htopo (some (symmetricSwaps nodes)) outputs, ∀ x,
      (nodes.getD i default).token ∈ identityTokens → inputsAt nodes i = [x] →
        arenaValue I nodes i = arenaValue I nodes x) (mode : FusionMode) :
    PreservesMeaning I nodes outputs (fromReduced (reduceWithMode nodes outputs engine mode)).1 :=
  oriented_preservesMeaning htopo hstage hsound hcomm (swapsPairs_symmetricSwaps nodes)
    (fun _ h => (swapped_symmetricSwaps h).2) houtputs hident mode

end Landings

/-- **Reduction preserves meaning.** Under every interpretation the rules hold of, the reduced store
of a recorded arena means what the arena means. -/
theorem reduceWithOutputs_preservesMeaning {s : GraphStore} (hs : Recorded s)
    {I : String → List V → V} (hI : RespectsRules I) {engine : EggEngine} (hsound : engine.Sound)
    {outputs : List Nat} {mode : FusionMode} {r : GraphStore × ReductionReport}
    (hr : s.reduceWithOutputs outputs engine mode = .ok r) :
    PreservesMeaning I s.nodes outputs r.1 := by
  obtain ⟨houtputs, rfl⟩ := reduceWithOutputs_eq_ok.mp hr
  have htopo := hs.interned.inputs_lt
  refine preservesMeaning htopo (fun key hkey => hs.isStage_eq_false key hkey) hsound hI.commute
    houtputs (fun i _ x htoken hins => ?_) mode
  have hlt : i < s.nodes.length := by
    by_contra hge
    rw [inputsAt_of_length_le (Nat.not_lt.mp hge)] at hins
    exact absurd hins (by simp)
  have hget : s.nodes.getD i default = s.nodes[i] := by
    rw [List.getD_eq_getElem?_getD, List.getElem?_eq_getElem hlt, Option.getD_some]
  rw [inputsAt, hget] at hins
  rw [hget] at htoken
  rw [arenaValue_eq htopo (List.getElem?_eq_getElem hlt), hins]
  exact hI.identity _ htoken _

/-- A symmetric operator recorded both ways round, behind an identity operator. -/
def twins : GraphStore := GraphStore.record
  [.source "x" (.new []), .source "y" (.new []), .op "add" [0, 1] (.new []),
    .op "add" [1, 0] (.new []),
    .op "mul" [3] (.new [("scalar", .float 0x3ff0000000000000), ("side", .str "sr")]),
    .op "sub" [2, 4] (.new [])]

def sizes (token : String) (xs : List Nat) : Nat :=
  if xs = [] then token.length else xs.sum

theorem respectsRules_sizes : RespectsRules sizes where
  commute := by
    intro t _ x y
    simp [sizes, Nat.add_comm]
  identity := by
    intro t _ x
    simp [sizes]

theorem twins_preservesMeaning : ∃ r, twins.reduceWithOutputs [5, 4] referenceEngine .singleUse =
      .ok r ∧ PreservesMeaning sizes twins.nodes [5, 4] r.1 :=
  ⟨_, rfl, reduceWithOutputs_preservesMeaning (GraphStore.recorded_record _) respectsRules_sizes
    referenceEngine_sound rfl⟩

end Graphed
