import Graphed.Optimizer.Proof.Incremental
import Graphed.Optimizer.Preservation

/-!
# Incremental reduction preserves meaning

A Session that reduces while it records feeds its reducer the nodes recorded since the last step, at
any time and in deltas of any size. The canonical arena keeps the value of every node consumed and
what it reads, so finishing from it means what the recorded arena means.
-/

namespace Graphed

open FirstSeen GraphStore PostOrder

variable {V : Type*} {I : String → List V → V}

/-! ### Feeding a reducer -/

/-- A store being recorded and a reducer fed from it, in any interleaving of the two. -/
inductive Fed : GraphStore → IncrementalReducer → Prop
  | new : Fed .new .new
  | record {s : GraphStore} {r : IncrementalReducer} (call : Recording) :
      Fed s r → Fed (call.run s).2 r
  | mark {s : GraphStore} {r : IncrementalReducer} (id : Nat) :
      Fed s r → Fed (s.markOutput id).2 r
  | step {s : GraphStore} {r : IncrementalReducer} :
      Fed s r → Fed s (r.step (s.snapshotFrom r.watermark)).2

/-- Finish from a store: consume what is left of it, then reduce against its marked outputs, or
against exactly the given ones. -/
def PyIncrementalReducer.finalize (r : IncrementalReducer) (s : GraphStore)
    (requested : Option (List Nat)) (engine : EggEngine) (mode : FusionMode) :
    Except BadNodeId (GraphStore × ReductionReport) × IncrementalReducer :=
  match (requested.getD []).find? fun o => decide (s.nodes.length ≤ o) with
  | some bad => (.error ⟨bad⟩, r)
  | none =>
      match r.step (s.snapshotFrom r.watermark) with
      | (.error bad, r) => (.error bad, r)
      | (.ok _, r) =>
          ((r.finalize (requested.getD s.outputs) engine mode).map fromReduced, r)

/-- The reduced store `r` keeps the meaning of the arena: each record's value is the value its landing names,
a requested output is the whole node it lands in, and no record an output reads is dropped. -/
structure KeepsMeaning (I : String → List V → V) (nodes : List NodeKey) (outputs : List Nat)
    (r : GraphStore) : Prop where
  length_nodeMap : r.nodeMap.length = nodes.length
  mapped : ∀ (n : Nat) (l : Landing), r.nodeMap[n]? = some (some l) →
    ∃ v, landingValue I r.nodes l = some v ∧ (values I nodes).getD n none = some v
  requested : ∀ o ∈ outputs, ∃ l v, r.nodeMap[o]? = some (some l) ∧
    (values I r.nodes).getD l.1 none = some v ∧ (values I nodes).getD o none = some v
  outputs_eq : r.outputs = firsts (outputs.filterMap fun o => (r.nodeMap.getD o none).map Prod.fst)
  kept : ∀ o ∈ outputs, ∀ n, Reads nodes o n → r.nodeMap[n]? ≠ some none

/-! ### Arenas that grow -/

/-- A longer arena gives the nodes it shares their values. -/
theorem arenaValue_of_isPrefix {nodes nodes' : List NodeKey} (hpre : nodes <+: nodes')
    (htopo : TopologicalKeys nodes') {i : Nat} (hi : i < nodes.length) :
    arenaValue I nodes' i = arenaValue I nodes i := by
  have htopo' : TopologicalKeys nodes := BottomUp.Topological.of_isPrefix htopo hpre
  refine BottomUp.Solves.eq (f := fun key ins => I key.token ins) htopo' (fun i key hkey => ?_)
    (fun i key hkey => arenaValue_eq htopo' hkey) hi
  obtain ⟨rest, rfl⟩ := hpre
  refine arenaValue_eq htopo ?_
  rw [List.getElem?_append_left (List.getElem?_eq_some_iff.mp hkey).1, hkey]

theorem inputsAt_of_isPrefix {nodes nodes' : List NodeKey} (hpre : nodes <+: nodes') {i : Nat}
    (hi : i < nodes.length) : inputsAt nodes' i = inputsAt nodes i := by
  obtain ⟨rest, rfl⟩ := hpre
  rw [inputsAt_of_getElem? (List.getElem?_eq_getElem hi), inputsAt_of_getElem?]
  rw [List.getElem?_append_left hi, List.getElem?_eq_getElem hi]

theorem Reads.of_isPrefix {nodes nodes' : List NodeKey} (hpre : nodes <+: nodes') {x y : Nat}
    (h : Reads nodes x y) : Reads nodes' x y := by
  refine Relation.ReflTransGen.mono (fun x y hy => ?_) x y h
  rcases Nat.lt_or_ge x nodes.length with hx | hx
  · rwa [inputsAt_of_isPrefix hpre hx]
  · rw [inputsAt_of_length_le hx] at hy
    exact absurd hy (List.not_mem_nil)

/-- An identity operator has its input's value. -/
theorem arenaValue_of_identity {nodes : List NodeKey} (htopo : TopologicalKeys nodes)
    (hI : RespectsRules I) {i x : Nat} (htoken : (nodes.getD i default).token ∈ identityTokens)
    (hins : inputsAt nodes i = [x]) : arenaValue I nodes i = arenaValue I nodes x := by
  have hlt : i < nodes.length := by
    by_contra hge
    rw [inputsAt_of_length_le (Nat.not_lt.mp hge)] at hins
    exact absurd hins (by simp)
  rw [List.getD_eq_getElem?_getD, List.getElem?_eq_getElem hlt, Option.getD_some] at htoken
  rw [inputsAt_of_getElem? (List.getElem?_eq_getElem hlt)] at hins
  rw [arenaValue_eq htopo (List.getElem?_eq_getElem hlt), hins]
  exact hI.identity _ htoken _

namespace IncrementalReducer

/-! ### What the canonical arena carries -/

/-- The reducer consumed `seen`: the canonical node of each has its value and reads what it
reads. -/
structure Carries (I : String → List V → V) (seen : List NodeKey) (r : IncrementalReducer) :
    Prop where
  consistent : r.Consistent
  length_map : r.map.length = seen.length
  stageless : ∀ key ∈ r.canonNodes, key.isStage = false
  values : ∀ i < seen.length, arenaValue I r.canonNodes (r.map.getD i 0) = arenaValue I seen i
  reads : ∀ i < seen.length, ∀ j ∈ inputsAt seen i,
    Reads r.canonNodes (r.map.getD i 0) (r.map.getD j 0)

theorem carries_new : new.Carries I [] where
  consistent := consistent_new
  length_map := rfl
  stageless := by simp [new]
  values := by simp
  reads := by simp

/-- Equal keys have one token. -/
theorem token_of_beq {k key : NodeKey} (h : (k == key) = true) : k.token = key.token := by
  rw [← NodeKey.token_canon k, NodeKey.beq_iff.mp h, NodeKey.token_canon]

/-- The node an oriented key is interned as reads the key's inputs, and has the value the operator
gives them. -/
theorem value_of_oriented {nodes : List NodeKey} (htopo : TopologicalKeys nodes)
    (hI : RespectsRules I) {key k : NodeKey} {ks : List (BitVec 128)} {c : Nat}
    (hc : nodes[c]? = some k) (hk : (k == orient key ks) = true) :
    arenaValue I nodes c = I key.token (key.inputs.map (arenaValue I nodes)) ∧
      ∀ x ∈ key.inputs, Reads nodes c x := by
  have htoken : k.token = key.token := (token_of_beq hk).trans (token_orient key ks)
  have hins : k.inputs = (orient key ks).inputs := (NodeKey.beq_iff_operator.mp hk).2
  refine ⟨?_, fun x hx => Relation.ReflTransGen.single ?_⟩
  · rw [arenaValue_eq htopo hc, htoken, hins]
    rcases orient_cases key ks with h | ⟨hsym, a, b, -, -, hab, -, -, h⟩
    · rw [h]
    · rw [h, inputs_withInputs_pair hsym, hab]
      exact hI.commute _ ((isSymmetric_iff key).mp hsym).1 _ _
  · rw [inputsAt_of_getElem? hc, hins]
    exact mem_inputs_orient.mpr hx

/-- The canonical node of a consumed key. -/
theorem consume_last {r : IncrementalReducer} (hr : r.Consistent) (hI : RespectsRules I)
    {key : NodeKey} (hvalid : ∀ i ∈ key.inputs, i < r.map.length) :
    ∃ c, (r.consume key).map = r.map ++ [c] ∧
      arenaValue I (r.consume key).canonNodes c =
        I key.token (key.inputs.map fun i => arenaValue I r.canonNodes (r.map.getD i 0)) ∧
      ∀ j ∈ key.inputs, Reads (r.consume key).canonNodes c (r.map.getD j 0) := by
  have hrenamed : ∀ c ∈ key.inputs.map (r.map.getD · 0), c < r.canonNodes.length := by
    intro c hc
    obtain ⟨i, hi, rfl⟩ := List.mem_map.mp hc
    rw [getD_eq_getElem (hvalid i hi)]
    exact hr.map_lt _ (List.getElem_mem _)
  have hinputs := NodeKey.inputs_withInputs_map key (r.map.getD · 0)
  unfold consume
  rcases r.canonicalize_cases (key.withInputs (key.inputs.map (r.map.getD · 0))) with
    ⟨only, hins, htoken, h⟩ | ⟨-, h⟩
  · rw [hinputs] at hins
    rw [NodeKey.token_withInputs] at htoken
    rw [h]
    refine ⟨only, rfl, ?_, fun j hj => ?_⟩
    · have hone : key.inputs.map (fun i => arenaValue I r.canonNodes (r.map.getD i 0)) =
          [arenaValue I r.canonNodes only] := by
        calc key.inputs.map (fun i => arenaValue I r.canonNodes (r.map.getD i 0))
          _ = (key.inputs.map (r.map.getD · 0)).map (arenaValue I r.canonNodes) := by
              rw [List.map_map]
              rfl
          _ = [arenaValue I r.canonNodes only] := by rw [hins, List.map_singleton]
      rw [hone]
      exact (hI.identity _ htoken _).symm
    · have hmem : r.map.getD j 0 ∈ [only] := hins ▸ List.mem_map_of_mem hj
      rw [List.mem_singleton.mp hmem]
      exact Relation.ReflTransGen.refl
  · rw [h]
    rw [← hinputs] at hrenamed
    obtain ⟨hcons, hpre, hmap, -, ⟨k, hk, hbeq⟩, -⟩ := intern_spec hr hrenamed
    have htopo : TopologicalKeys (r.intern _).2.canonNodes := hcons.interned.inputs_lt
    obtain ⟨hvalue, hreads⟩ := value_of_oriented htopo hI hk hbeq
    rw [hinputs] at hrenamed hvalue hreads
    refine ⟨_, congrArg (· ++ [_]) hmap, ?_, fun j hj => hreads _ (List.mem_map_of_mem hj)⟩
    rw [hvalue, NodeKey.token_withInputs, List.map_map]
    congr 1
    refine List.map_congr_left fun i hi => ?_
    exact arenaValue_of_isPrefix hpre htopo (hrenamed _ (List.mem_map_of_mem hi))

theorem Carries.consume {seen : List NodeKey} {r : IncrementalReducer} (h : r.Carries I seen)
    (hI : RespectsRules I) {key : NodeKey} (htopo : TopologicalKeys (seen ++ [key]))
    (hstage : key.isStage = false) : (r.consume key).Carries I (seen ++ [key]) := by
  have hkey : (seen ++ [key])[seen.length]? = some key := by simp
  have hvalid : ∀ i ∈ key.inputs, i < seen.length := htopo seen.length key hkey
  have hvalid' : ∀ i ∈ key.inputs, i < r.map.length := by rwa [h.length_map]
  obtain ⟨hcons, hpre, -, -, hsub⟩ := consume_spec h.consistent hvalid'
  obtain ⟨c, hmap, hvalue, hreads⟩ := consume_last h.consistent hI hvalid'
  have hcanon : TopologicalKeys (r.consume key).canonNodes := hcons.interned.inputs_lt
  have hold : ∀ i < seen.length, (r.consume key).map.getD i 0 = r.map.getD i 0 := by
    intro i hi
    rw [hmap, List.getD_eq_getElem?_getD, List.getElem?_append_left (by rwa [h.length_map]),
      List.getD_eq_getElem?_getD]
  have hnew : (r.consume key).map.getD seen.length 0 = c := by
    rw [hmap, ← h.length_map, List.getD_eq_getElem?_getD,
      List.getElem?_append_right (Nat.le_refl _), Nat.sub_self]
    rfl
  have hlt : ∀ i < seen.length, r.map.getD i 0 < r.canonNodes.length := by
    intro i hi
    rw [getD_eq_getElem (h.length_map.symm ▸ hi)]
    exact h.consistent.map_lt _ (List.getElem_mem _)
  have hseen : ∀ i < seen.length, arenaValue I (r.consume key).canonNodes (r.map.getD i 0) =
      arenaValue I (seen ++ [key]) i := by
    intro i hi
    rw [arenaValue_of_isPrefix hpre hcanon (hlt i hi), h.values i hi,
      arenaValue_of_isPrefix (List.prefix_append seen [key]) htopo hi]
  have hlast : ∀ {i : Nat}, i < (seen ++ [key]).length → i < seen.length ∨ i = seen.length := by
    intro i hi
    rw [List.length_append, List.length_singleton] at hi
    omega
  refine ⟨hcons, by rw [hmap]; simp [h.length_map], fun k hk => ?_, fun i hi => ?_,
    fun i hi j hj => ?_⟩
  · rcases hsub k hk with hk | ⟨ins, rfl⟩
    · exact h.stageless k hk
    · rw [NodeKey.isStage_withInputs, hstage]
  · rcases hlast hi with hi | rfl
    · rw [hold i hi, hseen i hi]
    · rw [hnew, hvalue, arenaValue_eq htopo hkey]
      congr 1
      refine List.map_congr_left fun j hj => ?_
      rw [h.values j (hvalid j hj),
        arenaValue_of_isPrefix (List.prefix_append seen [key]) htopo (hvalid j hj)]
  · rcases hlast hi with hi | rfl
    · rw [inputsAt_of_isPrefix (List.prefix_append seen [key]) hi] at hj
      have hji : j < seen.length := by
        refine Nat.lt_trans (htopo i seen[i] ?_ j ?_) hi
        · rw [List.getElem?_append_left hi, List.getElem?_eq_getElem hi]
        · rwa [inputsAt_of_getElem? (List.getElem?_eq_getElem hi)] at hj
      rw [hold i hi, hold j hji]
      exact (h.reads i hi j hj).of_isPrefix hpre
    · rw [inputsAt_of_getElem? hkey] at hj
      rw [hnew, hold j (hvalid j hj)]
      exact hreads j hj

/-- Consuming the rest of a topological arena does not stop early. -/
theorem Carries.consumeAll {seen : List NodeKey} {r : IncrementalReducer} (h : r.Carries I seen)
    (hI : RespectsRules I) {delta : List NodeKey} (htopo : TopologicalKeys (seen ++ delta))
    (hstage : ∀ key ∈ delta, key.isStage = false) :
    (r.consumeAll delta).1 = .ok () ∧ (r.consumeAll delta).2.Carries I (seen ++ delta) ∧
      (r.consumeAll delta).2.totalWork = r.totalWork := by
  induction delta generalizing seen r with
  | nil =>
      rw [List.append_nil]
      exact ⟨rfl, h, rfl⟩
  | cons key delta ih =>
      have happend : seen ++ key :: delta = seen ++ [key] ++ delta := by simp
      rw [happend] at htopo ⊢
      have htopo' : TopologicalKeys (seen ++ [key]) :=
        BottomUp.Topological.of_isPrefix htopo (List.prefix_append _ _)
      have hvalid : ∀ i ∈ key.inputs, i < r.map.length := by
        rw [h.length_map]
        exact htopo' seen.length key (by simp)
      have hnone : (key.inputs.find? fun i => decide (r.map.length ≤ i)) = none := by
        rw [List.find?_eq_none]
        intro i hi
        simpa using hvalid i hi
      have hwork := (consume_spec h.consistent hvalid).2.2.2.1
      rw [IncrementalReducer.consumeAll, hnone, ← hwork]
      exact ih (h.consume hI htopo' (hstage key List.mem_cons_self)) htopo
        fun k hk => hstage k (List.mem_cons_of_mem _ hk)

/-- One step, from any watermark, catches up with the store. -/
theorem Carries.step {s : GraphStore} (hs : Recorded s) {r : IncrementalReducer}
    (h : r.Carries I (s.nodes.take r.watermark)) (hI : RespectsRules I) :
    (r.step (s.snapshotFrom r.watermark)).1 = .ok (s.snapshotFrom r.watermark).length ∧
      (r.step (s.snapshotFrom r.watermark)).2.Carries I s.nodes ∧
      (r.step (s.snapshotFrom r.watermark)).2.totalWork =
        r.totalWork + (s.snapshotFrom r.watermark).length := by
  have hwhole : s.nodes.take r.watermark ++ s.snapshotFrom r.watermark = s.nodes :=
    List.take_append_drop _ _
  have htopo : TopologicalKeys (s.nodes.take r.watermark ++ s.snapshotFrom r.watermark) := by
    rw [hwhole]
    exact hs.interned.inputs_lt
  obtain ⟨hok, hcarries, hwork⟩ := h.consumeAll hI htopo fun key hkey =>
    hs.isStage_eq_false key (List.mem_of_mem_drop hkey)
  rw [hwhole] at hcarries
  rw [IncrementalReducer.step]
  generalize r.consumeAll (s.snapshotFrom r.watermark) = run at hok hcarries hwork
  obtain ⟨result, r'⟩ := run
  obtain rfl : result = .ok () := hok
  exact ⟨rfl, ⟨⟨hcarries.consistent.interned, hcarries.consistent.keys_eq,
    hcarries.consistent.map_lt⟩, hcarries.length_map, hcarries.stageless, hcarries.values,
    hcarries.reads⟩, by rw [← hwork]⟩

/-- What the canonical arena reads follows what the arena reads. -/
theorem Carries.reads_trans {seen : List NodeKey} {r : IncrementalReducer}
    (h : r.Carries I seen) (htopo : TopologicalKeys seen) {o n : Nat} (ho : o < seen.length)
    (hreads : Reads seen o n) : n < seen.length ∧
      Reads r.canonNodes (r.map.getD o 0) (r.map.getD n 0) := by
  induction hreads with
  | refl => exact ⟨ho, Relation.ReflTransGen.refl⟩
  | @tail x y _ hy ih =>
      obtain ⟨hx, hox⟩ := ih
      have hins := inputsAt_of_getElem? (List.getElem?_eq_getElem hx)
      have hyx : y < x := htopo x _ (List.getElem?_eq_getElem hx) y (hins ▸ hy)
      exact ⟨Nat.lt_trans hyx hx, hox.trans (h.reads x hx y hy)⟩

/-- Re-interning a reduced graph renames the landings of its node map, whatever they are. -/
theorem fromReduced_nodeMap (red : Reduced) (nodeMap : List (Option Landing)) :
    ∃ g : Landing → Landing,
      (fromReduced red).1.nodeMap = red.nodeMap.map (Option.map g) ∧
      (fromReduced { red with nodeMap := nodeMap }).1 =
        { (fromReduced red).1 with nodeMap := nodeMap.map (Option.map g) } :=
  ⟨_, rfl, rfl⟩

/-- Finishing from an arena consumed whole. -/
theorem Carries.finalize {seen : List NodeKey} {r : IncrementalReducer} (h : r.Carries I seen)
    (htopo : TopologicalKeys seen) (hstage : ∀ key ∈ seen, key.isStage = false)
    (hI : RespectsRules I) {engine : EggEngine} (hsound : engine.Sound) {outputs : List Nat}
    (houtputs : ∀ o ∈ outputs, o < seen.length) (mode : FusionMode) :
    ∃ red, r.finalize outputs engine mode = .ok red ∧
      KeepsMeaning I seen outputs (fromReduced red).1 := by
  have hvalid : (outputs.find? fun o => decide (r.map.length ≤ o)) = none := by
    rw [List.find?_eq_none]
    intro o ho
    simpa [h.length_map] using houtputs o ho
  have hlt : ∀ n < seen.length, r.map.getD n 0 < r.canonNodes.length := by
    intro n hn
    rw [getD_eq_getElem (h.length_map.symm ▸ hn)]
    exact h.consistent.map_lt _ (List.getElem_mem _)
  have hcanon : TopologicalKeys r.canonNodes := h.consistent.interned.inputs_lt
  have houts : ∀ c ∈ outputs.map (r.map.getD · 0), c < r.canonNodes.length := by
    intro c hc
    obtain ⟨o, ho, rfl⟩ := List.mem_map.mp hc
    exact hlt o (houtputs o ho)
  have hmeans := oriented_preservesMeaning hcanon h.stageless hsound hI.commute
    (swapsPairs_none _) (fun i hi => absurd hi (by simp [Swapped])) houts
    (fun i _ x htoken hins => arenaValue_of_identity hcanon hI htoken hins) mode
  refine ⟨_, by rw [IncrementalReducer.finalize, hvalid], ?_⟩
  generalize reduceOriented r.canonNodes (outputs.map (r.map.getD · 0)) none engine mode =
    red at hmeans
  obtain ⟨g, hcanonMap, hstore⟩ := fromReduced_nodeMap red
    (r.map.map fun c => red.nodeMap.getD c none)
  rw [hstore]
  have hmap : ∀ n < seen.length,
      ((r.map.map fun c => red.nodeMap.getD c none).map (Option.map g))[n]? =
        (fromReduced red).1.nodeMap[r.map.getD n 0]? := by
    intro n hn
    have hlen : r.map.getD n 0 < red.nodeMap.length := by
      have hlen := hmeans.length_nodeMap
      rw [hcanonMap, List.length_map] at hlen
      exact hlen ▸ hlt n hn
    have hn' : n < r.map.length := h.length_map.symm ▸ hn
    have hkept : red.nodeMap.getD (r.map.getD n 0) none = red.nodeMap[r.map.getD n 0] := by
      rw [List.getD_eq_getElem?_getD, List.getElem?_eq_getElem hlen, Option.getD_some]
    rw [hcanonMap, List.getElem?_map, List.getElem?_map, List.getElem?_map,
      List.getElem?_eq_getElem hn', ← getD_eq_getElem hn', List.getElem?_eq_getElem hlen,
      Option.map_some, Option.map_some, Option.map_some, hkept]
  have hvalue : ∀ n < seen.length,
      (Graphed.values I r.canonNodes).getD (r.map.getD n 0) none =
        (Graphed.values I seen).getD n none := by
    intro n hn
    rw [values_arena hcanon h.stageless (hlt n hn), values_arena htopo hstage hn, h.values n hn]
  refine ⟨by simp [h.length_map], fun n l hl => ?_, fun o ho => ?_, ?_, fun o ho n hreads hn => ?_⟩
  · have hn : n < seen.length := by
      have hlt := (List.getElem?_eq_some_iff.mp hl).1
      simpa [h.length_map] using hlt
    rw [← hvalue n hn]
    exact hmeans.mapped _ l ((hmap n hn).symm.trans hl)
  · rw [hmap o (houtputs o ho), ← hvalue o (houtputs o ho)]
    exact hmeans.requested _ (List.mem_map_of_mem ho)
  · rw [hmeans.outputs_eq, List.filterMap_map]
    congr 1
    refine List.filterMap_congr fun o ho => ?_
    rw [Function.comp_apply, List.getD_eq_getElem?_getD, ← hmap o (houtputs o ho),
      ← List.getD_eq_getElem?_getD]
  · obtain ⟨hn', hcanonReads⟩ := h.reads_trans htopo (houtputs o ho) hreads
    rw [hmap n hn'] at hn
    exact (hmeans.dropped _ (hlt n hn')).mp hn _ (List.mem_map_of_mem ho) hcanonReads

end IncrementalReducer

/-! ### Every build -/

namespace Fed

variable {s : GraphStore} {r : IncrementalReducer}

theorem recorded (h : Fed s r) : Recorded s := by
  induction h with
  | new => exact Recorded.new
  | record call _ ih => exact Recorded.record call ih
  | mark id _ ih => exact Recorded.mark id ih
  | step _ ih => exact ih

/-- Recording appends to the arena. -/
theorem isPrefix_run (s : GraphStore) (call : Recording) : s.nodes <+: (call.run s).2.nodes := by
  rw [call.run_eq_intern]
  rcases s.intern_cases call.key with ⟨_, _, _, h⟩ | ⟨_, ⟨_, _, h⟩ | ⟨_, h⟩⟩ <;> simp only [h]
  · exact List.prefix_rfl
  · exact List.prefix_rfl
  · exact List.prefix_append _ _

/-- Every interleaving leaves the reducer with what it consumed of the arena, each node once. -/
theorem carries (h : Fed s r) (hI : RespectsRules I) :
    r.Carries I (s.nodes.take r.watermark) ∧ r.totalWork = r.watermark ∧
      r.watermark ≤ s.nodes.length := by
  induction h with
  | new => exact ⟨IncrementalReducer.carries_new, rfl, Nat.le_refl _⟩
  | @record s r call _ ih =>
      obtain ⟨hcarries, hwork, hle⟩ := ih
      obtain ⟨rest, hrest⟩ := isPrefix_run s call
      refine ⟨?_, hwork, hrest ▸ (List.length_append ▸ Nat.le_add_right_of_le hle)⟩
      rwa [← hrest, List.take_append_of_le_length hle]
  | mark id _ ih => rwa [nodes_markOutput]
  | @step s r hfed ih =>
      obtain ⟨hcarries, hwork, hle⟩ := ih
      obtain ⟨-, hstep, htotal⟩ := hcarries.step hfed.recorded hI
      have hmark : (r.step (s.snapshotFrom r.watermark)).2.watermark = s.nodes.length :=
        hstep.length_map
      rw [hmark, List.take_length]
      refine ⟨hstep, ?_, Nat.le_refl _⟩
      rw [htotal, hwork, snapshotFrom, List.length_drop]
      exact Nat.add_sub_cancel' hle

end Fed

/-- **Incremental reduction preserves meaning.** However recording and reducing were interleaved,
finishing is refused only for an id the store does not hold; otherwise the reduced store keeps the
meaning of the recorded arena, each node of which was consumed once. -/
theorem incremental_keepsMeaning {s : GraphStore} {r : IncrementalReducer} (hfed : Fed s r)
    {I : String → List V → V} (hI : RespectsRules I) {engine : EggEngine} (hsound : engine.Sound)
    (requested : Option (List Nat)) (mode : FusionMode) :
    ((∃ out, (PyIncrementalReducer.finalize r s requested engine mode).1 = .ok out) ↔
      ∀ o ∈ requested.getD [], o < s.nodes.length) ∧
    ∀ out, (PyIncrementalReducer.finalize r s requested engine mode).1 = .ok out →
      KeepsMeaning I s.nodes (requested.getD s.outputs) out.1 ∧
      (PyIncrementalReducer.finalize r s requested engine mode).2.watermark = s.nodes.length ∧
      (PyIncrementalReducer.finalize r s requested engine mode).2.totalWork = s.nodes.length := by
  obtain ⟨hcarries, hwork, hle⟩ := hfed.carries hI
  have hs := hfed.recorded
  obtain ⟨hstep, hcaught, htotal⟩ := hcarries.step hs hI
  unfold PyIncrementalReducer.finalize
  cases hbad : (requested.getD []).find? fun o => decide (s.nodes.length ≤ o) with
  | some bad =>
      have hge : s.nodes.length ≤ bad := by simpa using List.find?_some hbad
      have hmem := List.mem_of_find?_eq_some hbad
      refine ⟨⟨fun ⟨_, h⟩ => absurd h (by simp), fun h => ?_⟩, fun out h => absurd h (by simp)⟩
      exact absurd (h bad hmem) (Nat.not_lt.mpr hge)
  | none =>
      have hvalid : ∀ o ∈ requested.getD [], o < s.nodes.length := by simpa using hbad
      have houtputs : ∀ o ∈ requested.getD s.outputs, o < s.nodes.length := by
        cases requested with
        | none => exact hs.interned.outputs_lt
        | some outputs => exact hvalid
      generalize r.step (s.snapshotFrom r.watermark) = run at hstep hcaught htotal
      obtain ⟨result, r'⟩ := run
      obtain rfl : result = .ok _ := hstep
      obtain ⟨red, hred, hkeeps⟩ := hcaught.finalize hs.interned.inputs_lt
        hs.isStage_eq_false hI hsound houtputs mode
      simp only [hred, Except.map]
      refine ⟨iff_of_true ⟨_, rfl⟩ hvalid, fun out hout => ?_⟩
      obtain rfl := Except.ok.inj hout
      refine ⟨hkeeps, hcaught.length_map, ?_⟩
      rw [htotal, hwork, snapshotFrom, List.length_drop]
      exact Nat.add_sub_cancel' hle

/-- The twins, the reducer stepped after the operands, after the first twin and at the end. -/
theorem twins_incremental : ∃ r out, Fed twins r ∧
    (PyIncrementalReducer.finalize r twins (some [5, 4]) referenceEngine .maximal).1 = .ok out ∧
      KeepsMeaning sizes twins.nodes [5, 4] out.1 := by
  have hfed : Fed twins _ :=
    .step (.record (.op "sub" [2, 4] (.new []))
      (.record (.op "mul" [3] (.new [("scalar", .float 0x3ff0000000000000), ("side", .str "sr")]))
      (.record (.op "add" [1, 0] (.new [])) (.step (.record (.op "add" [0, 1] (.new [])) (.step
      (.record (.source "y" (.new [])) (.record (.source "x" (.new [])) .new))))))))
  have hkeeps := incremental_keepsMeaning hfed respectsRules_sizes referenceEngine_sound
    (some [5, 4]) .maximal
  obtain ⟨out, hout⟩ := hkeeps.1.mpr (by decide)
  exact ⟨_, out, hfed, hout, (hkeeps.2 out hout).1⟩

end Graphed
