import Graphed.Execution.ShufflePlan

/-!
# Graphs with a barrier

A plan with a barrier evaluates its graph in two pieces, up to the inputs of the barrier and from
their values on. What is recorded after the barrier reads no source but through it, so the second
piece, given the values the inputs have in the whole graph, is the evaluation of the whole.
-/

namespace Graphed.Exchange

open Evaluator JsonText

variable {ρ X R : Type} {E : Evaluator (Held ρ X) Raised} {nodes : List IrNode} {marked : List Nat}
  {barrier : Nat} {boundary : IrNode}

/-- A graph with a barrier, as the builder accepts it: what is recorded after the barrier reads no
source directly. -/
structure Barrier (nodes : List IrNode) (marked : List Nat) (barrier : Nat) (boundary : IrNode) :
    Prop where
  wellFormed : WellFormedIr nodes
  node : nodes[barrier]? = some boundary
  marked_lt : ∀ o ∈ marked, o < nodes.length
  cone : ∀ n < nodes.length, Demanded nodes [] marked n
  noSource : ∀ n nd, Demanded nodes [barrier] marked n → nodes[n]? = some nd →
    ∀ name params, nd ≠ .source name params

theorem Barrier.target_lt (h : Barrier nodes marked barrier boundary) {target : Nat}
    (htarget : target ∈ boundary.inputs) : target < nodes.length :=
  Nat.lt_trans (h.wellFormed.topological _ _ h.node target htarget)
    (List.getElem?_eq_some_iff.mp h.node).1

/-- What is demanded of the barrier's inputs on is demanded of the barrier on. -/
theorem Barrier.demanded (h : Barrier nodes marked barrier boundary) {n : Nat}
    (hn : Demanded nodes boundary.inputs marked n) :
    n ∈ boundary.inputs ∨ Demanded nodes [barrier] marked n := by
  induction hn with
  | output ho => exact Or.inr (.output ho)
  | @input n m nd _ hcut hnd hn ih =>
      have hm : Demanded nodes [barrier] marked m := ih.resolve_left hcut
      by_cases hbarrier : m = barrier
      · rw [hbarrier, h.node] at hnd
        obtain rfl := Option.some.inj hnd
        exact Or.inl hn
      · exact Or.inr (.input hm (fun hmem => hbarrier (List.mem_singleton.mp hmem)) hnd hn)

/-! ### Sources -/

theorem plainNode_bound {nid : Nat} {nd : IrNode} (hnd : ∀ name params, nd ≠ .source name params)
    (s s' : List (String × Except Raised (Held ρ X))) (ins : List (Held ρ X)) :
    (bound E s).plainNode true nid nd ins = (bound E s').plainNode true nid nd ins := by
  cases nd with
  | source name params => exact absurd rfl (hnd name params)
  | _ => rfl

/-- After the barrier, what the sources are bound to does not matter. -/
theorem Barrier.plainValue_bound (h : Barrier nodes marked barrier boundary)
    (s s' : List (String × Except Raised (Held ρ X))) {given : List (Nat × Held ρ X)}
    (hgiven : ∀ m ∈ boundary.inputs, ∃ v, given.lookup m = some v) {n : Nat}
    (hn : Demanded nodes boundary.inputs marked n) :
    (bound E s).plainValue true nodes given n = (bound E s').plainValue true nodes given n := by
  induction n using Nat.strongRecOn with
  | ind n ih =>
      have hlt := hn.lt h.wellFormed h.marked_lt
      cases hlookup : given.lookup n with
      | some v => rw [plainValue_given h.wellFormed hlt hlookup,
          plainValue_given h.wellFormed hlt hlookup]
      | none =>
          have hcut : n ∉ boundary.inputs := by
            intro hmem
            obtain ⟨v, hv⟩ := hgiven n hmem
            rw [hlookup] at hv
            cases hv
          obtain ⟨nd, hnd⟩ : ∃ nd, nodes[n]? = some nd := ⟨_, List.getElem?_eq_getElem hlt⟩
          have hins : nd.inputs.map ((bound E s).plainValue true nodes given) =
              nd.inputs.map ((bound E s').plainValue true nodes given) := by
            apply List.map_congr_left
            intro m hm
            exact ih m (h.wellFormed.topological n nd hnd m hm) (.input hn hcut hnd hm)
          have hnode : (bound E s).plainNode true n nd = (bound E s').plainNode true n nd := by
            funext ins
            exact plainNode_bound
              (h.noSource n nd ((h.demanded hn).resolve_left hcut) hnd) s s' ins
          rw [plainValue_eq h.wellFormed hnd, plainValue_eq h.wellFormed hnd, hlookup, hins, hnode]

/-- A value that some sources determine stands when more are bound. -/
theorem plainValue_bound_mono (hwf : WellFormedIr nodes)
    {s s' : List (String × Except Raised (Held ρ X))}
    (hsub : ∀ name x, s.lookup name = some x → s'.lookup name = some x) {n : Nat}
    (hn : n < nodes.length) {v : Held ρ X}
    (hv : (bound E s).plainValue true nodes [] n = .ok v) :
    (bound E s').plainValue true nodes [] n = .ok v := by
  induction n using Nat.strongRecOn generalizing v with
  | ind n ih =>
      have hnd := List.getElem?_eq_getElem hn
      obtain ⟨ins, hins, hnode⟩ := (plainValue_eq_ok hwf hnd rfl).mp hv
      refine (plainValue_eq_ok hwf hnd rfl).mpr ⟨ins, ?_, ?_⟩
      · rw [← hins]
        apply List.map_congr_left
        intro m hm
        have hlt := hwf.topological n _ hnd m hm
        obtain ⟨w, -, hw⟩ := List.mem_map.mp (hins ▸ List.mem_map_of_mem hm)
        rw [← hw]
        exact ih m hlt (Nat.lt_trans hlt hn) hw.symm
      · cases hsource : nodes[n] with
        | source name params =>
            rw [hsource] at hnode
            change (s.lookup name).getD (.error (E.unboundSource name)) = .ok v at hnode
            change (s'.lookup name).getD (.error (E.unboundSource name)) = .ok v
            cases hlookup : s.lookup name with
            | none =>
                rw [hlookup] at hnode
                cases hnode
            | some x =>
                rw [hlookup] at hnode
                rw [hsub name x hlookup]
                exact hnode
        | _ =>
            rw [hsource] at hnode
            exact hnode

/-- What a side evaluates to at the barrier, a plain evaluation gives its node. -/
theorem MapWrite.plainValue_of_evaluated {w : MapWrite ρ X} (hwf : WellFormedIr w.nodes)
    (htarget : w.target < w.nodes.length) {chunk value : Held ρ X}
    (h : w.evaluated E chunk = .ok value) :
    (bound E [(w.sourceName, .ok chunk)]).plainValue true w.nodes [] w.target = .ok value := by
  obtain ⟨slots, hslots, honly⟩ := Attempts.bind_eq_ok_iff.mp h
  have hwanted : ∀ o ∈ (some [w.target]).getD w.marked, o < w.nodes.length := by
    intro o ho
    rwa [List.mem_singleton.mp ho]
  obtain ⟨vs, hvs, rfl⟩ := (evaluateIr_result _ true hwf hwanted (Or.inl rfl)).mp hslots
  obtain ⟨v, rest, hv, hrest, rfl⟩ := Attempts.mapM_cons_eq_ok_iff.mp hvs
  cases hrest
  cases honly
  exact hv

/-! ### The two pieces -/

/-- A gather's evaluation, given the barrier's whole inputs, is the evaluation of the whole. -/
theorem Barrier.evaluate_whole (h : Barrier nodes marked barrier boundary)
    {sources : List (String × Except Raised (Held ρ X))} {values : List (Held ρ X)}
    (hvalues : boundary.inputs.mapM ((bound E sources).plainValue true nodes []) = .ok values)
    (slots : List (Option (Held ρ X))) :
    ((bound E []).evaluateIr nodes marked none
        (some (dictUpdate [] (boundary.inputs.zip values))) true).result = .ok slots ↔
      ((bound E sources).evaluateIr nodes marked none none true).result = .ok slots := by
  have hwanted : ∀ o ∈ (none : Option (List Nat)).getD marked, o < nodes.length := h.marked_lt
  have hgiven : ∀ m ∈ boundary.inputs,
      ∃ v, (dictUpdate [] (boundary.inputs.zip values)).lookup m = some v := by
    intro m hm
    have hlength : boundary.inputs.length = values.length := by
      have hmap := congrArg List.length (mapM_eq_ok.mp hvalues)
      rwa [List.length_map, List.length_map] at hmap
    have hsome : (boundary.inputs.zip values).lookup m ≠ none := by
      intro hnone
      rw [lookup_eq_none, List.map_fst_zip (by omega)] at hnone
      exact hnone hm
    obtain ⟨v, hv⟩ := Option.ne_none_iff_exists'.mp hsome
    refine ⟨v, ?_⟩
    rw [lookup_dictUpdate, hv]
    rfl
  rw [evaluateIr_result (bound E []) true h.wellFormed hwanted (Or.inr (Or.inl rfl)),
    evaluateIr_result (bound E sources) true h.wellFormed hwanted (Or.inr (Or.inr h.cone)),
    Option.getD_some, Option.getD_none, Option.getD_none]
  have hsame : marked.mapM ((bound E []).plainValue true nodes
        (dictUpdate [] (boundary.inputs.zip values))) =
      marked.mapM ((bound E sources).plainValue true nodes []) :=
    calc marked.mapM ((bound E []).plainValue true nodes
          (dictUpdate [] (boundary.inputs.zip values)))
      _ = marked.mapM ((bound E sources).plainValue true nodes
            (dictUpdate [] (boundary.inputs.zip values))) :=
          Attempts.mapM_congr fun o ho => h.plainValue_bound [] sources hgiven (.output ho)
      _ = marked.mapM ((bound E sources).plainValue true nodes []) :=
          mapM_plainValue_cut h.wellFormed hvalues h.marked_lt
  rw [hsame]

end Graphed.Exchange
