import Graphed.Execution.Released

/-!
# One evaluation is the plain one

A run over the nodes evaluates those it does not skip, in id order, on slots that hold their values.
-/

namespace Graphed

open Liveness

namespace Evaluator

variable {V ε : Type} {E : Evaluator V ε} {chunked : Bool} {nodes : List IrNode}
  {given : List (Nat × V)}

/-! ### What nodes are worth -/

theorem topological_zipIdx (hwf : WellFormedIr nodes) :
    BottomUp.Topological (fun nd : IrNode × Nat => nd.1.inputs) nodes.zipIdx := by
  intro i nd hnd
  rw [List.getElem?_zipIdx] at hnd
  obtain ⟨key, hkey, rfl⟩ := Option.map_eq_some_iff.mp hnd
  exact hwf.topological i key hkey

theorem plainValue_eq (hwf : WellFormedIr nodes) {nid : Nat} {nd : IrNode}
    (hnd : nodes[nid]? = some nd) : E.plainValue chunked nodes given nid =
      (given.lookup nid).elim
        ((nd.inputs.map (E.plainValue chunked nodes given)).mapM id >>= E.plainNode chunked nid nd)
        .ok := by
  have hsolves : BottomUp.Solves (fun nd : IrNode × Nat => nd.1.inputs)
      (fun nd ins => (given.lookup nd.2).elim (ins.mapM id >>= E.plainNode chunked nd.2 nd.1) .ok)
      nodes.zipIdx (E.plainValue chunked nodes given) :=
    BottomUp.results_solves (topological_zipIdx hwf)
  exact hsolves nid (nd, nid) (by rw [List.getElem?_zipIdx, hnd, Nat.zero_add]; rfl)

theorem plainValue_given (hwf : WellFormedIr nodes) {nid : Nat} (hnid : nid < nodes.length) {v : V}
    (hv : given.lookup nid = some v) : E.plainValue chunked nodes given nid = .ok v := by
  rw [plainValue_eq hwf (List.getElem?_eq_getElem hnid), hv]
  rfl

theorem mapM_id_eq_ok {α : Type} {xs : List (Except ε α)} {ys : List α} :
    xs.mapM id = .ok ys ↔ xs = ys.map .ok := by
  induction xs generalizing ys with
  | nil => cases ys <;> simp [pure, Except.pure]
  | cons x xs ih =>
      rw [List.mapM_cons]
      cases x with
      | error e =>
          refine iff_of_false nofun fun h => ?_
          cases ys <;> simp at h
      | ok a =>
          change (xs.mapM id >>= fun rest => pure (a :: rest)) = _ ↔ _
          cases hrest : xs.mapM id with
          | error e =>
              refine iff_of_false nofun fun h => ?_
              cases ys with
              | nil => simp at h
              | cons y ys =>
                  rw [List.map_cons, List.cons.injEq] at h
                  rw [ih.mpr h.2] at hrest
                  cases hrest
          | ok rest =>
              rw [ih.mp hrest]
              change Except.ok (a :: rest) = _ ↔ _
              cases ys with
              | nil => simp
              | cons y ys => simp [(List.map_injective_iff.mpr fun _ _ h => Except.ok.inj h).eq_iff]

/-- A node that is evaluated is worth something only if all its inputs are. -/
theorem plainValue_eq_ok (hwf : WellFormedIr nodes) {nid : Nat} {nd : IrNode}
    (hnd : nodes[nid]? = some nd) (hgiven : given.lookup nid = none) {v : V} :
    E.plainValue chunked nodes given nid = .ok v ↔
      ∃ ins, nd.inputs.map (E.plainValue chunked nodes given) = ins.map .ok ∧
        E.plainNode chunked nid nd ins = .ok v := by
  rw [plainValue_eq hwf hnd, hgiven]
  change ((nd.inputs.map (E.plainValue chunked nodes given)).mapM id >>= _) = _ ↔ _
  constructor
  · intro h
    cases hins : (nd.inputs.map (E.plainValue chunked nodes given)).mapM id with
    | error e =>
        rw [hins] at h
        cases h
    | ok ins =>
        rw [hins] at h
        exact ⟨ins, mapM_id_eq_ok.mp hins, h⟩
  · rintro ⟨ins, hins, hv⟩
    rw [mapM_id_eq_ok.mpr hins]
    exact hv

/-! ### One node -/

theorem evaluateNode_single {nid : Nat} {nd : IrNode} (h : ∀ ins members, nd ≠ .stage ins members)
    (ins : List (Option V)) : E.evaluateNode chunked nid nd ins =
      Traced.quietly ((E.evaluateSingle chunked nid nd ins).map some) := by
  cases nd with
  | stage inputs members => exact absurd rfl (h inputs members)
  | _ => exact Traced.map_quietly some _

/-- A node on handed values reads only these inside, and is worth what the plain evaluation
says. -/
theorem evaluateNode_plain (E : Evaluator V ε) (chunked : Bool) (hwf : WellFormedIr nodes)
    {nid : Nat} {nd : IrNode} (hnd : nodes[nid]? = some nd) {ins : List V}
    (hlength : ins.length = nd.inputs.length) :
    (∀ r ∈ (E.evaluateNode chunked nid nd (ins.map some)).log, MemberReading nid r) ∧
      (E.evaluateNode chunked nid nd (ins.map some)).result =
        (E.plainNode chunked nid nd ins).map some := by
  cases nd with
  | stage inputs members =>
      have hmem := List.mem_of_getElem? hnd
      refine evaluateStage_plain (hwf.nonempty _ _ hmem) ?_ (by simp)
      rw [List.length_map, hlength]
      exact hwf.within _ _ hmem
  | _ =>
      rw [evaluateNode_single fun _ _ h => by cases h]
      exact ⟨fun r hr => absurd hr List.not_mem_nil, rfl⟩

/-! ### The run -/

/-- The nodes a run evaluated, in order. -/
def evaluatedNodes (log : List (Reading V)) : List Nat :=
  (log.filter fun r => r.address.2.isNone).map fun r => r.address.1

/-- What is skipped and needed is given, and nothing else is given. -/
structure Skips (nodes : List IrNode) (given : List (Nat × V)) (wanted : List Nat)
    (skipped : Nat → Bool) : Prop where
  evaluated : ∀ n < nodes.length, skipped n = false → given.lookup n = none
  inputs : ∀ n nd, nodes[n]? = some nd → skipped n = false → ∀ i ∈ nd.inputs, skipped i = true →
    (given.lookup i).isSome = true
  wanted : ∀ o ∈ wanted, skipped o = true → (given.lookup o).isSome = true

/-- What a node is worth, when it is worth anything. -/
def worth (E : Evaluator V ε) (chunked : Bool) (nodes : List IrNode) (given : List (Nat × V))
    (nid : Nat) : Option V :=
  (E.plainValue chunked nodes given nid).toOption

/-- A run over the first nodes: it read handed values only, and it evaluated all it does not skip
up to its end or to the first that is worth nothing. -/
structure RanTo (E : Evaluator V ε) (chunked : Bool) (nodes : List IrNode)
    (given : List (Nat × V)) (wanted : List Nat) (skipped : Nat → Bool) (n : Nat)
    (run : Traced (Reading V) ε (List (Option V))) : Prop where
  operands : ∀ r ∈ run.log, ∀ x ∈ r.operands, x.isSome = true
  result : (evaluatedNodes run.log = (List.range n).filter (fun i => !skipped i) ∧
      (∀ i < n, skipped i = false → (worth E chunked nodes given i).isSome = true) ∧
      ∃ slots, run.result = .ok slots ∧
        Retains (slotReads nodes skipped) wanted (worth E chunked nodes given) n slots) ∨
    ∃ k < n, skipped k = false ∧ worth E chunked nodes given k = none ∧
      evaluatedNodes run.log = (List.range (k + 1)).filter (fun i => !skipped i) ∧
      ∃ e, run.result = .error e

section Run

variable {wanted : List Nat} {skipped : Nat → Bool}

theorem getD_slotReads {n : Nat} {nd : IrNode} (hnd : nodes[n]? = some nd) :
    (slotReads nodes skipped).getD n [] = if skipped n then [] else nd.inputs := by
  unfold slotReads
  rw [List.getD_eq_getElem?_getD, List.getElem?_map, List.getElem?_zipIdx, hnd, Nat.zero_add]
  rfl

/-- A skipped node that is still needed is given. -/
theorem given_of_needed (hskips : Skips nodes given wanted skipped) {c n : Nat}
    (hn : skipped n = true) (hneeded : StillRead (slotReads nodes skipped) wanted c n) :
    (given.lookup n).isSome = true := by
  rcases hneeded with hmem | ⟨later, -, hread⟩
  · exact hskips.wanted n hmem hn
  · cases hnd : nodes[later]? with
    | none =>
        unfold slotReads at hread
        rw [List.getD_eq_getElem?_getD, List.getElem?_map, List.getElem?_zipIdx, hnd] at hread
        cases hread
    | some nd =>
        rw [getD_slotReads hnd] at hread
        cases hlater : skipped later with
        | true =>
            rw [hlater, if_pos rfl] at hread
            cases hread
        | false =>
            rw [hlater, if_neg Bool.false_ne_true] at hread
            exact hskips.inputs later nd hnd hlater n hread hn

/-- The slots hand an evaluated node what its inputs are worth. -/
theorem operands_of_holds (hwf : WellFormedIr nodes) (hskips : Skips nodes given wanted skipped)
    {n : Nat} {nd : IrNode} (hnd : nodes[n]? = some nd) (hn : skipped n = false)
    (hbefore : ∀ i < n, skipped i = false → (worth E chunked nodes given i).isSome = true)
    {slots : List (Option V)}
    (hholds : Retains (slotReads nodes skipped) wanted (worth E chunked nodes given) n slots) :
    ∃ ins : List V, nd.inputs.map (slots.getD · none) = ins.map some ∧
      ins.length = nd.inputs.length ∧
      nd.inputs.map (E.plainValue chunked nodes given) = ins.map .ok := by
  have hlen := (List.getElem?_eq_some_iff.mp hnd).1
  have heach : ∀ i ∈ nd.inputs, ∃ v, slots.getD i none = some v ∧
      E.plainValue chunked nodes given i = .ok v := by
    intro i hi
    have hlt := hwf.topological n nd hnd i hi
    have hread : i ∈ (slotReads nodes skipped).getD n [] := by
      rw [getD_slotReads hnd, hn, if_neg Bool.false_ne_true]
      exact hi
    have hworth : (worth E chunked nodes given i).isSome = true := by
      cases hskip : skipped i with
      | false => exact hbefore i hlt hskip
      | true =>
          obtain ⟨v, hv⟩ := Option.isSome_iff_exists.mp (hskips.inputs n nd hnd hn i hi hskip)
          unfold worth
          rw [plainValue_given hwf (Nat.lt_trans hlt hlen) hv]
          rfl
    rw [hholds.read hread hlt]
    unfold worth at hworth ⊢
    cases hv : E.plainValue chunked nodes given i with
    | error e =>
        rw [hv] at hworth
        cases hworth
    | ok v => exact ⟨v, rfl, rfl⟩
  generalize nd.inputs = inputs at heach
  induction inputs with
  | nil => exact ⟨[], rfl, rfl, rfl⟩
  | cons i inputs ih =>
      obtain ⟨v, hslot, hvalue⟩ := heach i List.mem_cons_self
      obtain ⟨ins, hslots, hlength, hvalues⟩ := ih fun j hj => heach j (List.mem_cons_of_mem i hj)
      exact ⟨v :: ins, by rw [List.map_cons, hslot, hslots]; rfl, by simp [hlength],
        by rw [List.map_cons, hvalue, hvalues]; rfl⟩

theorem filter_range_succ {n : Nat} (p : Nat → Bool) : (List.range (n + 1)).filter p =
    (List.range n).filter p ++ if p n then [n] else [] := by
  rw [List.range_succ, List.filter_append]
  cases h : p n <;> simp [h]

theorem evaluatedNodes_append (a b : List (Reading V)) :
    evaluatedNodes (a ++ b) = evaluatedNodes a ++ evaluatedNodes b := by
  unfold evaluatedNodes
  rw [List.filter_append, List.map_append]

theorem evaluatedNodes_members {nid : Nat} {log : List (Reading V)}
    (h : ∀ r ∈ log, MemberReading nid r) : evaluatedNodes log = [] := by
  unfold evaluatedNodes
  rw [List.map_eq_nil_iff, List.filter_eq_nil_iff]
  intro r hr
  obtain ⟨⟨index, haddress⟩, -⟩ := h r hr
  simp [haddress]

/-- One node and what is read inside it. -/
theorem evaluatedNodes_node {n : Nat} {log inside : List (Reading V)} (operands : List (Option V))
    (hn : skipped n = false)
    (hevaluated : evaluatedNodes log = (List.range n).filter fun i => !skipped i)
    (hinside : ∀ r ∈ inside, MemberReading n r) :
    evaluatedNodes (log ++ ⟨(n, none), operands⟩ :: inside) =
      (List.range (n + 1)).filter fun i => !skipped i := by
  have hcons : evaluatedNodes (⟨(n, none), operands⟩ :: inside) = n :: evaluatedNodes inside := rfl
  rw [evaluatedNodes_append, hcons, evaluatedNodes_members hinside, hevaluated, filter_range_succ]
  simp [hn]

theorem ranTo_turn (hwf : WellFormedIr nodes) (hskips : Skips nodes given wanted skipped)
    {n : Nat} {nd : IrNode} (hnd : nodes[n]? = some nd)
    (hbefore : ∀ i < n, skipped i = false → (worth E chunked nodes given i).isSome = true)
    {slots : List (Option V)}
    (hholds : Retains (slotReads nodes skipped) wanted (worth E chunked nodes given) n slots)
    {log : List (Reading V)} (hlog : ∀ r ∈ log, ∀ x ∈ r.operands, x.isSome = true)
    (hevaluated : evaluatedNodes log = (List.range n).filter fun i => !skipped i) :
    RanTo E chunked nodes given wanted skipped (n + 1)
      ((⟨log, .ok slots⟩ : Traced (Reading V) ε (List (Option V))) >>= fun slots =>
        E.nodeTurn chunked skipped given (lastConsumers (slotReads nodes skipped) wanted) slots
          (nd, n)) := by
  rw [Traced.bind_of_ok rfl]
  unfold nodeTurn
  cases hn : skipped n with
  | true =>
      rw [if_pos rfl]
      refine ⟨by simpa using hlog, Or.inl ⟨?_, ?_, _, rfl, ?_⟩⟩
      · rw [filter_range_succ]
        simpa [hn] using hevaluated
      · intro i hi hskip
        rcases Nat.lt_succ_iff_lt_or_eq.mp hi with hlt | rfl
        · exact hbefore i hlt hskip
        · rw [hn] at hskip
          cases hskip
      · change Retains _ _ _ _ (drop (slots ++ [given.lookup n]) [])
        refine hholds.advance (fun hneeded => ?_) (by simp)
        obtain ⟨v, hv⟩ := Option.isSome_iff_exists.mp (given_of_needed hskips hn hneeded)
        unfold worth
        rw [plainValue_given hwf (List.getElem?_eq_some_iff.mp hnd).1 hv, hv]
        rfl
  | false =>
      obtain ⟨ins, hslots, hlength, hvalues⟩ := operands_of_holds hwf hskips hnd hn hbefore hholds
      obtain ⟨hinside, hresult⟩ := evaluateNode_plain E chunked hwf hnd hlength
      have hnone := hskips.evaluated n (List.getElem?_eq_some_iff.mp hnd).1 hn
      have hoperands : ∀ r ∈ log ++ ⟨(n, none), ins.map some⟩ ::
          (E.evaluateNode chunked n nd (ins.map some)).log,
          ∀ x ∈ r.operands, x.isSome = true := by
        intro r hr
        rcases List.mem_append.mp hr with hr | hr
        · exact hlog r hr
        · rcases List.mem_cons.mp hr with rfl | hr
          · simp
          · exact (hinside r hr).2
      have hnodes := evaluatedNodes_node (ins.map some) hn hevaluated hinside
      rw [if_neg Bool.false_ne_true, hslots]
      cases hplain : E.plainNode chunked n nd ins with
      | error e =>
          rw [hplain] at hresult
          have hworth : worth E chunked nodes given n = none := by
            unfold worth
            rw [plainValue_eq hwf hnd, hnone, hvalues, Option.elim_none,
              mapM_id_eq_ok.mpr rfl]
            change (E.plainNode chunked n nd ins).toOption = none
            rw [hplain]
            rfl
          rw [Traced.bind_of_ok rfl, Traced.bind_of_error hresult]
          exact ⟨hoperands, Or.inr ⟨n, Nat.lt_succ_self n, hn, hworth, hnodes, e, rfl⟩⟩
      | ok v =>
          rw [hplain] at hresult
          have hworth : worth E chunked nodes given n = some v := by
            unfold worth
            rw [(plainValue_eq_ok hwf hnd hnone).mpr ⟨ins, hvalues, hplain⟩]
            rfl
          rw [Traced.bind_of_ok rfl, Traced.bind_of_ok hresult]
          refine ⟨?_, Or.inl ⟨?_, ?_, _, rfl, ?_⟩⟩
          · simpa [Traced.tell] using hoperands
          · simpa [Traced.tell] using hnodes
          · intro i hi hskip
            rcases Nat.lt_succ_iff_lt_or_eq.mp hi with hlt | rfl
            · exact hbefore i hlt hskip
            · rw [hworth]
              rfl
          · exact hholds.advance (fun _ => hworth.symm)
              fun i hi => not_stillRead_of_mem_lastConsumers hi

/-- **A run** over the first nodes. -/
theorem ranTo_prefix (hwf : WellFormedIr nodes) (hskips : Skips nodes given wanted skipped)
    {done : List IrNode} (hdone : done <+: nodes) :
    RanTo E chunked nodes given wanted skipped done.length
      (done.zipIdx.foldlM (E.nodeTurn chunked skipped given
        (lastConsumers (slotReads nodes skipped) wanted)) []) := by
  induction done using List.reverseRecOn with
  | nil => exact ⟨by simp, Or.inl ⟨rfl, by simp, [], rfl, holds_start⟩⟩
  | append_singleton done nd ih =>
      have hnd : nodes[done.length]? = some nd := by
        obtain ⟨rest, rfl⟩ := hdone
        simp
      have hsofar := ih ((List.prefix_append done [nd]).trans hdone)
      rw [List.zipIdx_append, List.zipIdx_singleton, Nat.zero_add, Traced.foldlM_concat,
        List.length_append, List.length_singleton]
      revert hsofar
      generalize done.zipIdx.foldlM (E.nodeTurn chunked skipped given
        (lastConsumers (slotReads nodes skipped) wanted)) [] = run
      intro hsofar
      obtain ⟨log, result⟩ := run
      rcases hsofar.result with ⟨hevaluated, hbefore, slots, rfl, hholds⟩ |
        ⟨k, hk, hskip, hworth, hevaluated, e, rfl⟩
      · exact ranTo_turn hwf hskips hnd hbefore hholds hsofar.operands hevaluated
      · rw [Traced.bind_of_error rfl]
        exact ⟨hsofar.operands,
          Or.inr ⟨k, Nat.lt_succ_of_lt hk, hskip, hworth, hevaluated, e, rfl⟩⟩

end Run

end Evaluator

end Graphed
