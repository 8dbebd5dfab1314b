import Graphed.Execution.Evaluated
import Mathlib.Algebra.Order.BigOperators.Group.List
import Mathlib.Algebra.Order.Group.Nat

/-!
# Requests on a compiled graph

A request for some outputs, with the values of some nodes given, evaluates the cone of the outputs
cut at the given nodes and returns what the plain evaluation says. One side of a cut can be
evaluated first, and the rest on its values.
-/

namespace Graphed

open Liveness

/-- What the outputs depend on, not past the cut. -/
inductive Demanded (nodes : List IrNode) (cut outputs : List Nat) : Nat → Prop where
  | output {n : Nat} : n ∈ outputs → Demanded nodes cut outputs n
  | input {n m : Nat} {nd : IrNode} : Demanded nodes cut outputs m → m ∉ cut →
      nodes[m]? = some nd → n ∈ nd.inputs → Demanded nodes cut outputs n

section Cone

variable {nodes : List IrNode} {cut outputs : List Nat}

theorem Demanded.lt (hwf : WellFormedIr nodes) (houtputs : ∀ o ∈ outputs, o < nodes.length)
    {n : Nat} (h : Demanded nodes cut outputs n) : n < nodes.length := by
  cases h with
  | output ho => exact houtputs _ ho
  | input _ _ hnd hn =>
      exact Nat.lt_trans (hwf.topological _ _ hnd _ hn) (List.getElem?_eq_some_iff.mp hnd).1

theorem reached_iff_demanded {n : Nat} :
    Worklist.Reached (coneInputs nodes cut) outputs n ↔ Demanded nodes cut outputs n := by
  constructor
  · rintro ⟨r, hr, hreach⟩
    induction hreach with
    | refl => exact .output hr
    | @tail m n _ hstep ih =>
        unfold coneInputs at hstep
        split_ifs at hstep with hcut
        · cases hstep
        · rw [List.getD_eq_getElem?_getD] at hstep
          cases hnd : nodes[m]? with
          | none =>
              rw [hnd] at hstep
              cases hstep
          | some nd =>
              rw [hnd] at hstep
              exact .input ih hcut hnd hstep
  · intro h
    induction h with
    | @output n ho => exact ⟨n, ho, Relation.ReflTransGen.refl⟩
    | @input n m nd _ hcut hnd hn ih =>
        obtain ⟨r, hr, hreach⟩ := ih
        refine ⟨r, hr, hreach.tail ?_⟩
        unfold coneInputs
        rw [if_neg hcut, List.getD_eq_getElem?_getD, hnd]
        exact hn

/-- The walk from the outputs finds what they demand. -/
theorem mem_irCone (hwf : WellFormedIr nodes) (houtputs : ∀ o ∈ outputs, o < nodes.length)
    {n : Nat} : n ∈ irCone nodes outputs cut ↔ Demanded nodes cut outputs n := by
  have hnodes : nodes = (List.range nodes.length).map (nodes.getD · default) := by
    refine List.ext_getElem (by simp) fun i hi _ => ?_
    rw [List.getElem_map, List.getElem_range, List.getD_eq_getElem?_getD,
      List.getElem?_eq_getElem hi, Option.getD_some]
  have hsum : ((List.range nodes.length).map fun x => (coneInputs nodes cut x).length).sum ≤
      (nodes.map fun nd => nd.inputs.length).sum := by
    conv_rhs => rw [hnodes, List.map_map]
    refine List.sum_le_sum fun i _ => ?_
    unfold coneInputs
    split_ifs
    · exact Nat.zero_le _
    · exact Nat.le_refl _
  unfold irCone
  rw [← reached_iff_demanded]
  refine Worklist.mem_run List.nodup_range (fun x hx => ?_)
    (Nat.add_le_add_left hsum outputs.length)
  exact List.mem_range.mpr ((reached_iff_demanded.mp hx).lt hwf houtputs)

end Cone

namespace Evaluator

variable {V ε : Type} {E : Evaluator V ε} {chunked : Bool} {nodes : List IrNode}

theorem mapM_id_map {α β : Type} (f : α → Except ε β) (xs : List α) :
    (xs.map f).mapM id = xs.mapM f := by
  rw [List.mapM_map]
  rfl

theorem mapM_eq_ok {α β : Type} {f : α → Except ε β} {xs : List α} {ys : List β} :
    xs.mapM f = .ok ys ↔ xs.map f = ys.map .ok := by
  rw [← mapM_id_map, mapM_id_eq_ok]

theorem lookup_eq_none {given : List (Nat × V)} {n : Nat} :
    given.lookup n = none ↔ n ∉ given.map Prod.fst := by
  rw [List.lookup_eq_none_iff, List.mem_map]
  constructor
  · rintro h ⟨item, hitem, rfl⟩
    simpa using h item hitem
  · intro h item hitem
    simpa using fun heq : n = item.1 => h ⟨item, hitem, heq.symm⟩

/-! ### What outputs demand is worth something -/

theorem worth_of_demanded (hwf : WellFormedIr nodes) {given : List (Nat × V)}
    {outputs : List Nat} (hworth : ∀ o ∈ outputs, (worth E chunked nodes given o).isSome = true)
    {n : Nat} (hn : Demanded nodes (given.map Prod.fst) outputs n) :
    (worth E chunked nodes given n).isSome = true := by
  induction hn with
  | output ho => exact hworth _ ho
  | @input n m nd _ hcut hnd hn ih =>
      unfold worth at ih ⊢
      cases hm : E.plainValue chunked nodes given m with
      | error e =>
          rw [hm] at ih
          cases ih
      | ok v =>
          obtain ⟨ins, hins, -⟩ := (plainValue_eq_ok hwf hnd (lookup_eq_none.mpr hcut)).mp hm
          have hmem : E.plainValue chunked nodes given n ∈ ins.map .ok :=
            hins ▸ List.mem_map_of_mem hn
          obtain ⟨w, -, hw⟩ := List.mem_map.mp hmem
          rw [← hw]
          rfl

/-- Giving nodes what they are worth changes nothing. -/
theorem plainValue_agree (hwf : WellFormedIr nodes) {given given' : List (Nat × V)}
    (hworth : ∀ n < nodes.length, ∀ v, given'.lookup n = some v →
      E.plainValue chunked nodes given n = .ok v)
    (hnone : ∀ n, given'.lookup n = none → given.lookup n = none) {n : Nat}
    (hn : n < nodes.length) :
    E.plainValue chunked nodes given' n = E.plainValue chunked nodes given n := by
  induction n using Nat.strongRecOn with
  | ind n ih =>
      have hnd := List.getElem?_eq_getElem hn
      cases hlookup : given'.lookup n with
      | some v => rw [hworth n hn v hlookup, plainValue_given hwf hn hlookup]
      | none =>
          have hinputs : nodes[n].inputs.map (E.plainValue chunked nodes given') =
              nodes[n].inputs.map (E.plainValue chunked nodes given) := by
            refine List.map_congr_left fun i hi => ?_
            have hlt := hwf.topological n _ hnd i hi
            exact ih i hlt (Nat.lt_trans hlt hn)
          rw [plainValue_eq hwf hnd, plainValue_eq hwf hnd, hlookup, hnone n hlookup, hinputs]

theorem lookup_zip {f : Nat → Except ε V} {cut : List Nat} {vs : List V}
    (h : cut.map f = vs.map .ok) {n : Nat} {v : V} (hv : (cut.zip vs).lookup n = some v) :
    f n = .ok v := by
  induction cut generalizing vs with
  | nil => cases hv
  | cons c cut ih =>
      cases vs with
      | nil => cases h
      | cons w vs =>
          rw [List.map_cons, List.map_cons, List.cons.injEq] at h
          rw [List.zip_cons_cons, List.lookup_cons] at hv
          by_cases hnc : n = c
          · subst hnc
            rw [beq_self_eq_true] at hv
            obtain rfl := Option.some.inj hv
            exact h.1
          · have hne : (n == c) = false := by simpa using hnc
            rw [hne] at hv
            exact ih h.2 hv

/-! ### Requests -/

/-- An explicit request, or a graph that holds only what its marked outputs demand. -/
def Restricted (nodes : List IrNode) (marked : List Nat) (outputs : Option (List Nat))
    (given : Option (List (Nat × V))) : Prop :=
  outputs.isSome = true ∨ given.isSome = true ∨ ∀ n < nodes.length, Demanded nodes [] marked n

/-- A request runs over the nodes its outputs demand and that are not given. -/
theorem exists_ranTo (E : Evaluator V ε) (chunked : Bool) {nodes : List IrNode}
    (hwf : WellFormedIr nodes) {marked : List Nat} {outputs : Option (List Nat)}
    {given : Option (List (Nat × V))} (hwanted : ∀ o ∈ outputs.getD marked, o < nodes.length)
    (hrequest : Restricted nodes marked outputs given) :
    ∃ (skipped : Nat → Bool) (run : Traced (Reading V) ε (List (Option V))),
      E.evaluateIr nodes marked outputs given chunked =
        run >>= (fun vals => pure ((outputs.getD marked).map (vals.getD · none))) ∧
      RanTo E chunked nodes (given.getD []) (outputs.getD marked) skipped nodes.length run ∧
      ∀ n < nodes.length, skipped n = false ↔ Demanded nodes ((given.getD []).map Prod.fst)
        (outputs.getD marked) n ∧ n ∉ (given.getD []).map Prod.fst := by
  have hiff : ∀ n < nodes.length, ((outputs.isSome || given.isSome) &&
      (decide (n ∉ irCone nodes (outputs.getD marked) ((given.getD []).map Prod.fst)) ||
        ((given.getD []).map Prod.fst).contains n)) = false ↔
      Demanded nodes ((given.getD []).map Prod.fst) (outputs.getD marked) n ∧
        n ∉ (given.getD []).map Prod.fst := by
    intro n hn
    by_cases hexplicit : (outputs.isSome || given.isSome) = true
    · rw [hexplicit, Bool.true_and, Bool.or_eq_false_iff, decide_eq_false_iff_not, not_not,
        mem_irCone hwf hwanted, ← Bool.not_eq_true, List.contains_iff_mem]
    · have hneither : outputs = none ∧ given = none := by
        simpa using hexplicit
      obtain ⟨rfl, rfl⟩ := hneither
      have hall := hrequest.resolve_left (by simp) |>.resolve_left (by simp)
      exact iff_of_true rfl ⟨hall n hn, List.not_mem_nil⟩
  refine ⟨_, _, rfl, ranTo_prefix hwf ?_ List.prefix_rfl, hiff⟩
  have hgiven : ∀ n < nodes.length,
      Demanded nodes ((given.getD []).map Prod.fst) (outputs.getD marked) n →
      ((outputs.isSome || given.isSome) &&
        (decide (n ∉ irCone nodes (outputs.getD marked) ((given.getD []).map Prod.fst)) ||
          ((given.getD []).map Prod.fst).contains n)) = true →
      ((given.getD []).lookup n).isSome = true := by
    intro n hn hdemanded hskip
    by_contra hnone
    rw [Option.not_isSome_iff_eq_none, lookup_eq_none] at hnone
    rw [(hiff n hn).mpr ⟨hdemanded, hnone⟩] at hskip
    cases hskip
  constructor
  · intro n hn hskip
    exact lookup_eq_none.mpr ((hiff n hn).mp hskip).2
  · intro n nd hnd hskip i hi hskipped
    obtain ⟨hdemanded, hcut⟩ := (hiff n (List.getElem?_eq_some_iff.mp hnd).1).mp hskip
    have hinput := Demanded.input hdemanded hcut hnd hi
    exact hgiven i (hinput.lt hwf hwanted) hinput hskipped
  · intro o ho hskipped
    exact hgiven o (hwanted o ho) (.output ho) hskipped

theorem exists_values {xs : List Nat} {given : List (Nat × V)}
    (h : ∀ x ∈ xs, (worth E chunked nodes given x).isSome = true) :
    ∃ vs : List V, xs.map (E.plainValue chunked nodes given) = vs.map .ok ∧
      xs.map (worth E chunked nodes given) = vs.map some := by
  induction xs with
  | nil => exact ⟨[], rfl, rfl⟩
  | cons x xs ih =>
      obtain ⟨vs, hvalues, hworth⟩ := ih fun y hy => h y (List.mem_cons_of_mem x hy)
      have hx := h x List.mem_cons_self
      unfold worth at hx hworth ⊢
      cases hv : E.plainValue chunked nodes given x with
      | error e =>
          rw [hv] at hx
          cases hx
      | ok v =>
          exact ⟨v :: vs, by rw [List.map_cons, hv, hvalues]; rfl,
            by rw [List.map_cons, hv, hworth]; rfl⟩

theorem worth_of_mapM {xs : List Nat} {given : List (Nat × V)} {vs : List V}
    (h : xs.mapM (E.plainValue chunked nodes given) = .ok vs) :
    ∀ x ∈ xs, (worth E chunked nodes given x).isSome = true := by
  intro x hx
  have hmem : E.plainValue chunked nodes given x ∈ vs.map .ok :=
    mapM_eq_ok.mp h ▸ List.mem_map_of_mem hx
  obtain ⟨v, -, hv⟩ := List.mem_map.mp hmem
  unfold worth
  rw [← hv]
  rfl

/-- The slots of the outputs are what the plain evaluation returns for them. -/
theorem evaluateIr_result (E : Evaluator V ε) (chunked : Bool) {nodes : List IrNode}
    (hwf : WellFormedIr nodes) {marked : List Nat}
    {outputs : Option (List Nat)} {given : Option (List (Nat × V))}
    (hwanted : ∀ o ∈ outputs.getD marked, o < nodes.length)
    (hrequest : Restricted nodes marked outputs given) {slots : List (Option V)} :
    (E.evaluateIr nodes marked outputs given chunked).result = .ok slots ↔
      ∃ vs, (outputs.getD marked).mapM (E.plainValue chunked nodes (given.getD [])) = .ok vs ∧
        slots = vs.map some := by
  obtain ⟨skipped, run, hrun, hran, hskipped⟩ :=
    exists_ranTo E chunked hwf hwanted hrequest
  rw [hrun]
  rcases hran.result with ⟨-, hworth, vals, hok, hholds⟩ | ⟨k, hk, hskip, hnone, -, e, herror⟩
  · have houtputs : ∀ o ∈ outputs.getD marked,
        (worth E chunked nodes (given.getD []) o).isSome = true := by
      intro o ho
      by_cases hcut : o ∈ (given.getD []).map Prod.fst
      · obtain ⟨v, hv⟩ := Option.ne_none_iff_exists'.mp fun hnone => lookup_eq_none.mp hnone hcut
        unfold worth
        rw [plainValue_given hwf (hwanted o ho) hv]
        rfl
      · exact hworth o (hwanted o ho) ((hskipped o (hwanted o ho)).mpr ⟨.output ho, hcut⟩)
    have hslots : (outputs.getD marked).map (vals.getD · none) =
        (outputs.getD marked).map (worth E chunked nodes (given.getD [])) :=
      List.map_congr_left fun o ho => hholds.slots o (hwanted o ho) (Or.inl ho)
    obtain ⟨vs, hvalues, hsome⟩ := exists_values houtputs
    rw [Traced.bind_of_ok hok, mapM_eq_ok.mpr hvalues]
    change Except.ok ((outputs.getD marked).map (vals.getD · none)) = Except.ok slots ↔ _
    rw [hslots, hsome]
    constructor
    · intro h
      exact ⟨vs, rfl, (Except.ok.inj h).symm⟩
    · rintro ⟨vs', hvs, rfl⟩
      rw [Except.ok.inj hvs]
  · rw [Traced.bind_of_error herror]
    refine iff_of_false nofun ?_
    rintro ⟨vs, hvs, -⟩
    have hdemanded := ((hskipped k hk).mp hskip).1
    rw [← Option.isSome_iff_ne_none.not_left] at hnone
    exact hnone (worth_of_demanded hwf (worth_of_mapM hvs) hdemanded)

/-- The nodes a request evaluates: in id order, each once, all of them demanded and not given, and
every such node when it returns. -/
theorem evaluatedNodes_evaluateIr (E : Evaluator V ε) (chunked : Bool) {nodes : List IrNode}
    (hwf : WellFormedIr nodes) {marked : List Nat}
    {outputs : Option (List Nat)} {given : Option (List (Nat × V))}
    (hwanted : ∀ o ∈ outputs.getD marked, o < nodes.length)
    (hrequest : Restricted nodes marked outputs given) :
    (∀ r ∈ (E.evaluateIr nodes marked outputs given chunked).log,
      ∀ x ∈ r.operands, x.isSome = true) ∧
    (evaluatedNodes (E.evaluateIr nodes marked outputs given chunked).log).Pairwise (· < ·) ∧
    ∀ n, (n ∈ evaluatedNodes (E.evaluateIr nodes marked outputs given chunked).log →
      Demanded nodes ((given.getD []).map Prod.fst) (outputs.getD marked) n ∧
        n ∉ (given.getD []).map Prod.fst) ∧
      (∀ slots, (E.evaluateIr nodes marked outputs given chunked).result = .ok slots →
        Demanded nodes ((given.getD []).map Prod.fst) (outputs.getD marked) n →
        n ∉ (given.getD []).map Prod.fst →
        n ∈ evaluatedNodes (E.evaluateIr nodes marked outputs given chunked).log) := by
  obtain ⟨skipped, run, hrun, hran, hskipped⟩ :=
    exists_ranTo E chunked hwf hwanted hrequest
  have hlog : (E.evaluateIr nodes marked outputs given chunked).log = run.log := by
    rw [hrun, Traced.bind_pure_log]
  rw [hlog]
  refine ⟨hran.operands, ?_⟩
  have hpairwise : ∀ m, ((List.range m).filter fun i => !skipped i).Pairwise (· < ·) :=
    fun m => List.pairwise_lt_range.filter _
  have hmem : ∀ m ≤ nodes.length, ∀ n, n ∈ (List.range m).filter (fun i => !skipped i) ↔
      n < m ∧ Demanded nodes ((given.getD []).map Prod.fst) (outputs.getD marked) n ∧
        n ∉ (given.getD []).map Prod.fst := by
    intro m hm n
    rw [List.mem_filter, List.mem_range, Bool.not_eq_true']
    exact and_congr_right fun hn => hskipped n (Nat.lt_of_lt_of_le hn hm)
  rcases hran.result with ⟨hevaluated, -, -⟩ | ⟨k, hk, -, -, hevaluated, e, herror⟩
  · rw [hevaluated]
    refine ⟨hpairwise _, fun n => ⟨fun hn => ((hmem _ (Nat.le_refl _) n).mp hn).2, ?_⟩⟩
    intro slots _ hdemanded hcut
    exact (hmem _ (Nat.le_refl _) n).mpr ⟨hdemanded.lt hwf hwanted, hdemanded, hcut⟩
  · rw [hevaluated]
    refine ⟨hpairwise _, fun n => ⟨fun hn => ((hmem _ hk n).mp hn).2, ?_⟩⟩
    intro slots hok
    rw [hrun, Traced.bind_of_error herror] at hok
    cases hok

/-- The values of a cut, given back, leave every node worth what it was. -/
theorem plainValue_cut (hwf : WellFormedIr nodes) {given : List (Nat × V)} {cut : List Nat}
    {vs : List V} (hvs : cut.mapM (E.plainValue chunked nodes given) = .ok vs) {n : Nat}
    (hn : n < nodes.length) :
    E.plainValue chunked nodes (dictUpdate given (cut.zip vs)) n =
      E.plainValue chunked nodes given n := by
  refine plainValue_agree hwf (fun m hm v hv => ?_) (fun m hm => ?_) hn
  · rw [lookup_dictUpdate] at hv
    cases hzip : (cut.zip vs).lookup m with
    | some w =>
        rw [hzip] at hv
        obtain rfl := Option.some.inj hv
        exact lookup_zip (mapM_eq_ok.mp hvs) hzip
    | none =>
        rw [hzip] at hv
        exact plainValue_given hwf hm hv
  · rw [lookup_dictUpdate, Option.or_eq_none_iff] at hm
    exact hm.2

theorem mapM_plainValue_cut (hwf : WellFormedIr nodes) {given : List (Nat × V)} {cut : List Nat}
    {vs : List V} (hvs : cut.mapM (E.plainValue chunked nodes given) = .ok vs) {wanted : List Nat}
    (hwanted : ∀ o ∈ wanted, o < nodes.length) :
    wanted.mapM (E.plainValue chunked nodes (dictUpdate given (cut.zip vs))) =
      wanted.mapM (E.plainValue chunked nodes given) := by
  have hmap : wanted.map (E.plainValue chunked nodes (dictUpdate given (cut.zip vs))) =
      wanted.map (E.plainValue chunked nodes given) :=
    List.map_congr_left fun o ho => plainValue_cut hwf hvs (hwanted o ho)
  rw [← mapM_id_map, hmap, mapM_id_map]

/-- **A request** on a compiled graph never reads a slot that was emptied or not filled yet; it
evaluates what its outputs demand and is not given, each node once; it returns what the plain
evaluation returns. On the values of a cut evaluated first it returns the same. -/
theorem evaluateIr_plain (E : Evaluator V ε) (chunked : Bool) {nodes : List IrNode}
    (hwf : WellFormedIr nodes) {marked : List Nat} {outputs : Option (List Nat)}
    {given : Option (List (Nat × V))} (hwanted : ∀ o ∈ outputs.getD marked, o < nodes.length)
    (hrequest : Restricted nodes marked outputs given) :
    (∀ r ∈ (E.evaluateIr nodes marked outputs given chunked).log,
      ∀ x ∈ r.operands, x.isSome = true) ∧
    ((evaluatedNodes (E.evaluateIr nodes marked outputs given chunked).log).Pairwise (· < ·) ∧
      ∀ n, (n ∈ evaluatedNodes (E.evaluateIr nodes marked outputs given chunked).log →
        Demanded nodes ((given.getD []).map Prod.fst) (outputs.getD marked) n ∧
          n ∉ (given.getD []).map Prod.fst) ∧
        (∀ slots, (E.evaluateIr nodes marked outputs given chunked).result = .ok slots →
          Demanded nodes ((given.getD []).map Prod.fst) (outputs.getD marked) n →
          n ∉ (given.getD []).map Prod.fst →
          n ∈ evaluatedNodes (E.evaluateIr nodes marked outputs given chunked).log)) ∧
    (∀ slots, (E.evaluateIr nodes marked outputs given chunked).result = .ok slots ↔
      ∃ vs, (outputs.getD marked).mapM (E.plainValue chunked nodes (given.getD [])) = .ok vs ∧
        slots = vs.map some) ∧
    ∀ cut : List Nat, (∀ n ∈ cut, n < nodes.length) →
      (∀ vs : List V, (E.evaluateIr nodes marked (some cut) given chunked).result =
          .ok (vs.map some) →
        ∀ slots, (E.evaluateIr nodes marked outputs
            (some (dictUpdate (given.getD []) (cut.zip vs))) chunked).result = .ok slots ↔
          (E.evaluateIr nodes marked outputs given chunked).result = .ok slots) ∧
      ((∀ n ∈ cut, Demanded nodes ((given.getD []).map Prod.fst) (outputs.getD marked) n) →
        ∀ slots, (E.evaluateIr nodes marked outputs given chunked).result = .ok slots →
          ∃ vs : List V, (E.evaluateIr nodes marked (some cut) given chunked).result =
            .ok (vs.map some)) := by
  obtain ⟨hoperands, hevaluated⟩ :=
    evaluatedNodes_evaluateIr E chunked hwf hwanted hrequest
  have hresult : ∀ slots,
      (E.evaluateIr nodes marked outputs given chunked).result = .ok slots ↔ _ :=
    fun _ => evaluateIr_result E chunked hwf hwanted hrequest
  refine ⟨hoperands, hevaluated, hresult, fun cut hcut => ⟨?_, ?_⟩⟩
  all_goals have hcut' : ∀ o ∈ (some cut).getD marked, o < nodes.length := hcut
  · intro vs hvs slots
    obtain ⟨vs', hcutvs, hsome⟩ := (evaluateIr_result E chunked hwf hcut' (Or.inl rfl)).mp hvs
    obtain rfl : vs = vs' := List.map_injective_iff.mpr (Option.some_injective V) hsome
    change cut.mapM _ = _ at hcutvs
    rw [hresult, evaluateIr_result E chunked hwf hwanted (Or.inr (Or.inl rfl)), Option.getD_some,
      mapM_plainValue_cut hwf hcutvs hwanted]
  · intro hdemanded slots hok
    obtain ⟨vs, hvs, -⟩ := (hresult slots).mp hok
    obtain ⟨ws, hws, -⟩ := exists_values fun n hn =>
      worth_of_demanded hwf (worth_of_mapM hvs) (hdemanded n hn)
    refine ⟨ws, ?_⟩
    rw [evaluateIr_result E chunked hwf hcut' (Or.inl rfl)]
    exact ⟨ws, mapM_eq_ok.mpr hws, rfl⟩

/-- A graph with a value that is used again after a stage. -/
def reusedNodes : List IrNode :=
  [.source "events" (.new []), .op "neg" (.new []) [0],
    .stage [1, 0] [⟨"add", .new [], [.input 0, .input 1]⟩, ⟨"neg", .new [], [.member 0]⟩,
      ⟨"add", .new [], [.member 1, .input 1]⟩],
    .op "add" (.new []) [2, 1]]

/-- Arithmetic on one number. -/
def arithmetic : Evaluator Int String where
  sources := [("events", .ok 4)]
  evalStage op ins _ :=
    match op, ins with
    | "neg", [some a] => .ok (-a)
    | "add", [some a, some b] => .ok (a + b)
    | _, _ => .error op
  unalignedOps := []
  rows _ := none
  externals := []
  dumps _ := ""
  repr _ := ""
  onFailure := none
  unboundSource name := name
  unboundExternal hash := hash
  misaligned op _ := op
  unknownKind kind := kind

theorem wellFormedIr_reusedNodes : WellFormedIr reusedNodes where
  topological := by
    have hall : ∀ i : Fin reusedNodes.length, ∀ j ∈ reusedNodes[i].inputs, j < i := by decide
    intro i nd hnd
    obtain ⟨hi, rfl⟩ := List.getElem?_eq_some_iff.mp hnd
    exact hall ⟨i, hi⟩
  nonempty := by
    intro ins members hmem
    simp only [reusedNodes, List.mem_cons, IrNode.stage.injEq, reduceCtorEq, List.not_mem_nil,
      false_or, or_false] at hmem
    rw [hmem.2]
    exact List.cons_ne_nil _ _
  within := by
    intro ins members hmem i m hm
    simp only [reusedNodes, List.mem_cons, IrNode.stage.injEq, reduceCtorEq, List.not_mem_nil,
      false_or, or_false] at hmem
    obtain ⟨rfl, rfl⟩ := hmem
    obtain ⟨hi, rfl⟩ := List.getElem?_eq_some_iff.mp hm
    clear hm
    revert hi i
    decide

/-- The given source is not loaded, and the operation is evaluated once for both outputs. -/
theorem evaluateIr_plain_reused :
    (evaluatedNodes (arithmetic.evaluateIr reusedNodes [] (some [3, 1, 3]) (some [(0, 7)])
      false).log).Pairwise (· < ·) ∧
    (arithmetic.evaluateIr reusedNodes [] (some [3, 1, 3]) (some [(0, 7)]) false).result =
      .ok [some 0, some (-7), some 0] :=
  ⟨(evaluateIr_plain arithmetic false wellFormedIr_reusedNodes (by decide) (Or.inl rfl)).2.1.1, rfl⟩

end Evaluator

end Graphed
