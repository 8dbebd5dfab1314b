import Graphed.Optimizer.Passes

/-!
# Dead code elimination is the post-order

The pass walks an explicit stack and copies nodes as it leaves them. Its state is the emitted list of
the library's loop, folded into the remap and the kept nodes, so what it computes is the post-order of
the arena from the outputs.
-/

namespace Graphed

open FirstSeen PostOrder GraphStore

variable {nodes : List NodeKey} {swap : Option (List Bool)}

/-- The pass visits this node's operands swapped. -/
def Swapped (swap : Option (List Bool)) (i : Nat) : Prop :=
  (swap.map (·.getD i false)).getD false = true

/-- Only nodes with two inputs are swapped. -/
def SwapsPairs (nodes : List NodeKey) (swap : Option (List Bool)) : Prop :=
  ∀ i, Swapped swap i → ∃ a b, inputsAt nodes i = [a, b]

theorem inputsAt_of_getElem? {i : Nat} {key : NodeKey} (h : nodes[i]? = some key) :
    inputsAt nodes i = key.inputs := by
  rw [inputsAt, List.getD_eq_getElem?_getD, h, Option.getD_some]

theorem inputsAt_of_length_le {i : Nat} (h : nodes.length ≤ i) : inputsAt nodes i = [] := by
  rw [inputsAt, List.getD_eq_getElem?_getD, List.getElem?_eq_none h]
  rfl

theorem operands_of_not_swapped {i : Nat} (h : ¬ Swapped swap i) :
    operands nodes swap i = inputsAt nodes i := by
  have hinput : dceInput nodes swap i = fun k => (inputsAt nodes i)[k]? := by
    funext k
    simp only [dceInput]
    rw [if_neg fun hk => h hk.2]
  rw [operands, hinput]
  generalize inputsAt nodes i = ins
  induction ins using List.reverseRecOn with
  | nil => rfl
  | append_singleton ins x ih =>
      rw [List.length_append, List.length_singleton, List.range_succ, List.filterMap_append]
      have hpre : (List.range ins.length).filterMap (fun k => (ins ++ [x])[k]?) =
          (List.range ins.length).filterMap fun k => ins[k]? := by
        refine List.filterMap_congr fun k hk => ?_
        rw [List.getElem?_append_left (List.mem_range.mp hk)]
      rw [hpre, ih]
      simp

theorem operands_of_swapped {i a b : Nat} (h : Swapped swap i) (hins : inputsAt nodes i = [a, b]) :
    operands nodes swap i = [b, a] := by
  have hfirst : dceInput nodes swap i 0 = some b := by
    simp only [dceInput, hins]
    rw [if_pos ⟨by simp, h⟩]
    rfl
  have hsecond : dceInput nodes swap i 1 = some a := by
    simp only [dceInput, hins]
    rw [if_pos ⟨by simp, h⟩]
    rfl
  have hrange : List.range 2 = [0, 1] := by decide
  rw [operands, hins, List.length_cons, List.length_singleton, hrange]
  simp [hfirst, hsecond]

/-- The loop's next input is the next operand. -/
theorem dceInput_eq (hpairs : SwapsPairs nodes swap) (i k : Nat) :
    dceInput nodes swap i k = (operands nodes swap i)[k]? := by
  by_cases h : Swapped swap i
  · obtain ⟨a, b, hins⟩ := hpairs i h
    rw [operands_of_swapped h hins]
    simp only [dceInput, hins]
    rcases k with _ | _ | k
    · rw [if_pos ⟨by simp, h⟩]
      rfl
    · rw [if_pos ⟨by simp, h⟩]
      rfl
    · rw [if_neg (by simp)]
      simp
  · rw [operands_of_not_swapped h]
    simp only [dceInput]
    rw [if_neg fun hk => h hk.2]

theorem length_operands (hpairs : SwapsPairs nodes swap) (i : Nat) :
    (operands nodes swap i).length = (inputsAt nodes i).length := by
  by_cases h : Swapped swap i
  · obtain ⟨a, b, hins⟩ := hpairs i h
    rw [operands_of_swapped h hins, hins]
    rfl
  · rw [operands_of_not_swapped h]

theorem mem_operands (hpairs : SwapsPairs nodes swap) {i x : Nat} :
    x ∈ operands nodes swap i ↔ x ∈ inputsAt nodes i := by
  by_cases h : Swapped swap i
  · obtain ⟨a, b, hins⟩ := hpairs i h
    rw [operands_of_swapped h hins, hins]
    simp [or_comm]
  · rw [operands_of_not_swapped h]

theorem lt_of_mem_operands (htopo : TopologicalKeys nodes) {i x : Nat}
    (hx : x ∈ operands nodes swap i) : x < i ∧ i < nodes.length := by
  rw [operands, List.mem_filterMap] at hx
  obtain ⟨k, -, hk⟩ := hx
  have hmem : x ∈ inputsAt nodes i := List.mem_of_getElem? hk
  rcases Nat.lt_or_ge i nodes.length with hi | hi
  · rw [inputsAt_of_getElem? (List.getElem?_eq_getElem hi)] at hmem
    exact ⟨htopo i _ (List.getElem?_eq_getElem hi) x hmem, hi⟩
  · rw [inputsAt_of_length_le hi] at hmem
    exact absurd hmem List.not_mem_nil

/-- The arena as a graph, operands in visiting order. -/
def arenaDag (htopo : TopologicalKeys nodes) (swap : Option (List Bool)) : Dag Nat where
  children := operands nodes swap
  rank i := i
  rank_lt h := (lt_of_mem_operands htopo h).1

/-! ### The loop -/

namespace Dce

/-- The state before anything is kept. -/
def start (nodes : List NodeKey) : Dce := ⟨List.replicate nodes.length none, [], []⟩

/-- The state after a list of nodes was kept in order. -/
def keeping (nodes : List NodeKey) (swap : Option (List Bool)) (emitted : List Nat) : Dce :=
  emitted.foldl (emit nodes swap) (start nodes)

/-- The pass's state for a state of the loop. -/
def ofLoop (nodes : List NodeKey) (swap : Option (List Bool)) (w : Loop Nat) : Dce :=
  { keeping nodes swap w.emitted with stack := w.stack }

theorem keeping_concat (emitted : List Nat) (i : Nat) :
    keeping nodes swap (emitted ++ [i]) = emit nodes swap (keeping nodes swap emitted) i := by
  simp [keeping, List.foldl_append]

@[simp]
theorem stack_keeping (emitted : List Nat) : (keeping nodes swap emitted).stack = [] := by
  induction emitted using List.reverseRecOn with
  | nil => rfl
  | append_singleton emitted i ih => rw [keeping_concat, emit, ih]

@[simp]
theorem length_kept (emitted : List Nat) :
    (keeping nodes swap emitted).kept.length = emitted.length := by
  induction emitted using List.reverseRecOn with
  | nil => rfl
  | append_singleton emitted i ih => simp [keeping_concat, emit, ih]

@[simp]
theorem length_remap (emitted : List Nat) :
    (keeping nodes swap emitted).remap.length = nodes.length := by
  induction emitted using List.reverseRecOn with
  | nil => simp [keeping, start]
  | append_singleton emitted i ih => simp [keeping_concat, emit, ih]

/-- The remap names exactly the kept nodes' places. -/
theorem remap_keeping {emitted : List Nat} (hnodup : emitted.Nodup) {x : Nat}
    (hx : x < nodes.length) : (keeping nodes swap emitted).remap.getD x none =
      if x ∈ emitted then some (emitted.idxOf x) else none := by
  induction emitted using List.reverseRecOn with
  | nil => simp [keeping, start, hx]
  | append_singleton emitted i ih =>
      have hsplit := List.nodup_append.mp hnodup
      have hi : i ∉ emitted := fun h => hsplit.2.2 i h i (by simp) rfl
      have hset : (keeping nodes swap (emitted ++ [i])).remap.getD x none =
          if x = i then some emitted.length else
            (keeping nodes swap emitted).remap.getD x none := by
        rw [keeping_concat, emit]
        simp only [length_kept, List.getD_eq_getElem?_getD, List.getElem?_set, length_remap]
        by_cases hxi : x = i
        · subst hxi
          simp [hx]
        · rw [if_neg (Ne.symm hxi), if_neg hxi]
      rw [hset, ih hsplit.1]
      by_cases hxi : x = i
      · subst hxi
        simp [hi, List.idxOf_append_of_notMem]
      · by_cases hmem : x ∈ emitted
        · simp [hxi, hmem, List.idxOf_append_of_mem]
        · simp [hxi, hmem]

theorem remap_keeping_eq_none (emitted : List Nat) {x : Nat} (hx : x < nodes.length) :
    (keeping nodes swap emitted).remap.getD x none = none ↔ x ∉ emitted := by
  induction emitted using List.reverseRecOn with
  | nil => simp [keeping, start, hx]
  | append_singleton emitted i ih =>
      rw [keeping_concat, emit]
      simp only [length_kept, List.getD_eq_getElem?_getD, List.getElem?_set, length_remap] at ih ⊢
      by_cases hxi : x = i
      · subst hxi
        simp [hx]
      · rw [if_neg (Ne.symm hxi), ih]
        simp [hxi]

theorem ofLoop_nil (emitted : List Nat) :
    ofLoop nodes swap ⟨emitted, []⟩ = keeping nodes swap emitted := by
  have hstack : (keeping nodes swap emitted).stack = [] := stack_keeping emitted
  unfold ofLoop
  generalize keeping nodes swap emitted = s at hstack ⊢
  cases s
  rw [← hstack]

/-- One turn of the pass is one turn of the loop. -/
theorem step_ofLoop (htopo : TopologicalKeys nodes) (w : Loop Nat) :
    step nodes swap (ofLoop nodes swap w) =
      ofLoop nodes swap (Loop.step (dceInput nodes swap) w) := by
  obtain ⟨emitted, stack⟩ := w
  rcases stack with _ | ⟨⟨i, next⟩, rest⟩
  · rfl
  · simp only [step, ofLoop, Loop.step]
    cases hinput : dceInput nodes swap i next with
    | some inp =>
        have hmem : inp ∈ inputsAt nodes i := List.mem_of_getElem? hinput
        have hlt : inp < nodes.length := by
          rcases Nat.lt_or_ge i nodes.length with hi | hi
          · rw [inputsAt_of_getElem? (List.getElem?_eq_getElem hi)] at hmem
            exact (htopo i _ (List.getElem?_eq_getElem hi) inp hmem).trans hi
          · rw [inputsAt_of_length_le hi] at hmem
            exact absurd hmem List.not_mem_nil
        by_cases hkept : inp ∈ emitted
        · have hsome : (keeping nodes swap emitted).remap.getD inp none ≠ none :=
            mt (remap_keeping_eq_none emitted hlt).mp (not_not.mpr hkept)
          simp only [if_pos hkept]
          exact if_neg hsome
        · have hnone : (keeping nodes swap emitted).remap.getD inp none = none :=
            (remap_keeping_eq_none emitted hlt).mpr hkept
          simp only [if_neg hkept]
          exact if_pos hnone
    | none => simp [keeping_concat, emit]

theorem iterate_step_ofLoop (htopo : TopologicalKeys nodes) (n : Nat) (w : Loop Nat) :
    (step nodes swap)^[n] (ofLoop nodes swap w) =
      ofLoop nodes swap ((Loop.step (dceInput nodes swap))^[n] w) := by
  induction n generalizing w with
  | zero => rfl
  | succ n ih => rw [Function.iterate_succ_apply, Function.iterate_succ_apply, step_ofLoop htopo, ih]

/-- The turns of distinct nodes fit in the fuel. -/
theorem turns_le_fuel (htopo : TopologicalKeys nodes) (hpairs : SwapsPairs nodes swap)
    {emitted : List Nat} (hnodup : emitted.Nodup) (hlt : ∀ x ∈ emitted, x < nodes.length) :
    Loop.turns (arenaDag htopo swap) emitted ≤ fuel nodes := by
  simp only [Loop.turns, arenaDag, length_operands hpairs]
  exact sum_positions_le (fun key : NodeKey => key.inputs.length + 1) nodes default hnodup hlt

theorem iterate_nil (n : Nat) {s : Dce} (hs : s.stack = []) : (step nodes swap)^[n] s = s := by
  induction n with
  | zero => rfl
  | succ n ih =>
      have hstep : step nodes swap s = s := by simp only [step, hs]
      rw [Function.iterate_succ_apply, hstep, ih]

/-- Visiting an output is a visit of the post-order. -/
theorem visitOutput_keeping (htopo : TopologicalKeys nodes) (hpairs : SwapsPairs nodes swap)
    {emitted : List Nat} (hnodup : emitted.Nodup) (hlt : ∀ x ∈ emitted, x < nodes.length) {o : Nat}
    (ho : o < nodes.length) : visitOutput nodes swap (keeping nodes swap emitted) o =
      keeping nodes swap ((arenaDag htopo swap).visit emitted o) := by
  unfold visitOutput
  by_cases hmem : o ∈ emitted
  · rw [if_neg (mt (remap_keeping_eq_none emitted ho).mp (not_not.mpr hmem)),
      iterate_nil _ (stack_keeping emitted), visit_of_mem _ hmem]
  · rw [if_pos ((remap_keeping_eq_none emitted ho).mpr hmem), stack_keeping]
    have hvisit : ∀ x ∈ (arenaDag htopo swap).visit emitted o, x < nodes.length := by
      intro x hx
      rcases reaches_of_mem_visit _ hx with hx | hx
      · exact hlt x hx
      · exact (rank_le_of_reaches _ hx).trans_lt ho
    have hloop := Loop.iterate_eq_visit (G := arenaDag htopo swap) (dceInput_eq hpairs) hmem
      (turns_le_fuel htopo hpairs (nodup_visit _ hnodup o) hvisit)
    change (step nodes swap)^[fuel nodes] (ofLoop nodes swap ⟨emitted, [(o, 0)]⟩) = _
    rw [iterate_step_ofLoop htopo, hloop, ofLoop_nil]

end Dce

/-! ### What the pass computes -/

/-- The kept copy of an arena node: its operands are places in the kept order. -/
def keptKey (nodes : List NodeKey) (swap : Option (List Bool)) (kept : List Nat) (i : Nat) :
    NodeKey :=
  (nodes.getD i default).withInputs ((operands nodes swap i).map kept.idxOf)

/-- What is reached from the outputs, in the order it is kept. -/
def reached (htopo : TopologicalKeys nodes) (swap : Option (List Bool)) (outputs : List Nat) :
    List Nat := (arenaDag htopo swap).postorder outputs

section Reached

variable (htopo : TopologicalKeys nodes) {outputs : List Nat}

theorem nodup_reached : (reached htopo swap outputs).Nodup := nodup_postorder _ outputs

theorem lt_of_mem_reached (houtputs : ∀ o ∈ outputs, o < nodes.length) {x : Nat}
    (hx : x ∈ reached htopo swap outputs) : x < nodes.length := by
  obtain ⟨o, ho, hreach⟩ := (mem_postorder _).mp hx
  exact (rank_le_of_reaches _ hreach).trans_lt (houtputs o ho)

theorem mem_reached_of_mem {o : Nat} (ho : o ∈ outputs) : o ∈ reached htopo swap outputs :=
  mem_walk_of_mem _ ho

theorem mem_reached_of_operand {i x : Nat} (hi : i ∈ reached htopo swap outputs)
    (hx : x ∈ operands nodes swap i) : x ∈ reached htopo swap outputs :=
  closed_postorder (arenaDag htopo swap) outputs i hi x hx

theorem idxOf_operand_lt {i x : Nat} (hi : i ∈ reached htopo swap outputs)
    (hx : x ∈ operands nodes swap i) :
    (reached htopo swap outputs).idxOf x < (reached htopo swap outputs).idxOf i := by
  have hidx := List.idxOf_lt_length_of_mem hi
  obtain ⟨j, hj, hget⟩ := childrenFirst_postorder (arenaDag htopo swap) outputs _ i
    (by rw [← reached, List.getElem?_eq_getElem hidx, List.getElem_idxOf hidx]) x hx
  obtain ⟨hjlt, hget⟩ := List.getElem?_eq_some_iff.mp hget
  have hle := idxOf_getElem_le _ hjlt
  rw [hget] at hle
  exact hle.trans_lt hj

theorem kept_keeping {emitted : List Nat} (hnodup : emitted.Nodup)
    (hchildren : (arenaDag htopo swap).ChildrenFirst emitted) :
    (Dce.keeping nodes swap emitted).kept = emitted.map (keptKey nodes swap emitted) := by
  induction emitted using List.reverseRecOn with
  | nil => rfl
  | append_singleton emitted i ih =>
      have hsplit := List.nodup_append.mp hnodup
      have hpre : (arenaDag htopo swap).ChildrenFirst emitted := by
        intro k x hx y hy
        have hk := (List.getElem?_eq_some_iff.mp hx).1
        obtain ⟨j, hj, hget⟩ := hchildren k x (by rw [List.getElem?_append_left hk, hx]) y hy
        exact ⟨j, hj, by rwa [List.getElem?_append_left (hj.trans hk)] at hget⟩
      have hmem : ∀ (k x : Nat), emitted[k]? = some x → ∀ y ∈ operands nodes swap x, y ∈ emitted := by
        intro k x hx y hy
        obtain ⟨j, -, hget⟩ := hpre k x hx y hy
        exact List.mem_of_getElem? hget
      have hlast : ∀ y ∈ operands nodes swap i, y ∈ emitted := by
        intro y hy
        obtain ⟨j, hj, hget⟩ := hchildren emitted.length i (by simp) y hy
        rw [List.getElem?_append_left hj] at hget
        exact List.mem_of_getElem? hget
      have hposition : ∀ y ∈ operands nodes swap i,
          Dce.position (Dce.keeping nodes swap (emitted ++ [i])).remap y =
            (emitted ++ [i]).idxOf y := by
        intro y hy
        have hylt := (lt_of_mem_operands htopo hy).1.trans (lt_of_mem_operands htopo hy).2
        rw [Dce.position, Dce.remap_keeping hnodup hylt,
          if_pos (List.mem_append_left _ (hlast y hy)), Option.getD_some]
      have hold : emitted.map (keptKey nodes swap (emitted ++ [i])) =
          emitted.map (keptKey nodes swap emitted) := by
        refine List.map_congr_left fun x hx => ?_
        obtain ⟨k, hk⟩ := List.mem_iff_getElem?.mp hx
        rw [keptKey, keptKey]
        congr 1
        exact List.map_congr_left fun y hy => List.idxOf_append_of_mem (hmem k x hk y hy)
      have hnew : keptKey nodes swap (emitted ++ [i]) i = (nodes.getD i default).withInputs
          ((operands nodes swap i).map
            (Dce.position (Dce.keeping nodes swap (emitted ++ [i])).remap)) := by
        rw [keptKey, List.map_congr_left fun y hy => (hposition y hy).symm]
      rw [List.map_append, List.map_singleton, hold, hnew, ← ih hsplit.1 hpre, Dce.keeping_concat]
      rfl

/-- **The pass keeps the post-order of the arena.** -/
theorem deadCodeElimination_eq (hpairs : SwapsPairs nodes swap)
    (houtputs : ∀ o ∈ outputs, o < nodes.length) :
    deadCodeElimination nodes outputs swap =
      ((reached htopo swap outputs).map (keptKey nodes swap (reached htopo swap outputs)),
        outputs.map (reached htopo swap outputs).idxOf,
        (List.range nodes.length).map fun i =>
          if i ∈ reached htopo swap outputs then some ((reached htopo swap outputs).idxOf i)
          else none) := by
  have hfold : ∀ outs emitted, emitted.Nodup → (∀ x ∈ emitted, x < nodes.length) →
      (∀ o ∈ outs, o < nodes.length) →
      outs.foldl (Dce.visitOutput nodes swap) (Dce.keeping nodes swap emitted) =
        Dce.keeping nodes swap ((arenaDag htopo swap).walk emitted outs) := by
    intro outs
    induction outs with
    | nil => intro _ _ _ _; rfl
    | cons o outs ih =>
        intro emitted hnodup hlt houts
        have ho := houts o List.mem_cons_self
        rw [List.foldl_cons, Dce.visitOutput_keeping htopo hpairs hnodup hlt ho, walk_cons]
        refine ih _ (nodup_visit _ hnodup o) (fun x hx => ?_)
          fun p hp => houts p (List.mem_cons_of_mem o hp)
        rcases reaches_of_mem_visit _ hx with hx | hx
        · exact hlt x hx
        · exact (rank_le_of_reaches _ hx).trans_lt ho
  have hstate := hfold outputs [] List.nodup_nil (by simp) houtputs
  have hnodup : (reached htopo swap outputs).Nodup := nodup_reached htopo
  have hremap : ∀ x, x < nodes.length →
      (Dce.keeping nodes swap (reached htopo swap outputs)).remap.getD x none =
        if x ∈ reached htopo swap outputs then some ((reached htopo swap outputs).idxOf x)
        else none := fun x hx => Dce.remap_keeping hnodup hx
  have hdce : deadCodeElimination nodes outputs swap =
      ((Dce.keeping nodes swap (reached htopo swap outputs)).kept,
        outputs.map (Dce.position (Dce.keeping nodes swap (reached htopo swap outputs)).remap),
        (Dce.keeping nodes swap (reached htopo swap outputs)).remap) := by
    rw [reached, Dag.postorder, ← hstate]
    rfl
  rw [hdce, Prod.mk.injEq, Prod.mk.injEq]
  refine ⟨kept_keeping htopo hnodup (childrenFirst_postorder _ outputs), ?_, ?_⟩
  · refine List.map_congr_left fun o ho => ?_
    rw [Dce.position, hremap o (houtputs o ho), if_pos (mem_reached_of_mem htopo ho),
      Option.getD_some]
  · refine List.ext_getElem (by simp) fun i hi hi' => ?_
    have hlt : i < nodes.length := by simpa using hi
    have hget := hremap i hlt
    rw [List.getD_eq_getElem?_getD, List.getElem?_eq_getElem hi, Option.getD_some] at hget
    rw [hget, List.getElem_map, List.getElem_range]

end Reached

end Graphed
