import Graphed.Aggregate.Summaries

/-!
# Reference reducers

Reducers that do what is documented, and compute.
-/

namespace Graphed

variable {α : Type}

namespace Num

/-- The one further out, NaN if either is. -/
def further (le : α → α → Prop) [DecidableRel le] : Num α → Num α → Num α
  | num a, num b => if le b a then num a else num b
  | _, _ => nan

section

variable {le : α → α → Prop} (htotal : ∀ a b, le a b ∨ le b a)
  (htrans : ∀ a b c, le a b → le b c → le a c)

include htotal in
theorem extreme_singleton (v : Num α) : Extreme le [v] v := by
  cases v with
  | nan => exact .inl ⟨List.mem_cons_self, rfl⟩
  | num x =>
      refine .inr ⟨?_, x, rfl, List.mem_cons_self, ?_⟩
      · intro h
        cases List.mem_singleton.mp h
      · intro y hy
        cases List.mem_singleton.mp hy
        exact (htotal x x).elim id id

include htotal htrans in
theorem extreme_further [DecidableRel le] {xs : List (Num α)} {v w : Num α}
    (hv : Extreme le xs v) : Extreme le (xs ++ [w]) (further le v w) := by
  have hw := extreme_singleton htotal w
  have happend : ∀ out : Bool,
      (out = true ↔ w = .nan ∨ ∃ x y, v = .num x ∧ w = .num y ∧ ¬le y x) →
        Extreme le (xs ++ [w]) (if out = true then w else v) :=
    fun out => hv.append htotal htrans hw
  cases w with
  | nan =>
      have h := happend true ⟨fun _ => .inl rfl, fun _ => rfl⟩
      cases v <;> exact h
  | num y =>
      cases v with
      | nan =>
          refine happend false ⟨fun h => absurd h Bool.false_ne_true, ?_⟩
          rintro (h | ⟨_, _, h, -⟩) <;> cases h
      | num x =>
          have h := happend (!decide (le y x)) (by simp)
          by_cases hle : le y x
          · simpa [further, hle] using h
          · simpa [further, hle] using h

include htotal htrans in
theorem extreme_foldl [DecidableRel le] {xs : List (Num α)} {v : Num α} (hv : Extreme le xs v)
    (ys : List (Num α)) : Extreme le (xs ++ ys) (ys.foldl (further le) v) := by
  induction ys generalizing xs v with
  | nil => rwa [List.append_nil]
  | cons y ys ih =>
      have h := ih (extreme_further htotal htrans (w := y) hv)
      rwa [List.append_assoc] at h

end

end Num

/-- The extremum of some entries, if there are any. -/
def extremeOf (le : α → α → Prop) [DecidableRel le] : List (Num α) → Option (Num α)
  | [] => none
  | x :: xs => some (xs.foldl (Num.further le) x)

theorem extremeOf_cons {le : α → α → Prop} [DecidableRel le] (htotal : ∀ a b, le a b ∨ le b a)
    (htrans : ∀ a b c, le a b → le b c → le a c) (x : Num α) (xs : List (Num α)) :
    ∃ v, extremeOf le (x :: xs) = some v ∧ Num.Extreme le (x :: xs) v :=
  ⟨_, rfl, Num.extreme_foldl htotal htrans (Num.extreme_singleton htotal x) xs⟩

section Reference

variable [LinearOrder α] [AddMonoidWithOne α]

def emptyExtremum : Raised :=
  valueError "zero-size array to reduction operation which has no identity"

/-- The extremum `name` names, of these entries. -/
def namedExtreme (name : String) (xs : List (Num α)) : Option (Num α) :=
  if name = "max" then extremeOf (· ≤ ·) xs else extremeOf (· ≥ ·) xs

def referenceReducers (α : Type) [LinearOrder α] [AddMonoidWithOne α] : Reducers α where
  numpy _ op c :=
    (totals.lookup op).elim
      ((namedExtreme op c.present).elim (.error emptyExtremum) fun v => .ok (some (.number v)))
      fun total => .ok (some (total c.present))
  awkward d op mask initial c :=
    (totals.lookup (lastName op)).elim
      (if mask.getD true = true ∧ c.present = [] then .ok none
        else
          let start := if lastName op = "max" then d.low else d.high
          .ok ((namedExtreme (lastName op) (initial.getD (.num start) :: c.present)).map
            Datum.number))
      fun total =>
        .ok (if mask.getD false = true ∧ c.present = [] then none else some (total c.present))

theorem lastName_awkward : ∀ name ∈ ["sum", "count", "count_nonzero", "any", "all"],
    lastName ("ak." ++ name) = name := by
  decide

theorem totals_name {name : String} {total : List (Num α) → Datum α}
    (h : totals.lookup name = some total) :
    name ∈ ["sum", "count", "count_nonzero", "any", "all"] := by
  obtain ⟨before, after, heq, -⟩ := List.lookup_eq_some_iff.mp h
  have hmem : (name, total) ∈ (totals : List (String × (List (Num α) → Datum α))) := by
    rw [heq]
    exact List.mem_append_right _ List.mem_cons_self
  have hname : name ∈ (totals : List (String × (List (Num α) → Datum α))).map Prod.fst :=
    List.mem_map.mpr ⟨_, hmem, rfl⟩
  exact hname

theorem reference_numpy_extreme {d : Dtype α} {le : α → α → Prop} [DecidableRel le]
    (htotal : ∀ a b, le a b ∨ le b a) (htrans : ∀ a b c, le a b → le b c → le a c) {op : String}
    (hop : (totals : List (String × (List (Num α) → Datum α))).lookup op = none)
    (hle : ∀ xs : List (Num α), namedExtreme op xs = extremeOf le xs) (c : Column d) :
    if c.present = [] then ∃ e, (referenceReducers α).numpy d op c = .error e
    else ∃ v, (referenceReducers α).numpy d op c = .ok (some (.number v)) ∧
      Num.Extreme le c.present v := by
  have hred : (referenceReducers α).numpy d op c =
      (extremeOf le c.present).elim (.error emptyExtremum) fun v => .ok (some (.number v)) := by
    change (totals.lookup op).elim _ _ = _
    rw [hop, Option.elim_none, hle]
  rw [hred]
  cases c.present with
  | nil => exact ⟨_, rfl⟩
  | cons x xs =>
      obtain ⟨v, hv, hextreme⟩ := extremeOf_cons htotal htrans x xs
      rw [if_neg (List.cons_ne_nil _ _), hv]
      exact ⟨v, rfl, hextreme⟩

theorem reference_awkward_extreme {d : Dtype α} {le : α → α → Prop} [DecidableRel le]
    (htotal : ∀ a b, le a b ∨ le b a) (htrans : ∀ a b c, le a b → le b c → le a c) {op : String}
    {start : α} (hop : (totals : List (String × (List (Num α) → Datum α))).lookup (lastName op) =
      none)
    (hle : ∀ xs : List (Num α), namedExtreme (lastName op) xs = extremeOf le xs)
    (hstart : (if lastName op = "max" then d.low else d.high) = start) (mask : Option Bool)
    (initial : Option (Num α)) (c : Column d) :
    if mask.getD true = true ∧ c.present = [] then
      (referenceReducers α).awkward d op mask initial c = .ok none
    else ∃ v, (referenceReducers α).awkward d op mask initial c = .ok (some (.number v)) ∧
      Num.Extreme le (initial.getD (.num start) :: c.present) v := by
  have hred : (referenceReducers α).awkward d op mask initial c =
      if mask.getD true = true ∧ c.present = [] then .ok none
      else .ok ((extremeOf le (initial.getD (.num start) :: c.present)).map Datum.number) := by
    change (totals.lookup (lastName op)).elim _ _ = _
    simp only [hop, Option.elim_none, hle, hstart]
  rw [hred]
  by_cases hnone : mask.getD true = true ∧ c.present = []
  · rw [if_pos hnone, if_pos hnone]
  · rw [if_neg hnone, if_neg hnone]
    obtain ⟨v, hv, hextreme⟩ :=
      extremeOf_cons htotal htrans (initial.getD (.num start)) c.present
    rw [hv]
    exact ⟨v, rfl, hextreme⟩

theorem referenceReducers_documented : Documented (referenceReducers α) where
  awkward_total := by
    intro d name total htotal mask c
    change (totals.lookup (lastName ("ak." ++ name))).elim _ _ = _
    rw [lastName_awkward name (totals_name htotal), htotal]
    rfl
  awkward_max := reference_awkward_extreme le_total (fun _ _ _ => le_trans) rfl (fun _ => rfl) rfl
  awkward_min := reference_awkward_extreme (fun a b => le_total b a)
    (fun _ _ _ hab hbc => le_trans hbc hab) rfl (fun _ => rfl) rfl
  numpy_total := by
    intro d name total _ htotal c _
    change (totals.lookup name).elim _ _ = _
    rw [htotal]
    rfl
  numpy_max c _ := reference_numpy_extreme le_total (fun _ _ _ => le_trans) rfl (fun _ => rfl) c
  numpy_min c _ := reference_numpy_extreme (fun a b => le_total b a)
    (fun _ _ _ hab hbc => le_trans hbc hab) rfl (fun _ => rfl) c

end Reference

end Graphed
