import Graphed.Numpy.Reductions
import Mathlib.Algebra.BigOperators.Group.List.Lemmas
import Mathlib.Algebra.Order.BigOperators.Group.List
import Mathlib.Tactic.FieldSimp
import Mathlib.Tactic.Linarith
import Mathlib.Tactic.Ring

/-!
# Sums, products and moments over a tree

Sums, products, counts, `any`, `all` and moment sums turn concatenation into a commutative
combination. On exact numbers the moment sums give the variance NumPy takes in two passes, as long
as there are degrees of freedom.
-/

namespace Graphed

namespace Num

variable {α : Type}

theorem add_comm' [AddCommMonoid α] (a b : Num α) : a.add b = b.add a := by
  cases a <;> cases b <;> simp [add, add_comm]

theorem mul_comm' [CommMonoid α] (a b : Num α) : a.mul b = b.mul a := by
  cases a <;> cases b <;> simp [mul, mul_comm]

theorem mul_assoc' [Monoid α] (a b c : Num α) : (a.mul b).mul c = a.mul (b.mul c) := by
  cases a <;> cases b <;> cases c <;> simp [mul, mul_assoc]

theorem one_mul' [Monoid α] (a : Num α) : (num 1).mul a = a := by
  cases a <;> simp [mul]

theorem product_append [Monoid α] (xs ys : List (Num α)) :
    product (xs ++ ys) = (product xs).mul (product ys) := by
  induction xs with
  | nil => exact (one_mul' _).symm
  | cons x rest ih =>
      change x.mul (product (rest ++ ys)) = (x.mul (product rest)).mul (product ys)
      rw [ih, mul_assoc']

/-- A total with a NaN among its terms. -/
theorem total_of_mem_nan [Zero α] [Add α] {xs : List (Num α)} (h : .nan ∈ xs) :
    total xs = .nan := by
  induction xs with
  | nil => cases h
  | cons x xs ih =>
      rcases List.mem_cons.mp h with rfl | h
      · rfl
      · change x.add (total xs) = _
        rw [ih h]
        cases x <;> rfl

theorem total_map_num [AddMonoid α] (xs : List α) : total (xs.map num) = num xs.sum := by
  induction xs with
  | nil => rfl
  | cons x xs ih =>
      change (num x).add (total (xs.map num)) = _
      rw [ih, List.sum_cons]
      rfl

theorem total_map {β : Type} [AddMonoid α] (f : β → α) (xs : List β) :
    total (xs.map fun x => num (f x)) = num (xs.map f).sum := by
  rw [← total_map_num, List.map_map]
  rfl

theorem exists_numbers {xs : List (Num α)} (h : .nan ∉ xs) : ∃ ys : List α, xs = ys.map num := by
  induction xs with
  | nil => exact ⟨[], rfl⟩
  | cons x xs ih =>
      obtain ⟨ys, rfl⟩ := ih fun hmem => h (List.mem_cons_of_mem x hmem)
      cases x with
      | nan => exact absurd List.mem_cons_self h
      | num y => exact ⟨y :: ys, rfl⟩

end Num

namespace Reductions

open CombineTree

variable {K : Type} [Field K]

/-! ### Measures -/

theorem measures_total : Measures Num.add (.num 0) (Num.total : List (Num K) → Num K) :=
  ⟨rfl, Num.total_append, Num.add_comm'⟩

theorem measures_product : Measures Num.mul (.num 1) (Num.product : List (Num K) → Num K) :=
  ⟨rfl, Num.product_append, Num.mul_comm'⟩

omit [Field K] in
theorem measures_length : Measures (fun a b => Nat.add a b) 0 (List.length : List (Num K) → Nat) :=
  ⟨rfl, fun _ _ => List.length_append, Nat.add_comm⟩

theorem measures_moments : Measures momentsCombine momentsEmpty (moments : List (Num K) → _) where
  nil := rfl
  append xs ys := by
    unfold moments momentsCombine
    rw [List.length_append, List.map_append, Num.total_append, Num.total_append]
  comm a b := by
    unfold momentsCombine
    rw [Nat.add_comm, Num.add_comm', Num.add_comm' a.total2]

/-! ### Deviations -/

/-- The squared deviations from any number, over the moments. -/
theorem sum_deviations (m : K) (ys : List K) : (ys.map fun y => (y - m) * (y - m)).sum =
    (ys.map fun y => y * y).sum - 2 * m * ys.sum + ys.length * (m * m) := by
  induction ys with
  | nil => simp
  | cons y ys ih =>
      simp only [List.map_cons, List.sum_cons, ih, List.length_cons, Nat.cast_add, Nat.cast_one]
      ring

/-- **From the mean** they are what the moment sums leave. -/
theorem sum_deviations_mean {ys : List K} (h : (ys.length : K) ≠ 0) :
    (ys.map fun y => (y - ys.sum / ys.length) * (y - ys.sum / ys.length)).sum =
      (ys.map fun y => y * y).sum - ys.sum * ys.sum / ys.length := by
  rw [sum_deviations]
  field_simp
  ring

variable [LinearOrder K]

theorem measures_any : Measures (fun a b => Bool.or a b) false
    (fun x : List (Num K) => x.any Num.nonzero) :=
  ⟨rfl, fun _ _ => List.any_append, Bool.or_comm⟩

theorem measures_all : Measures (fun a b => Bool.and a b) true
    (fun x : List (Num K) => x.all Num.nonzero) :=
  ⟨rfl, fun _ _ => List.all_append, Bool.and_comm⟩

/-! ### The variance -/

/-- There are degrees of freedom and entries, or the deviations are zero or NaN. -/
def VarFaithful (ddof : Int) (x : List (Num K)) : Prop :=
  ddof < x.length ∧ x ≠ [] ∨
    (x.length : Int) ≤ ddof ∧ (.nan ∈ x ∨ ∃ a, ∀ b ∈ x, b = .num a)

/-- What the variance is of numbers. -/
theorem npVar_numbers (ddof : Int) {ys : List K} (h : ys ≠ []) :
    npVar ddof (ys.map .num) = npDivide (.num ((ys.map fun y =>
      (y - ys.sum / ys.length) * (y - ys.sum / ys.length)).sum))
      ((ys.length : Int) - ddof).toNat := by
  have hlength : ys.length ≠ 0 := by simpa using h
  unfold npVar npMean
  rw [List.length_map, if_neg hlength, Num.total_map_num, List.map_map, ← Num.total_map]
  rfl

omit [LinearOrder K] in
theorem varFinalize_numbers {ddof : Int} {ys : List K} (h : ys ≠ [])
    (hddof : ddof < ys.length) :
    varFinalize ddof (moments (ys.map .num)) = .ok (.num (((ys.map fun y => y * y).sum -
      ys.sum * ys.sum / ys.length) / (((ys.length : Int) - ddof : Int) : K))) := by
  have hlength : ys.length ≠ 0 := by simpa using h
  have hsquares : Num.total ((ys.map Num.num).map fun a => a.mul a) =
      .num (ys.map fun y => y * y).sum := by
    rw [List.map_map, ← Num.total_map]
    rfl
  unfold varFinalize moments
  simp only [List.length_map, Num.total_map_num, hsquares]
  rw [if_neg (by omega), if_neg hlength]
  rfl

omit [LinearOrder K] in
theorem varFinalize_nil {ddof : Int} (h : ddof < 0) :
    varFinalize ddof (moments ([] : List (Num K))) = .error zeroDivision := by
  have hfree : ¬((moments ([] : List (Num K))).count : Int) - ddof ≤ 0 := by
    change ¬((0 : Nat) : Int) - ddof ≤ 0
    omega
  unfold varFinalize
  exact (if_neg hfree).trans (if_pos rfl)

omit [LinearOrder K] in
theorem varFinalize_no_freedom {ddof : Int} {x : List (Num K)} (h : (x.length : Int) ≤ ddof) :
    varFinalize ddof (moments x) = .ok .nan := by
  unfold varFinalize
  exact if_pos (by unfold moments; simpa using h)

theorem npDivide_zero (a : Num K) : npDivide a 0 = match a with
    | .nan => .float .nan
    | .num a => if a = 0 then .float .nan else .infinite (decide (0 < a)) := by
  cases a <;> rfl

/-- A NaN is in the deviations and in the moments. -/
theorem npVar_of_mem_nan (ddof : Int) {x : List (Num K)} (h : .nan ∈ x) :
    npVar ddof x = .float .nan := by
  unfold npVar
  rw [Num.total_of_mem_nan (List.mem_map.mpr ⟨.nan, h, rfl⟩)]
  rfl

omit [LinearOrder K] in
theorem varFinalize_of_mem_nan (ddof : Int) {x : List (Num K)} (h : .nan ∈ x) :
    varFinalize ddof (moments x) = .ok .nan := by
  have hlength : x.length ≠ 0 := fun hzero => by
    rw [List.length_eq_zero_iff.mp hzero] at h
    cases h
  unfold varFinalize moments
  simp only [Num.total_of_mem_nan h]
  split_ifs with hfree
  · rfl
  · cases Num.total (x.map fun a => a.mul a) <;> rfl

variable [IsStrictOrderedRing K]

theorem sum_deviations_nonneg (m : K) (ys : List K) :
    0 ≤ (ys.map fun y => (y - m) * (y - m)).sum := by
  refine List.sum_nonneg fun d hd => ?_
  obtain ⟨y, -, rfl⟩ := List.mem_map.mp hd
  exact mul_self_nonneg _

/-- Deviations vanish just for the number all entries are. -/
theorem sum_deviations_eq_zero {m : K} {ys : List K} :
    (ys.map fun y => (y - m) * (y - m)).sum = 0 ↔ ∀ y ∈ ys, y = m := by
  induction ys with
  | nil => simp
  | cons y ys ih =>
      rw [List.map_cons, List.sum_cons, List.forall_mem_cons, ← ih,
        add_eq_zero_iff_of_nonneg (mul_self_nonneg _) (sum_deviations_nonneg m ys),
        mul_self_eq_zero, sub_eq_zero]

theorem sum_deviations_mean_eq_zero {ys : List K} (h : (ys.length : K) ≠ 0) :
    (ys.map fun y => (y - ys.sum / ys.length) * (y - ys.sum / ys.length)).sum = 0 ↔
      ∃ x, ∀ y ∈ ys, y = x := by
  rw [sum_deviations_eq_zero]
  constructor
  · exact fun hall => ⟨_, hall⟩
  · rintro ⟨x, hall⟩ y hy
    have hsum : ys.sum = ys.length * x := by
      rw [List.eq_replicate_of_mem hall, List.sum_replicate, List.length_replicate, nsmul_eq_mul]
    rw [hall y hy, hsum, mul_div_cancel_left₀ x h]

/-- **The variance**: what NumPy gives, or a NaN where NumPy has an infinity, or a division by a
count of zero. -/
theorem var_cases (ddof : Int) (x : List (Num K)) :
    (VarFaithful ddof x ∧ ∃ v, varFinalize ddof (moments x) = .ok v ∧
      npVar ddof x = .float v ∧ ∀ a, v = .num a → 0 ≤ a) ∨
    (¬VarFaithful ddof x ∧ (varFinalize ddof (moments x) = .error zeroDivision ∨
      varFinalize ddof (moments x) = .ok .nan ∧ npVar ddof x = .infinite true)) := by
  by_cases hnan : Num.nan ∈ x
  · refine Or.inl ⟨?_, .nan, varFinalize_of_mem_nan ddof hnan, npVar_of_mem_nan ddof hnan, nofun⟩
    rcases lt_or_ge ddof (x.length : Int) with hfree | hfree
    · exact Or.inl ⟨hfree, List.ne_nil_of_mem hnan⟩
    · exact Or.inr ⟨hfree, Or.inl hnan⟩
  · obtain ⟨ys, rfl⟩ := Num.exists_numbers hnan
    by_cases hempty : ys = []
    · subst hempty
      rcases lt_or_ge ddof 0 with hfree | hfree
      · refine Or.inr ⟨?_, Or.inl ?_⟩
        · rintro (⟨-, hne⟩ | ⟨hle, -⟩)
          · exact hne rfl
          · exact absurd hle (not_le.mpr hfree)
        · exact varFinalize_nil hfree
      · refine Or.inl ⟨Or.inr ⟨hfree, Or.inr ⟨0, nofun⟩⟩, .nan, varFinalize_no_freedom hfree, ?_,
          nofun⟩
        have hcount : ((([] : List (Num K)).length : Int) - ddof).toNat = 0 := by
          simpa using hfree
        change npDivide (.num 0) ((([] : List (Num K)).length : Int) - ddof).toNat = _
        rw [hcount, npDivide_zero]
        exact if_pos rfl
    · have hpos : ys.length ≠ 0 := by simpa using hempty
      have hcast : (ys.length : K) ≠ 0 := Nat.cast_ne_zero.mpr hpos
      rcases lt_or_ge ddof (ys.length : Int) with hfree | hfree
      · have hfaithful : VarFaithful ddof (ys.map Num.num) :=
          Or.inl ⟨by simpa using hfree, by simpa using hempty⟩
        have hfreedom : (((ys.length : Int) - ddof).toNat : Int) = (ys.length : Int) - ddof :=
          Int.toNat_of_nonneg (by omega)
        have hne : ((ys.length : Int) - ddof).toNat ≠ 0 := by omega
        have hdegrees : ((((ys.length : Int) - ddof).toNat : Nat) : K) =
            (((ys.length : Int) - ddof : Int) : K) := by
          rw [← Int.cast_natCast, hfreedom]
        refine Or.inl ⟨hfaithful, _, varFinalize_numbers hempty hfree, ?_, ?_⟩
        · rw [npVar_numbers ddof hempty, sum_deviations_mean hcast, ← hdegrees]
          exact if_pos hne
        · intro a ha
          obtain rfl := Num.num.inj ha
          rw [← sum_deviations_mean hcast, ← hdegrees]
          exact div_nonneg (sum_deviations_nonneg _ _) (Nat.cast_nonneg _)
      · have hzero : ((ys.length : Int) - ddof).toNat = 0 := by omega
        have hle : ((ys.map Num.num).length : Int) ≤ ddof := by simpa using hfree
        have hvar := npVar_numbers ddof hempty
        rw [hzero, npDivide_zero] at hvar
        by_cases hdeviations : (ys.map fun y =>
            (y - ys.sum / ys.length) * (y - ys.sum / ys.length)).sum = 0
        · obtain ⟨a, ha⟩ := (sum_deviations_mean_eq_zero hcast).mp hdeviations
          refine Or.inl ⟨Or.inr ⟨hle, Or.inr ⟨a, ?_⟩⟩, .nan, varFinalize_no_freedom hle, ?_, nofun⟩
          · intro b hb
            obtain ⟨y, hy, rfl⟩ := List.mem_map.mp hb
            rw [ha y hy]
          · exact hvar.trans (if_pos hdeviations)
        · refine Or.inr ⟨?_, Or.inr ⟨varFinalize_no_freedom hle, ?_⟩⟩
          · rintro (⟨hlt, -⟩ | ⟨-, hmem | ⟨a, ha⟩⟩)
            · exact absurd hlt (not_lt.mpr hle)
            · exact hnan hmem
            · refine hdeviations ((sum_deviations_mean_eq_zero hcast).mpr ⟨a, fun y hy => ?_⟩)
              exact Num.num.inj (ha _ (List.mem_map_of_mem hy))
          · have hpositive := lt_of_le_of_ne (sum_deviations_nonneg (ys.sum / ys.length) ys)
              (Ne.symm hdeviations)
            exact hvar.trans ((if_neg hdeviations).trans (by rw [decide_eq_true hpositive]))

end Reductions

end Graphed
