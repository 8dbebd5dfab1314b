import Mathlib.Data.List.Nodup
import Mathlib.Tactic.Ring

/-!
# Rows of ranges

A half-open range of integers as the list of its rows. Adjacent ranges have the rows of the range they
cover, one after another, so ranges between the values of a monotone cut list every row once.
-/

namespace Graphed

/-- The rows of `[a, b)`, in order. -/
def rows (a b : Int) : List Int := (List.range (b - a).toNat).map fun (i : Nat) => a + i

theorem mem_rows {a b x : Int} : x ∈ rows a b ↔ a ≤ x ∧ x < b := by
  unfold rows
  rw [List.mem_map]
  constructor
  · rintro ⟨i, hi, rfl⟩
    have hlt := List.mem_range.mp hi
    omega
  · rintro ⟨hlow, hhigh⟩
    exact ⟨(x - a).toNat, List.mem_range.mpr (by omega), by omega⟩

@[simp] theorem length_rows (a b : Int) : (rows a b).length = (b - a).toNat := by
  rw [rows, List.length_map, List.length_range]

theorem rows_of_le {a b : Int} (h : b ≤ a) : rows a b = [] := by
  rw [rows, Int.toNat_of_nonpos (by omega)]
  rfl

theorem nodup_rows (a b : Int) : (rows a b).Nodup := by
  refine List.Nodup.map ?_ List.nodup_range
  intro i j h
  have hsum : a + (i : Int) = a + j := h
  omega

theorem rows_append {a b c : Int} (hab : a ≤ b) (hbc : b ≤ c) : rows a b ++ rows b c = rows a c := by
  have hcount : (c - a).toNat = (b - a).toNat + (c - b).toNat := by omega
  unfold rows
  rw [hcount, List.range_add, List.map_append, List.map_map]
  congr 1
  refine List.map_congr_left fun i _ => ?_
  rw [Function.comp_apply]
  push_cast
  omega

theorem take_rows (a b : Int) (n : Nat) : (rows a b).take n = rows a (min b (a + n)) := by
  unfold rows
  rw [← List.map_take, List.take_range]
  congr 2
  omega

theorem drop_rows (a b : Int) (n : Nat) : (rows a b).drop n = rows (a + n) b := by
  by_cases h : a + n ≤ b
  · have hsplit : rows a b = rows a (a + n) ++ rows (a + n) b := (rows_append (by omega) h).symm
    have hlength : (rows a (a + n)).length = n := by
      rw [length_rows]
      omega
    rw [hsplit, List.drop_left' hlength]
  · rw [rows_of_le (by omega : b ≤ a + n), List.drop_eq_nil_iff, length_rows]
    omega

theorem rows_single (a : Int) : rows a (a + 1) = [a] := by
  rw [rows, show (a + 1 - a).toNat = 1 by omega]
  exact congrArg (· :: []) (Int.add_zero a)

theorem rows_cons {a b : Int} (h : a < b) : rows a b = a :: rows (a + 1) b := by
  rw [← rows_append (by omega : a ≤ a + 1) (by omega), rows_single]
  rfl

theorem rows_concat {a b : Int} (h : a < b) : rows a b = rows a (b - 1) ++ [b - 1] := by
  rw [← rows_append (by omega : a ≤ b - 1) (by omega), ← rows_single (b - 1), Int.sub_add_cancel]

/-- **Ranges between the values of a monotone cut list every row once, in order.** -/
theorem flatMap_rows (cut : Nat → Int) {n : Nat} (hmono : ∀ i < n, cut i ≤ cut (i + 1)) :
    cut 0 ≤ cut n ∧ (List.range n).flatMap (fun i => rows (cut i) (cut (i + 1))) =
      rows (cut 0) (cut n) := by
  induction n with
  | zero => exact ⟨le_refl _, (rows_of_le (le_refl _)).symm⟩
  | succ n ih =>
      obtain ⟨hle, hrows⟩ := ih fun i hi => hmono i (by omega)
      have hstep := hmono n (by omega)
      refine ⟨le_trans hle hstep, ?_⟩
      rw [List.range_succ, List.flatMap_append, hrows, List.flatMap_singleton,
        rows_append hle hstep]

end Graphed
