import Mathlib.Data.List.Basic
import Mathlib.Data.List.Lex
import Mathlib.Tactic.Ring

/-!
# Packed numbers

Numbers of `k` bits packed into one, the first the most significant: in range, two packs are equal
only of equal numbers, and they are ordered as the numbers are, the first differing one deciding.
-/

namespace Graphed

/-- Numbers of `k` bits, the first the most significant. -/
def packed (k : Nat) : List Nat → Nat
  | [] => 0
  | v :: vs => v * 2 ^ (k * vs.length) + packed k vs

variable {k : Nat}

theorem packed_lt {vs : List Nat} (h : ∀ v ∈ vs, v < 2 ^ k) :
    packed k vs < 2 ^ (k * vs.length) := by
  induction vs with
  | nil => exact Nat.one_pos
  | cons v vs ih =>
      have hrest := ih fun u hu => h u (List.mem_cons_of_mem _ hu)
      have hv := h v List.mem_cons_self
      calc v * 2 ^ (k * vs.length) + packed k vs
        _ < v * 2 ^ (k * vs.length) + 2 ^ (k * vs.length) := Nat.add_lt_add_left hrest _
        _ = (v + 1) * 2 ^ (k * vs.length) := by ring
        _ ≤ 2 ^ k * 2 ^ (k * vs.length) := Nat.mul_le_mul_right _ hv
        _ = 2 ^ (k * (v :: vs).length) := by
            rw [← Nat.pow_add, List.length_cons]
            congr 1
            ring

/-- The first number decides, then the others. -/
theorem packed_cons_lt {v w : Nat} {vs ws : List Nat} (hlength : vs.length = ws.length)
    (hvs : ∀ u ∈ vs, u < 2 ^ k) (hws : ∀ u ∈ ws, u < 2 ^ k) :
    packed k (v :: vs) < packed k (w :: ws) ↔ v < w ∨ v = w ∧ packed k vs < packed k ws := by
  have hleft := packed_lt hvs
  have hright := packed_lt hws
  rw [packed, packed]
  rw [hlength] at hleft ⊢
  generalize packed k vs = a at hleft ⊢
  generalize packed k ws = b at hright ⊢
  generalize 2 ^ (k * ws.length) = m at hleft hright ⊢
  obtain hlt | rfl | hgt := Nat.lt_trichotomy v w
  · refine ⟨fun _ => .inl hlt, fun _ => ?_⟩
    calc v * m + a
      _ < v * m + m := Nat.add_lt_add_left hleft _
      _ = (v + 1) * m := by ring
      _ ≤ w * m := Nat.mul_le_mul_right _ hlt
      _ ≤ w * m + b := Nat.le_add_right _ _
  · simp only [Nat.lt_irrefl, false_or, true_and, Nat.add_lt_add_iff_left]
  · have hle : w * m + b < v * m + a := by
      calc w * m + b
        _ < w * m + m := Nat.add_lt_add_left hright _
        _ = (w + 1) * m := by ring
        _ ≤ v * m := Nat.mul_le_mul_right _ hgt
        _ ≤ v * m + a := Nat.le_add_right _ _
    refine ⟨fun h => absurd h (Nat.lt_asymm hle), ?_⟩
    rintro (h | ⟨rfl, -⟩)
    · exact absurd h (Nat.lt_asymm hgt)
    · exact absurd hgt (Nat.lt_irrefl v)

/-- Packs are ordered as their numbers, lexicographically. -/
theorem packed_lt_iff {vs ws : List Nat} (hlength : vs.length = ws.length)
    (hvs : ∀ u ∈ vs, u < 2 ^ k) (hws : ∀ u ∈ ws, u < 2 ^ k) :
    packed k vs < packed k ws ↔ List.Lex (· < ·) vs ws := by
  induction vs generalizing ws with
  | nil =>
      obtain rfl := List.length_eq_zero_iff.mp hlength.symm
      exact ⟨fun h => absurd h (Nat.lt_irrefl _), fun h => nomatch h⟩
  | cons v vs ih =>
      cases ws with
      | nil => exact absurd hlength (Nat.succ_ne_zero _)
      | cons w ws =>
          have hlength' : vs.length = ws.length := Nat.succ.inj hlength
          have hvs' : ∀ u ∈ vs, u < 2 ^ k := fun u hu => hvs u (List.mem_cons_of_mem _ hu)
          have hws' : ∀ u ∈ ws, u < 2 ^ k := fun u hu => hws u (List.mem_cons_of_mem _ hu)
          rw [packed_cons_lt hlength' hvs' hws', ih hlength' hvs' hws']
          constructor
          · rintro (hlt | ⟨rfl, hlex⟩)
            · exact .rel hlt
            · exact .cons hlex
          · intro hlex
            cases hlex with
            | rel hlt => exact .inl hlt
            | cons hlex => exact .inr ⟨rfl, hlex⟩

theorem packed_inj {vs ws : List Nat} (hlength : vs.length = ws.length)
    (hvs : ∀ u ∈ vs, u < 2 ^ k) (hws : ∀ u ∈ ws, u < 2 ^ k) :
    packed k vs = packed k ws ↔ vs = ws := by
  refine ⟨fun h => ?_, fun h => congrArg _ h⟩
  have hnlt := (packed_lt_iff hlength hvs hws).not.mp h.not_lt
  have hngt := (packed_lt_iff hlength.symm hws hvs).not.mp h.not_gt
  obtain hlt | heq | hgt := trichotomous_of (List.Lex (· < ·)) vs ws
  · exact absurd hlt hnlt
  · exact heq
  · exact absurd hgt hngt

/-- Zeros in front add nothing. -/
theorem packed_zeros (n v : Nat) : packed k (List.replicate n 0 ++ [v]) = v := by
  induction n with
  | zero => simp [packed]
  | succ n ih =>
      rw [List.replicate_succ, List.cons_append, packed, ih, Nat.zero_mul, Nat.zero_add]

end Graphed
