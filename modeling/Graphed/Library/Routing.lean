import Mathlib.Data.List.Count
import Mathlib.Data.List.Flatten
import Mathlib.Data.List.Perm.Basic
import Mathlib.Data.List.Range

/-!
# Routing rows by key

Rows sent to destinations by a function of their key. A destination's rows keep their order, and all
rows of one key meet in one destination. So a function that adds up over rows without a common key,
and of each key reads the rows in order, is the fold of its values at the destinations.
-/

namespace Routing

variable {ρ κ β : Type*}

/-- The rows of each of some destinations, in order. -/
def buckets (dest : ρ → Nat) (parts : Nat) (rows : List ρ) : List (List ρ) :=
  (List.range parts).map fun d => rows.filter fun x => dest x = d

/-- No row of one list has the key of a row of the other. -/
def Apart (key : ρ → κ) (xs ys : List ρ) : Prop := ∀ x ∈ xs, ∀ y ∈ ys, key x ≠ key y

section Keys

variable [DecidableEq κ] {key : ρ → κ} {xs ys zs : List ρ}

/-- Each key has the same rows in the same order. -/
def SameByKey (key : ρ → κ) (xs ys : List ρ) : Prop :=
  ∀ k, (xs.filter fun x => key x = k) = ys.filter fun y => key y = k

theorem SameByKey.refl (xs : List ρ) : SameByKey key xs xs := fun _ => rfl

theorem SameByKey.trans (hxy : SameByKey key xs ys) (hyz : SameByKey key ys zs) :
    SameByKey key xs zs := fun k => (hxy k).trans (hyz k)

/-- The rows are the same, regrouped. -/
theorem SameByKey.perm [DecidableEq ρ] (h : SameByKey key xs ys) : xs.Perm ys := by
  rw [List.perm_iff_count]
  intro x
  have hcount : ∀ zs : List ρ, zs.count x = (zs.filter fun z => key z = key x).count x := by
    intro zs
    rw [List.count_filter (by simp)]
  rw [hcount xs, hcount ys, h (key x)]

/-- What one key's rows below a destination are, when keys have destinations. -/
theorem filter_route (key : ρ → κ) (xs : List ρ) (route : κ → Nat) (p : Nat → Bool) (k : κ) :
    ((xs.filter fun x => p (route (key x))).filter fun x => key x = k) =
      if p (route k) then xs.filter (fun x => key x = k) else [] := by
  rw [List.filter_filter]
  cases hp : p (route k) with
  | true =>
      rw [if_pos rfl]
      apply List.filter_congr
      intro x _
      by_cases hx : key x = k
      · simp [hx, hp]
      · simp [hx]
  | false =>
      rw [if_neg Bool.false_ne_true, List.filter_eq_nil_iff]
      intro x _
      by_cases hx : key x = k
      · simp [hx, hp]
      · simp [hx]

/-- The rows of the destinations below the next one are those below this one, then its own. -/
theorem sameByKey_succ (route : κ → Nat) (d : Nat) :
    SameByKey key ((xs.filter fun x => route (key x) < d) ++ xs.filter fun x => route (key x) = d)
      (xs.filter fun x => route (key x) < d + 1) := by
  intro k
  have hbelow := filter_route key xs route (fun e => decide (e < d)) k
  have hat := filter_route key xs route (fun e => decide (e = d)) k
  have hnext := filter_route key xs route (fun e => decide (e < d + 1)) k
  simp only [decide_eq_true_eq] at hbelow hat hnext
  rw [List.filter_append, hbelow, hat, hnext]
  rcases Nat.lt_trichotomy (route k) d with h | h | h
  · rw [if_pos h, if_neg (Nat.ne_of_lt h), if_pos (by omega), List.append_nil]
  · rw [if_neg (by omega), if_pos h, if_pos (by omega), List.nil_append]
  · rw [if_neg (by omega), if_neg (by omega), if_neg (by omega), List.nil_append]

theorem flatten_buckets_sameByKey (key : ρ → κ) (xs : List ρ) (route : κ → Nat) (parts : Nat) :
    SameByKey key (buckets (route ∘ key) parts xs).flatten
      (xs.filter fun x => route (key x) < parts) := by
  induction parts with
  | zero =>
      intro k
      simp [buckets]
  | succ d ih =>
      refine SameByKey.trans (fun k => ?_) (sameByKey_succ route d)
      have hih := ih k
      rw [buckets] at hih ⊢
      rw [List.range_succ, List.map_append, List.flatten_append, List.filter_append, hih,
        List.filter_append]
      simp

/-- The destinations' rows, one destination after the other, are the rows regrouped. -/
theorem sameByKey_buckets {route : κ → Nat} {parts : Nat}
    (hlt : ∀ x ∈ xs, route (key x) < parts) :
    SameByKey key (buckets (route ∘ key) parts xs).flatten xs := by
  have hall : (xs.filter fun x => route (key x) < parts) = xs := by
    rw [List.filter_eq_self]
    intro x hx
    exact decide_eq_true (hlt x hx)
  have h := flatten_buckets_sameByKey key xs route parts
  rwa [hall] at h

end Keys

/-! ### Functions of the rows of a key -/

section Additive

variable [DecidableEq κ]

/-- A function that adds up over rows without a common key, and of each key reads the rows in
order. -/
structure KeyAdditive (key : ρ → κ) (f : List ρ → β) (op : β → β → β) (e : β) : Prop where
  nil : f [] = e
  append : ∀ xs ys, Apart key xs ys → f (xs ++ ys) = op (f xs) (f ys)
  regroup : ∀ xs ys, SameByKey key xs ys → f xs = f ys

variable {key : ρ → κ} {f : List ρ → β} {op : β → β → β} {e : β}

theorem KeyAdditive.foldl_below (h : KeyAdditive key f op e) (route : κ → Nat) (xs : List ρ)
    (parts : Nat) : (buckets (route ∘ key) parts xs).foldl (fun acc rows => op acc (f rows)) e =
      f (xs.filter fun x => route (key x) < parts) := by
  induction parts with
  | zero => simp [buckets, h.nil]
  | succ d ih =>
      have hapart : Apart key (xs.filter fun x => route (key x) < d)
          (xs.filter fun x => route (key x) = d) := by
        intro x hx y hy hxy
        have hlt := of_decide_eq_true (List.mem_filter.mp hx).2
        have heq := of_decide_eq_true (List.mem_filter.mp hy).2
        rw [hxy, heq] at hlt
        exact Nat.lt_irrefl d hlt
      rw [buckets, List.range_succ, List.map_append, List.foldl_append, ← buckets, ih]
      calc op (f (xs.filter fun x => route (key x) < d))
            (f (xs.filter fun x => (route ∘ key) x = d))
        _ = f ((xs.filter fun x => route (key x) < d) ++
              xs.filter fun x => route (key x) = d) := (h.append _ _ hapart).symm
        _ = f (xs.filter fun x => route (key x) < d + 1) :=
              h.regroup _ _ (sameByKey_succ route d)

/-- **Folding the destinations.** The values at the destinations, folded in order, are the value of
all rows. -/
theorem KeyAdditive.foldl_buckets (h : KeyAdditive key f op e) {route : κ → Nat} {xs : List ρ}
    {parts : Nat} (hlt : ∀ x ∈ xs, route (key x) < parts) :
    (buckets (route ∘ key) parts xs).foldl (fun acc rows => op acc (f rows)) e = f xs := by
  rw [h.foldl_below route xs parts]
  congr 1
  rw [List.filter_eq_self]
  intro x hx
  exact decide_eq_true (hlt x hx)

end Additive

end Routing
