import Mathlib.Data.List.Basic
import Mathlib.Data.List.Induction
import Mathlib.Data.List.Nodup

/-!
# First-seen order

Collecting values in the order they are first met, each once: a table that hands out the next
position to a value it has not seen. The position of a value never changes afterwards, so it can be
read off the finished list.
-/

namespace FirstSeen

variable {α β : Type*} [DecidableEq α] [DecidableEq β]

/-- Append a value unless it was seen before. -/
def insertNew (xs : List α) (x : α) : List α := if x ∈ xs then xs else xs ++ [x]

/-- The values of a list in first-seen order. -/
def firsts (xs : List α) : List α := xs.foldl insertNew []

theorem insertNew_of_mem {xs : List α} {x : α} (h : x ∈ xs) : insertNew xs x = xs := if_pos h

theorem insertNew_of_notMem {xs : List α} {x : α} (h : x ∉ xs) : insertNew xs x = xs ++ [x] :=
  if_neg h

@[simp]
theorem mem_insertNew {xs : List α} {x y : α} : y ∈ insertNew xs x ↔ y ∈ xs ∨ y = x := by
  unfold insertNew
  split_ifs with h
  · exact ⟨Or.inl, fun hy => hy.elim id fun heq => heq ▸ h⟩
  · simp

theorem nodup_insertNew {xs : List α} (hxs : xs.Nodup) (x : α) : (insertNew xs x).Nodup := by
  unfold insertNew
  split_ifs with h
  · exact hxs
  · exact List.nodup_append.mpr ⟨hxs, by simp, fun a ha b hb heq =>
      h (List.mem_singleton.mp hb ▸ heq ▸ ha)⟩

theorem prefix_insertNew (xs : List α) (x : α) : xs <+: insertNew xs x := by
  unfold insertNew
  split_ifs
  · exact List.prefix_rfl
  · exact List.prefix_append xs [x]

theorem prefix_foldl_insertNew (seen xs : List α) : seen <+: xs.foldl insertNew seen := by
  induction xs generalizing seen with
  | nil => exact List.prefix_rfl
  | cons x xs ih => exact (prefix_insertNew seen x).trans (ih _)

@[simp]
theorem mem_foldl_insertNew {seen xs : List α} {y : α} :
    y ∈ xs.foldl insertNew seen ↔ y ∈ seen ∨ y ∈ xs := by
  induction xs generalizing seen with
  | nil => simp
  | cons x xs ih => simp [ih, or_assoc]

theorem nodup_foldl_insertNew {seen : List α} (hseen : seen.Nodup) (xs : List α) :
    (xs.foldl insertNew seen).Nodup := by
  induction xs generalizing seen with
  | nil => exact hseen
  | cons x xs ih => exact ih (nodup_insertNew hseen x)

@[simp]
theorem firsts_nil : firsts ([] : List α) = [] := rfl

@[simp]
theorem mem_firsts {xs : List α} {y : α} : y ∈ firsts xs ↔ y ∈ xs := by simp [firsts]

theorem nodup_firsts (xs : List α) : (firsts xs).Nodup := nodup_foldl_insertNew List.nodup_nil xs

theorem firsts_append (xs ys : List α) : firsts (xs ++ ys) = ys.foldl insertNew (firsts xs) := by
  simp [firsts, List.foldl_append]

theorem firsts_concat (xs : List α) (y : α) : firsts (xs ++ [y]) = insertNew (firsts xs) y := by
  simp [firsts_append]

/-- Values that were all seen add nothing. -/
theorem foldl_insertNew_of_subset {seen xs : List α} (h : ∀ x ∈ xs, x ∈ seen) :
    xs.foldl insertNew seen = seen := by
  induction xs with
  | nil => rfl
  | cons x xs ih =>
      rw [List.foldl_cons, insertNew_of_mem (h x List.mem_cons_self)]
      exact ih fun y hy => h y (List.mem_cons_of_mem x hy)

/-- A list without repeats is its own first-seen order. -/
theorem foldl_insertNew_of_nodup {seen xs : List α} (h : (seen ++ xs).Nodup) :
    xs.foldl insertNew seen = seen ++ xs := by
  induction xs generalizing seen with
  | nil => simp
  | cons x xs ih =>
      have hx : x ∉ seen := fun hmem =>
        (List.nodup_append.mp h).2.2 x hmem x List.mem_cons_self rfl
      rw [List.foldl_cons, insertNew_of_notMem hx, ih (by simpa using h), List.append_assoc,
        List.singleton_append]

theorem firsts_of_nodup {xs : List α} (h : xs.Nodup) : firsts xs = xs :=
  show xs.foldl insertNew [] = [] ++ xs from foldl_insertNew_of_nodup h

/-- The position of a value is fixed once it has been seen. -/
theorem idxOf_of_isPrefix {xs ys : List α} (h : xs <+: ys) {x : α} (hx : x ∈ xs) :
    ys.idxOf x = xs.idxOf x := by
  obtain ⟨zs, rfl⟩ := h
  exact List.idxOf_append_of_mem hx

/-- Renaming by a map that is injective on the values commutes with first-seen order. -/
theorem firsts_map_of_injOn {f : α → β} {xs : List α}
    (hf : ∀ x ∈ xs, ∀ y ∈ xs, f x = f y → x = y) : firsts (xs.map f) = (firsts xs).map f := by
  induction xs using List.reverseRecOn with
  | nil => rfl
  | append_singleton xs x ih =>
      have hxs := ih fun a ha b hb =>
        hf a (List.mem_append_left _ ha) b (List.mem_append_left _ hb)
      rw [List.map_append, List.map_singleton, firsts_concat, firsts_concat, hxs]
      unfold insertNew
      have hmem : f x ∈ (firsts xs).map f ↔ x ∈ firsts xs := by
        constructor
        · intro h
          obtain ⟨y, hy, heq⟩ := List.mem_map.mp h
          have hyx := hf y (List.mem_append_left _ (mem_firsts.mp hy)) x (by simp) heq
          exact hyx ▸ hy
        · exact List.mem_map_of_mem
      by_cases hx : x ∈ firsts xs
      · rw [if_pos hx, if_pos (hmem.mpr hx)]
      · rw [if_neg hx, if_neg (mt hmem.mp hx), List.map_append, List.map_singleton]

/-- Repeats can be dropped before a map. -/
theorem firsts_map_firsts (f : α → β) (xs : List α) :
    firsts ((firsts xs).map f) = firsts (xs.map f) := by
  induction xs using List.reverseRecOn with
  | nil => rfl
  | append_singleton xs x ih =>
      rw [firsts_concat, List.map_append, List.map_singleton, firsts_concat, ← ih]
      by_cases hx : x ∈ firsts xs
      · rw [insertNew_of_mem hx, insertNew_of_mem]
        exact mem_firsts.mpr (List.mem_map_of_mem hx)
      · rw [insertNew_of_notMem hx, List.map_append, List.map_singleton, firsts_concat]

theorem prefix_firsts {xs ys : List α} (h : xs <+: ys) : firsts xs <+: firsts ys := by
  obtain ⟨zs, rfl⟩ := h
  rw [firsts_append]
  exact prefix_foldl_insertNew _ zs

theorem idxOf_getElem_le (xs : List α) {i : Nat} (hi : i < xs.length) : xs.idxOf xs[i] ≤ i := by
  by_contra hlt
  have hne := List.not_of_lt_findIdx (p := (· == xs[i])) (Nat.not_le.mp hlt)
  simp at hne

theorem notMem_take_idxOf (xs : List α) (x : α) : x ∉ xs.take (xs.idxOf x) := by
  intro hmem
  obtain ⟨j, hj, hjx⟩ := List.getElem_of_mem hmem
  rw [List.length_take] at hj
  have hle := idxOf_getElem_le xs (i := j) (by omega)
  rw [List.getElem_take] at hjx
  rw [hjx] at hle
  omega

/-! ### Numberings -/

/-- Every element is given the number of its class, classes numbered as they are first seen. -/
def IdNumbering (φ : List Nat) (m : Nat) : Prop := firsts φ = List.range m

section IdNumbering

variable {φ ψ : List Nat} {m k : Nat}

theorem getD_eq_getElem {i : Nat} (hi : i < φ.length) : φ.getD i 0 = φ[i] := by
  rw [List.getD_eq_getElem?_getD, List.getElem?_eq_getElem hi, Option.getD_some]

theorem getD_idxOf {c : Nat} (hc : c ∈ φ) : φ.getD (φ.idxOf c) 0 = c := by
  have hlt := List.idxOf_lt_length_of_mem hc
  rw [getD_eq_getElem hlt, List.getElem_idxOf hlt]

theorem idxOf_getD_le {i : Nat} (hi : i < φ.length) : φ.idxOf (φ.getD i 0) ≤ i := by
  rw [getD_eq_getElem hi]
  exact idxOf_getElem_le φ hi

/-- A numbering hands out every number below the bound and no other. -/
theorem IdNumbering.mem_iff (h : IdNumbering φ m) {c : Nat} : c ∈ φ ↔ c < m := by
  rw [← mem_firsts, h, List.mem_range]

theorem IdNumbering.getD_lt (h : IdNumbering φ m) {i : Nat} (hi : i < φ.length) : φ.getD i 0 < m := by
  rw [getD_eq_getElem hi]
  exact h.mem_iff.mp (List.getElem_mem hi)

/-- What comes before the first member of a class has a smaller number. -/
theorem IdNumbering.lt_of_lt_idxOf (h : IdNumbering φ m) {j c : Nat} (hc : c < m)
    (hj : j < φ.idxOf c) : φ.getD j 0 < c := by
  obtain ⟨k, hk⟩ : ∃ k, firsts (φ.take (φ.idxOf c)) = List.range k := by
    have hpre := prefix_firsts (List.take_prefix (φ.idxOf c) φ)
    rw [h] at hpre
    exact ⟨_, by rw [List.prefix_iff_eq_take.mp hpre, List.take_range]⟩
  have hlen := List.idxOf_lt_length_of_mem (h.mem_iff.mpr hc)
  have hjlen : j < φ.length := Nat.lt_trans hj hlen
  have hmem : φ[j] ∈ φ.take (φ.idxOf c) :=
    List.mem_take_iff_getElem.mpr ⟨j, by omega, rfl⟩
  have hjk : φ[j] < k := by rwa [← mem_firsts, hk, List.mem_range] at hmem
  have hck : ¬ c < k := by
    rw [← List.mem_range, ← hk, mem_firsts]
    exact notMem_take_idxOf φ c
  rw [getD_eq_getElem hjlen]
  omega

theorem IdNumbering.idxOf_lt_idxOf (h : IdNumbering φ m) {c d : Nat} (hd : d < m) (hcd : c < d) :
    φ.idxOf c < φ.idxOf d := by
  have hc : c < m := Nat.lt_trans hcd hd
  by_contra hle
  have hne : φ.idxOf d ≠ φ.idxOf c := fun heq => by
    have hval := getD_idxOf (h.mem_iff.mpr hd)
    rw [heq, getD_idxOf (h.mem_iff.mpr hc)] at hval
    omega
  have hlt := h.lt_of_lt_idxOf hc (j := φ.idxOf d) (by omega)
  rw [getD_idxOf (h.mem_iff.mpr hd)] at hlt
  omega

/-- IdNumbering the numbers of a numbering. -/
theorem IdNumbering.comp (hφ : IdNumbering φ m) (hψ : IdNumbering ψ k) (hlen : ψ.length = m) :
    IdNumbering (φ.map (ψ.getD · 0)) k := by
  have hrange : (List.range m).map (ψ.getD · 0) = ψ := by
    refine List.ext_getElem (by simp [hlen]) fun i hi hi' => ?_
    rw [List.getElem_map, List.getElem_range, getD_eq_getElem hi']
  have hdrop := firsts_map_firsts (ψ.getD · 0) φ
  rw [hφ, hrange, hψ] at hdrop
  exact hdrop.symm

/-- IdNumbering values by their place among the values seen. -/
theorem numbering_idxOf_firsts (xs : List α) :
    IdNumbering (xs.map (firsts xs).idxOf) (firsts xs).length := by
  have hinj : ∀ x ∈ xs, ∀ y ∈ xs, (firsts xs).idxOf x = (firsts xs).idxOf y → x = y := by
    intro x hx y _ heq
    exact (List.idxOf_inj (mem_firsts.mpr hx)).mp heq
  rw [IdNumbering, firsts_map_of_injOn hinj]
  refine List.ext_getElem (by simp) fun i hi hi' => ?_
  rw [List.getElem_map, List.getElem_range, (nodup_firsts xs).idxOf_getElem]

end IdNumbering

end FirstSeen
