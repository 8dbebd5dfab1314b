import Graphed.Library.Equijoin
import Graphed.Library.Routing

/-!
# Joins, key by key

A join whose rows of a key are the join of the two lists' rows of that key. Routed by the key, it
needs no rows of other destinations: a function that adds up over the joined rows of different keys
adds up over the rows of both lists.
-/

namespace Routing

open Equijoin

variable {ρ σ τ κ β : Type*} [DecidableEq κ]

/-- The joined rows of a key are the join of the rows of that key. -/
structure Keyed (kl : ρ → κ) (kr : σ → κ) (kt : τ → κ) (J : List ρ → List σ → List τ) : Prop where
  nil : J [] [] = []
  filter : ∀ k L R, (J L R).filter (fun t => kt t = k) =
    J (L.filter fun l => kl l = k) (R.filter fun r => kr r = k)

/-- The rows of the left list among the rows of both. -/
def lefts : List (ρ ⊕ σ) → List ρ
  | [] => []
  | .inl l :: rows => l :: lefts rows
  | .inr _ :: rows => lefts rows

/-- The rows of the right list among the rows of both. -/
def rights : List (ρ ⊕ σ) → List σ
  | [] => []
  | .inl _ :: rows => rights rows
  | .inr r :: rows => r :: rights rows

theorem lefts_filter (p : ρ → Bool) (q : σ → Bool) (rows : List (ρ ⊕ σ)) :
    lefts (rows.filter (Sum.elim p q)) = (lefts rows).filter p := by
  induction rows with
  | nil => rfl
  | cons x rows ih =>
      rw [List.filter_cons]
      cases x with
      | inl l => by_cases h : p l <;> simp [lefts, h, ih]
      | inr r => by_cases h : q r <;> simp [lefts, h, ih]

theorem rights_filter (p : ρ → Bool) (q : σ → Bool) (rows : List (ρ ⊕ σ)) :
    rights (rows.filter (Sum.elim p q)) = (rights rows).filter q := by
  induction rows with
  | nil => rfl
  | cons x rows ih =>
      rw [List.filter_cons]
      cases x with
      | inl l => by_cases h : p l <;> simp [rights, h, ih]
      | inr r => by_cases h : q r <;> simp [rights, h, ih]

theorem lefts_sides (L : List ρ) (R : List σ) :
    lefts (L.map Sum.inl ++ R.map Sum.inr) = L := by
  induction L with
  | nil =>
      induction R with
      | nil => rfl
      | cons r R ih => exact ih
  | cons l L ih => exact congrArg (l :: ·) ih

theorem rights_sides (L : List ρ) (R : List σ) :
    rights (L.map Sum.inl ++ R.map Sum.inr) = R := by
  induction L with
  | nil =>
      induction R with
      | nil => rfl
      | cons r R ih => exact congrArg (r :: ·) ih
  | cons l L ih => exact ih

/-- The rows of a key, of either list. -/
theorem filter_key (kl : ρ → κ) (kr : σ → κ) (k : κ) :
    (fun x : ρ ⊕ σ => decide (Sum.elim kl kr x = k)) =
      Sum.elim (fun l => decide (kl l = k)) fun r => decide (kr r = k) := by
  funext x
  cases x <;> rfl

namespace Keyed

variable {kl : ρ → κ} {kr : σ → κ} {kt : τ → κ} {J : List ρ → List σ → List τ}

theorem filter_rows (hJ : Keyed kl kr kt J) (k : κ) (rows : List (ρ ⊕ σ)) :
    (J (lefts rows) (rights rows)).filter (fun t => kt t = k) =
      J (lefts (rows.filter fun x => Sum.elim kl kr x = k))
        (rights (rows.filter fun x => Sum.elim kl kr x = k)) := by
  rw [hJ.filter, filter_key, lefts_filter, rights_filter]

/-- Joined rows have keys of the rows they come from. -/
theorem key_of_mem (hJ : Keyed kl kr kt J) {rows : List (ρ ⊕ σ)} {t : τ}
    (ht : t ∈ J (lefts rows) (rights rows)) : ∃ x ∈ rows, Sum.elim kl kr x = kt t := by
  by_contra hnone
  have hempty : (rows.filter fun x => Sum.elim kl kr x = kt t) = [] := by
    rw [List.filter_eq_nil_iff]
    intro x hx h
    exact hnone ⟨x, hx, of_decide_eq_true h⟩
  have hmem : t ∈ (J (lefts rows) (rights rows)).filter fun s => kt s = kt t :=
    List.mem_filter.mpr ⟨ht, decide_eq_true rfl⟩
  rw [hJ.filter_rows, hempty] at hmem
  change t ∈ J [] [] at hmem
  rw [hJ.nil] at hmem
  exact List.not_mem_nil hmem

/-- Over rows without a common key, the join is that of either part, regrouped. -/
theorem sameByKey_append (hJ : Keyed kl kr kt J) {xs ys : List (ρ ⊕ σ)}
    (hapart : Apart (Sum.elim kl kr) xs ys) :
    SameByKey kt (J (lefts (xs ++ ys)) (rights (xs ++ ys)))
      (J (lefts xs) (rights xs) ++ J (lefts ys) (rights ys)) := by
  intro k
  rw [List.filter_append, hJ.filter_rows, hJ.filter_rows, hJ.filter_rows, List.filter_append]
  by_cases hk : ∃ x ∈ xs, Sum.elim kl kr x = k
  · have hempty : (ys.filter fun y => Sum.elim kl kr y = k) = [] := by
      rw [List.filter_eq_nil_iff]
      intro y hy h
      obtain ⟨x, hx, hkey⟩ := hk
      exact hapart x hx y hy (hkey.trans (of_decide_eq_true h).symm)
    rw [hempty, List.append_nil]
    change _ = _ ++ J [] []
    rw [hJ.nil, List.append_nil]
  · have hempty : (xs.filter fun x => Sum.elim kl kr x = k) = [] := by
      rw [List.filter_eq_nil_iff]
      intro x hx h
      exact hk ⟨x, hx, of_decide_eq_true h⟩
    rw [hempty, List.nil_append]
    change _ = J [] [] ++ _
    rw [hJ.nil, List.nil_append]

/-- **Adding up over a join.** What adds up over joined rows of different keys adds up over the rows
that are joined. -/
theorem keyAdditive (hJ : Keyed kl kr kt J) {f : List τ → β} {op : β → β → β} {e : β}
    (hf : KeyAdditive kt f op e) :
    KeyAdditive (Sum.elim kl kr) (fun rows => f (J (lefts rows) (rights rows))) op e where
  nil := by
    change f (J [] []) = e
    rw [hJ.nil, hf.nil]
  append xs ys hapart := by
    rw [hf.regroup _ _ (hJ.sameByKey_append hapart)]
    apply hf.append
    intro s hs t ht hkey
    obtain ⟨x, hx, hxs⟩ := hJ.key_of_mem hs
    obtain ⟨y, hy, hyt⟩ := hJ.key_of_mem ht
    exact hapart x hx y hy (hxs.trans (hkey.trans hyt.symm))
  regroup xs ys hsame := by
    apply hf.regroup
    intro k
    rw [hJ.filter_rows, hJ.filter_rows, hsame k]

end Keyed

/-! ### The joins of both orders -/

section Orders

variable {kl : ρ → κ} {kr : σ → κ} {kt : τ → κ} {m : ρ → σ → Bool}
  {merge : Option ρ × Option σ → τ}

/-- Merged pairs have the key of their left row, or where there is none of their right row. -/
def KeyedMerge (kl : ρ → κ) (kr : σ → κ) (kt : τ → κ) (merge : Option ρ × Option σ → τ) : Prop :=
  (∀ l r, kt (merge (some l, r)) = kl l) ∧ ∀ r, kt (merge (none, some r)) = kr r

theorem keyed_of_filter (hmerge : KeyedMerge kl kr kt merge)
    {pairs : List ρ → List σ → List (Option ρ × Option σ)} (hnil : pairs [] [] = [])
    (hsome : ∀ L R, (none, none) ∉ pairs L R)
    (hfilter : ∀ (p : ρ → Bool) (q : σ → Bool) L R, (∀ l r, m l r → p l = q r) →
      (pairs L R).filter (within p q) = pairs (L.filter p) (R.filter q))
    (hm : ∀ l r, m l r → kl l = kr r) :
    Keyed kl kr kt fun L R => (pairs L R).map merge where
  nil := by rw [hnil, List.map_nil]
  filter k L R := by
    rw [List.filter_map, ← hfilter (fun l => kl l = k) (fun r => kr r = k) L R
      fun l r h => by rw [hm l r h]]
    congr 1
    apply List.filter_congr
    intro p hp
    rcases p with ⟨_ | l, _ | r⟩
    · exact absurd hp (hsome L R)
    · exact decide_eq_decide.mpr (by rw [hmerge.2])
    · exact decide_eq_decide.mpr (by rw [hmerge.1])
    · exact decide_eq_decide.mpr (by rw [hmerge.1])

theorem none_not_mem_rightMajor (m : ρ → σ → Bool) (keepLeft keepRight : Bool) (L : List ρ)
    (R : List σ) : (none, none) ∉ rightMajor m keepLeft keepRight L R := by
  intro h
  rcases mem_rightMajor.mp h with
    ⟨_, _, _, _, _, heq⟩ | ⟨_, _, _, _, heq⟩ | ⟨_, _, _, _, heq⟩ <;> cases heq

theorem keyed_rightMajor (hm : ∀ l r, m l r → kl l = kr r) (hmerge : KeyedMerge kl kr kt merge)
    (keepLeft keepRight : Bool) :
    Keyed kl kr kt fun L R => (rightMajor m keepLeft keepRight L R).map merge := by
  refine keyed_of_filter hmerge ?_ (none_not_mem_rightMajor m keepLeft keepRight) ?_ hm
  · cases keepLeft <;> cases keepRight <;> rfl
  · intro p q L R h
    exact filter_rightMajor fun l _ r _ => h l r

theorem keyed_leftMajor (hm : ∀ l r, m l r → kl l = kr r) (hmerge : KeyedMerge kl kr kt merge)
    (keepLeft keepRight : Bool) :
    Keyed kl kr kt fun L R => (leftMajor m keepLeft keepRight L R).map merge := by
  refine keyed_of_filter hmerge ?_ (fun L R h => ?_) ?_ hm
  · cases keepLeft <;> cases keepRight <;> rfl
  · exact none_not_mem_rightMajor m keepLeft keepRight L R
      ((rightMajor_perm_leftMajor m keepLeft keepRight L R).mem_iff.mpr h)
  · intro p q L R h
    exact filter_leftMajor fun l _ r _ => h l r

end Orders

end Routing
