import Mathlib.Data.List.Perm.Basic
import Mathlib.Data.List.Range
import Mathlib.Data.Multiset.Bind

/-!
# Joining rows that match

A join of two lists pairs every row with every row of the other list it matches, and may keep the
rows of a side that match none. It is written here in two orders, with the rows of one list or of
the other outermost. Both have the same pairs, and both fall apart along any split of the rows that
keeps matching rows together.
-/

namespace Equijoin

variable {ρ σ ρ' σ' : Type*}

/-- The rows of the left list that match none of the right. -/
def unmatchedLeft (m : ρ → σ → Bool) (L : List ρ) (R : List σ) : List (Option ρ × Option σ) :=
  (L.filter fun l => !R.any (m l)).map fun l => (some l, none)

/-- The rows of the right list that match none of the left. -/
def unmatchedRight (m : ρ → σ → Bool) (L : List ρ) (R : List σ) : List (Option ρ × Option σ) :=
  (R.filter fun r => !L.any (m · r)).map fun r => (none, some r)

/-- The matches of each right row in turn, then the unmatched rows that are kept. -/
def rightMajor (m : ρ → σ → Bool) (keepLeft keepRight : Bool) (L : List ρ) (R : List σ) :
    List (Option ρ × Option σ) :=
  (R.flatMap fun r => (L.filter (m · r)).map fun l => (some l, some r)) ++
    ((if keepLeft then unmatchedLeft m L R else []) ++
      if keepRight then unmatchedRight m L R else [])

/-- What a left row is paired with: its matches, or nothing where it is kept without. -/
def partners (m : ρ → σ → Bool) (keepLeft : Bool) (R : List σ) (l : ρ) : List (Option σ) :=
  if R.any (m l) then (R.filter (m l)).map some else if keepLeft then [none] else []

/-- Each left row in turn with what it is paired with, then the right rows that are kept. -/
def leftMajor (m : ρ → σ → Bool) (keepLeft keepRight : Bool) (L : List ρ) (R : List σ) :
    List (Option ρ × Option σ) :=
  (L.flatMap fun l => (partners m keepLeft R l).map fun r => (some l, r)) ++
    if keepRight then unmatchedRight m L R else []

variable {m : ρ → σ → Bool} {keepLeft keepRight : Bool} {L : List ρ} {R : List σ}

/-! ### The pairs of a join -/

theorem mem_unmatchedLeft {p : Option ρ × Option σ} :
    p ∈ unmatchedLeft m L R ↔ ∃ l ∈ L, (∀ r ∈ R, m l r = false) ∧ p = (some l, none) := by
  unfold unmatchedLeft
  simp only [List.mem_map, List.mem_filter, Bool.not_eq_true', List.any_eq_false,
    Bool.not_eq_true, and_assoc]
  constructor
  · rintro ⟨l, hl, hnone, rfl⟩
    exact ⟨l, hl, hnone, rfl⟩
  · rintro ⟨l, hl, hnone, rfl⟩
    exact ⟨l, hl, hnone, rfl⟩

theorem mem_unmatchedRight {p : Option ρ × Option σ} :
    p ∈ unmatchedRight m L R ↔ ∃ r ∈ R, (∀ l ∈ L, m l r = false) ∧ p = (none, some r) := by
  unfold unmatchedRight
  simp only [List.mem_map, List.mem_filter, Bool.not_eq_true', List.any_eq_false,
    Bool.not_eq_true, and_assoc]
  constructor
  · rintro ⟨r, hr, hnone, rfl⟩
    exact ⟨r, hr, hnone, rfl⟩
  · rintro ⟨r, hr, hnone, rfl⟩
    exact ⟨r, hr, hnone, rfl⟩

/-- A join has the pairs that match, and of each side that is kept the rows that match none. -/
theorem mem_rightMajor {p : Option ρ × Option σ} :
    p ∈ rightMajor m keepLeft keepRight L R ↔
      (∃ l ∈ L, ∃ r ∈ R, m l r ∧ p = (some l, some r)) ∨
      (keepLeft ∧ ∃ l ∈ L, (∀ r ∈ R, m l r = false) ∧ p = (some l, none)) ∨
      (keepRight ∧ ∃ r ∈ R, (∀ l ∈ L, m l r = false) ∧ p = (none, some r)) := by
  have hmatched : (p ∈ R.flatMap fun r => (L.filter (m · r)).map fun l => (some l, some r)) ↔
      ∃ l ∈ L, ∃ r ∈ R, m l r ∧ p = (some l, some r) := by
    simp only [List.mem_flatMap, List.mem_map, List.mem_filter]
    constructor
    · rintro ⟨r, hr, l, ⟨hl, hm⟩, rfl⟩
      exact ⟨l, hl, r, hr, hm, rfl⟩
    · rintro ⟨l, hl, r, hr, hm, rfl⟩
      exact ⟨r, hr, l, ⟨hl, hm⟩, rfl⟩
  unfold rightMajor
  rw [List.mem_append, List.mem_append, hmatched]
  cases keepLeft <;> cases keepRight <;>
    simp [mem_unmatchedLeft, mem_unmatchedRight]

/-- Where the rows of each list differ, so do the pairs of their join. -/
theorem nodup_rightMajor (hL : L.Nodup) (hR : R.Nodup) :
    (rightMajor m keepLeft keepRight L R).Nodup := by
  have hmatched : (R.flatMap fun r => (L.filter (m · r)).map fun l => (some l, some r)).Nodup := by
    refine List.nodup_flatMap.mpr ⟨fun r _ => ?_, ?_⟩
    · refine (hL.filter _).map fun l l' h => ?_
      exact Option.some.inj (congrArg Prod.fst h)
    · apply hR.imp
      intro r r' hne p hp hp'
      obtain ⟨l, -, rfl⟩ := List.mem_map.mp hp
      obtain ⟨l', -, h⟩ := List.mem_map.mp hp'
      exact hne (Option.some.inj (congrArg Prod.snd h)).symm
  have hleft : (unmatchedLeft m L R).Nodup :=
    (hL.filter _).map fun l l' h => Option.some.inj (congrArg Prod.fst h)
  have hright : (unmatchedRight m L R).Nodup :=
    (hR.filter _).map fun r r' h => Option.some.inj (congrArg Prod.snd h)
  have hkeptLeft : (if keepLeft then unmatchedLeft m L R else []).Nodup := by
    split
    · exact hleft
    · exact List.nodup_nil
  have hkeptRight : (if keepRight then unmatchedRight m L R else []).Nodup := by
    split
    · exact hright
    · exact List.nodup_nil
  refine hmatched.append (hkeptLeft.append hkeptRight ?_) ?_
  · intro p hp hp'
    cases keepLeft <;> cases keepRight <;> simp [mem_unmatchedLeft, mem_unmatchedRight] at hp hp'
    obtain ⟨l, -, -, rfl⟩ := hp
    simp at hp'
  · intro p hp hp'
    obtain ⟨r, -, hl⟩ := List.mem_flatMap.mp hp
    obtain ⟨l, -, rfl⟩ := List.mem_map.mp hl
    cases keepLeft <;> cases keepRight <;> simp [mem_unmatchedLeft, mem_unmatchedRight] at hp'

/-! ### Both orders -/

theorem partners_perm (l : ρ) : (partners m keepLeft R l).map (fun r => (some l, r)) =
    (R.filter (m l)).map (fun r => (some l, some r)) ++
      if keepLeft && !R.any (m l) then [(some l, none)] else [] := by
  unfold partners
  cases hany : R.any (m l) with
  | true => simp
  | false =>
      have hnone : R.filter (m l) = [] := by
        rw [List.filter_eq_nil_iff]
        intro r hr
        simpa using (List.any_eq_false.mp hany) r hr
      cases keepLeft <;> simp [hnone]

theorem flatMap_guard {α β : Type*} (p : α → Bool) (f : α → List β) (xs : List α) :
    (xs.flatMap fun x => if p x then f x else []) = (xs.filter p).flatMap f := by
  induction xs with
  | nil => rfl
  | cons x xs ih =>
      rw [List.flatMap_cons, ih, List.filter_cons]
      cases p x <;> rfl

theorem map_guard {α β : Type*} (p : α → Bool) (f : α → β) (xs : List α) :
    (xs.filter p).map f = xs.flatMap fun x => if p x then [f x] else [] := by
  rw [flatMap_guard, List.map_eq_flatMap]

/-- The matches are the same with the rows of either list outermost. -/
theorem matches_perm (m : ρ → σ → Bool) (L : List ρ) (R : List σ) :
    (R.flatMap fun r => (L.filter (m · r)).map fun l => (some l, some r)).Perm
      (L.flatMap fun l => (R.filter (m l)).map fun r => (some l, some r)) := by
  simp only [map_guard]
  rw [← Multiset.coe_eq_coe, ← Multiset.coe_bind, ← Multiset.coe_bind]
  simp only [← Multiset.coe_bind]
  exact Multiset.bind_bind _ _

/-- **Either order.** A join has the same pairs with the rows of either list outermost. -/
theorem rightMajor_perm_leftMajor (m : ρ → σ → Bool) (keepLeft keepRight : Bool) (L : List ρ)
    (R : List σ) :
    (rightMajor m keepLeft keepRight L R).Perm (leftMajor m keepLeft keepRight L R) := by
  have hleft : (if keepLeft then unmatchedLeft m L R else []) =
      L.flatMap fun l => if keepLeft && !R.any (m l) then [(some l, none)] else [] := by
    cases keepLeft with
    | true =>
        rw [if_pos rfl, unmatchedLeft, map_guard]
        rfl
    | false => simp
  unfold rightMajor leftMajor
  simp only [partners_perm]
  rw [← List.append_assoc, hleft]
  apply List.Perm.append_right
  exact ((matches_perm m L R).append_right _).trans (List.flatMap_append_perm _ _ _)

/-! ### Other rows -/

theorem unmatchedRight_map (f : ρ' → ρ) (g : σ' → σ) (L : List ρ') (R : List σ') :
    unmatchedRight m (L.map f) (R.map g) = (unmatchedRight (fun l r => m (f l) (g r)) L R).map
      (Prod.map (Option.map f) (Option.map g)) := by
  unfold unmatchedRight
  rw [List.filter_map, List.map_map, List.map_map]
  simp only [Function.comp_def, List.any_map]
  rfl

/-- Joining images of rows. -/
theorem rightMajor_map (f : ρ' → ρ) (g : σ' → σ) (L : List ρ') (R : List σ') :
    rightMajor m keepLeft keepRight (L.map f) (R.map g) =
      (rightMajor (fun l r => m (f l) (g r)) keepLeft keepRight L R).map
        (Prod.map (Option.map f) (Option.map g)) := by
  have hmatched : ((R.map g).flatMap fun r =>
      ((L.map f).filter (m · r)).map fun l => (some l, some r)) =
        (R.flatMap fun r => (L.filter fun l => m (f l) (g r)).map fun l => (some l, some r)).map
          (Prod.map (Option.map f) (Option.map g)) := by
    rw [List.flatMap_map, List.map_flatMap]
    apply List.flatMap_congr
    intro r _
    rw [List.filter_map, List.map_map, List.map_map]
    rfl
  have hleft : unmatchedLeft m (L.map f) (R.map g) =
      (unmatchedLeft (fun l r => m (f l) (g r)) L R).map
        (Prod.map (Option.map f) (Option.map g)) := by
    unfold unmatchedLeft
    rw [List.filter_map, List.map_map, List.map_map]
    simp only [Function.comp_def, List.any_map]
    rfl
  unfold rightMajor
  rw [hmatched, hleft, unmatchedRight_map, List.map_append, List.map_append]
  cases keepLeft <;> cases keepRight <;> rfl

theorem leftMajor_map (f : ρ' → ρ) (g : σ' → σ) (L : List ρ') (R : List σ') :
    leftMajor m keepLeft keepRight (L.map f) (R.map g) =
      (leftMajor (fun l r => m (f l) (g r)) keepLeft keepRight L R).map
        (Prod.map (Option.map f) (Option.map g)) := by
  have hpartners : ∀ l : ρ', partners m keepLeft (R.map g) (f l) =
      (partners (fun l r => m (f l) (g r)) keepLeft R l).map (Option.map g) := by
    intro l
    unfold partners
    rw [List.any_map, List.filter_map, List.map_map]
    simp only [Function.comp_def]
    split
    · rw [List.map_map]
      rfl
    · cases keepLeft <;> rfl
  have hrows : ((L.map f).flatMap fun l => (partners m keepLeft (R.map g) l).map fun r =>
      (some l, r)) =
        (L.flatMap fun l => (partners (fun l r => m (f l) (g r)) keepLeft R l).map fun r =>
          (some l, r)).map (Prod.map (Option.map f) (Option.map g)) := by
    rw [List.flatMap_map, List.map_flatMap]
    apply List.flatMap_congr
    intro l _
    rw [hpartners, List.map_map, List.map_map]
    rfl
  unfold leftMajor
  rw [hrows, unmatchedRight_map, List.map_append]
  cases keepRight <;> rfl

/-! ### Along a split -/

/-- Whether a pair is of some left rows, or where it has no left row of some right rows. -/
def within (p : ρ → Bool) (q : σ → Bool) : Option ρ × Option σ → Bool
  | (some l, _) => p l
  | (none, some r) => q r
  | (none, none) => false

section Split

variable {p : ρ → Bool} {q : σ → Bool}

/-- A row's matches are on its side of the split. -/
theorem any_filter_right (hsplit : ∀ l ∈ L, ∀ r ∈ R, m l r → p l = q r) {l : ρ} (hl : l ∈ L)
    (hp : p l) : (R.filter q).any (m l) = R.any (m l) := by
  rw [Bool.eq_iff_iff, List.any_eq_true, List.any_eq_true]
  constructor
  · rintro ⟨r, hr, hm⟩
    exact ⟨r, (List.mem_filter.mp hr).1, hm⟩
  · rintro ⟨r, hr, hm⟩
    exact ⟨r, List.mem_filter.mpr ⟨hr, hsplit l hl r hr hm ▸ hp⟩, hm⟩

theorem any_filter_left (hsplit : ∀ l ∈ L, ∀ r ∈ R, m l r → p l = q r) {r : σ} (hr : r ∈ R)
    (hq : q r) : (L.filter p).any (m · r) = L.any (m · r) := by
  rw [Bool.eq_iff_iff, List.any_eq_true, List.any_eq_true]
  constructor
  · rintro ⟨l, hl, hm⟩
    exact ⟨l, (List.mem_filter.mp hl).1, hm⟩
  · rintro ⟨l, hl, hm⟩
    exact ⟨l, List.mem_filter.mpr ⟨hl, (hsplit l hl r hr hm).symm ▸ hq⟩, hm⟩

theorem filter_matches (hsplit : ∀ l ∈ L, ∀ r ∈ R, m l r → p l = q r) :
    (R.flatMap fun r => (L.filter (m · r)).map fun l => (some l, some r)).filter (within p q) =
      (R.filter q).flatMap fun r => ((L.filter p).filter (m · r)).map fun l =>
        (some l, some r) := by
  rw [List.filter_flatMap, ← flatMap_guard]
  apply List.flatMap_congr
  intro r hr
  rw [List.filter_map, List.filter_filter]
  have hwithin : (within p q ∘ fun l => (some l, some r)) = p := rfl
  rw [hwithin]
  cases hq : q r with
  | true =>
      rw [if_pos rfl, List.filter_filter]
      congr 2
      funext l
      exact Bool.and_comm _ _
  | false =>
      rw [if_neg Bool.false_ne_true, List.map_eq_nil_iff, List.filter_eq_nil_iff]
      intro l hl hboth
      rw [Bool.and_eq_true] at hboth
      have hp := hsplit l hl r hr hboth.2
      rw [hboth.1, hq] at hp
      cases hp

theorem filter_unmatchedLeft (hsplit : ∀ l ∈ L, ∀ r ∈ R, m l r → p l = q r) :
    (unmatchedLeft m L R).filter (within p q) = unmatchedLeft m (L.filter p) (R.filter q) := by
  unfold unmatchedLeft
  rw [List.filter_map, List.filter_filter, List.filter_filter]
  congr 1
  apply List.filter_congr
  intro l hl
  change (p l && !R.any (m l)) = (!(R.filter q).any (m l) && p l)
  cases hp : p l with
  | true => rw [any_filter_right hsplit hl hp, Bool.and_comm]
  | false => rw [Bool.false_and, Bool.and_false]

theorem filter_unmatchedRight (hsplit : ∀ l ∈ L, ∀ r ∈ R, m l r → p l = q r) :
    (unmatchedRight m L R).filter (within p q) = unmatchedRight m (L.filter p) (R.filter q) := by
  unfold unmatchedRight
  rw [List.filter_map, List.filter_filter, List.filter_filter]
  congr 1
  apply List.filter_congr
  intro r hr
  change (q r && !L.any (m · r)) = (!(L.filter p).any (m · r) && q r)
  cases hq : q r with
  | true => rw [any_filter_left hsplit hr hq, Bool.and_comm]
  | false => rw [Bool.false_and, Bool.and_false]

/-- **Along a split.** The pairs of some rows are the join of these rows, where rows that match are
both among them or both not. -/
theorem filter_rightMajor (hsplit : ∀ l ∈ L, ∀ r ∈ R, m l r → p l = q r) :
    (rightMajor m keepLeft keepRight L R).filter (within p q) =
      rightMajor m keepLeft keepRight (L.filter p) (R.filter q) := by
  unfold rightMajor
  rw [List.filter_append, List.filter_append, filter_matches hsplit]
  congr 2
  · split
    · exact filter_unmatchedLeft hsplit
    · rfl
  · split
    · exact filter_unmatchedRight hsplit
    · rfl

theorem filter_leftMajor (hsplit : ∀ l ∈ L, ∀ r ∈ R, m l r → p l = q r) :
    (leftMajor m keepLeft keepRight L R).filter (within p q) =
      leftMajor m keepLeft keepRight (L.filter p) (R.filter q) := by
  have hmatches : ∀ l ∈ L, p l → (R.filter q).filter (m l) = R.filter (m l) := by
    intro l hl hp
    rw [List.filter_filter]
    apply List.filter_congr
    intro r hr
    cases hm : m l r with
    | true => rw [← hsplit l hl r hr hm, hp, Bool.and_self]
    | false => rfl
  have hrows : (L.flatMap fun l => (partners m keepLeft R l).map fun r => (some l, r)).filter
      (within p q) = (L.filter p).flatMap fun l =>
        (partners m keepLeft (R.filter q) l).map fun r => (some l, r) := by
    rw [List.filter_flatMap, ← flatMap_guard]
    apply List.flatMap_congr
    intro l hl
    rw [List.filter_map]
    change ((partners m keepLeft R l).filter fun _ => p l).map _ = _
    cases hp : p l with
    | true =>
        rw [List.filter_true, if_pos rfl]
        unfold partners
        rw [any_filter_right hsplit hl hp, hmatches l hl hp]
    | false =>
        rw [List.filter_false, if_neg Bool.false_ne_true]
        rfl
  unfold leftMajor
  rw [List.filter_append, hrows]
  congr 1
  split
  · exact filter_unmatchedRight hsplit
  · rfl

end Split

end Equijoin
