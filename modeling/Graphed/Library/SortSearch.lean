import Graphed.Library.Gathering
import Mathlib.Data.List.Flatten
import Mathlib.Data.List.Nodup
import Mathlib.Data.List.Perm.Basic
import Mathlib.Data.Prod.Lex
import Mathlib.Order.Basic
import Mathlib.Tactic.Ring

/-!
# Sorting and searching

A stable sort by positions and a binary search, as numerical libraries give them. The positions
between the two insertion points of a key are those that hold the key, in order; with runs of them
laid out by running sums, a cross product needs no loop.
-/

/-- A stable argument sort, a sort, and a search for the insertion points of a value. -/
structure SortSearch where
  argsort : ∀ {α : Type} [LinearOrder α], List α → List Nat
  sort : ∀ {α : Type} [LinearOrder α], List α → List α
  searchLeft : ∀ {α : Type} [LinearOrder α], List α → α → Nat
  searchRight : ∀ {α : Type} [LinearOrder α], List α → α → Nat
  argsort_perm : ∀ {α : Type} [LinearOrder α] (xs : List α),
    (argsort xs).Perm (List.range xs.length)
  argsort_stable : ∀ {α : Type} [LinearOrder α] (xs : List α),
    (argsort xs).Pairwise fun i j => ∀ x y, xs[i]? = some x → xs[j]? = some y →
      x < y ∨ x = y ∧ i < j
  sort_perm : ∀ {α : Type} [LinearOrder α] (xs : List α), (sort xs).Perm xs
  sort_sorted : ∀ {α : Type} [LinearOrder α] (xs : List α), (sort xs).Pairwise (· ≤ ·)
  searchLeft_spec : ∀ {α : Type} [LinearOrder α] {xs : List α} (v : α), xs.Pairwise (· ≤ ·) →
    searchLeft xs v ≤ xs.length ∧ (∀ x ∈ xs.take (searchLeft xs v), x < v) ∧
      ∀ x ∈ xs.drop (searchLeft xs v), v ≤ x
  searchRight_spec : ∀ {α : Type} [LinearOrder α] {xs : List α} (v : α), xs.Pairwise (· ≤ ·) →
    searchRight xs v ≤ xs.length ∧ (∀ x ∈ xs.take (searchRight xs v), x ≤ v) ∧
      ∀ x ∈ xs.drop (searchRight xs v), v < x

namespace SortSearch

/-! ### The run of a key -/

section Run

/-- Where a split leaves what a predicate holds for in front, it is as long as their count. -/
theorem countP_of_split {α : Type} {xs : List α} {p : α → Bool} {n : Nat} (hle : n ≤ xs.length)
    (htake : ∀ x ∈ xs.take n, p x) (hdrop : ∀ x ∈ xs.drop n, p x = false) :
    n = xs.countP p := by
  have hfront : (xs.take n).countP p = n := by
    rw [List.countP_eq_length.mpr htake, List.length_take, Nat.min_eq_left hle]
  have hback : (xs.drop n).countP p = 0 := by
    rw [List.countP_eq_zero]
    intro x hx
    rw [hdrop x hx]
    exact Bool.false_ne_true
  calc n = (xs.take n).countP p + (xs.drop n).countP p := by rw [hfront, hback, Nat.add_zero]
    _ = xs.countP p := by rw [← List.countP_append, List.take_append_drop]

variable {α ι : Type} [LinearOrder α] (S : SortSearch) {xs : List α}

theorem searchLeft_eq (hsorted : xs.Pairwise (· ≤ ·)) (v : α) :
    S.searchLeft xs v = xs.countP fun x => decide (x < v) := by
  obtain ⟨hle, htake, hdrop⟩ := S.searchLeft_spec v hsorted
  apply countP_of_split hle
  · intro x hx
    exact decide_eq_true (htake x hx)
  · intro x hx
    exact decide_eq_false (not_lt.mpr (hdrop x hx))

theorem searchRight_eq (hsorted : xs.Pairwise (· ≤ ·)) (v : α) :
    S.searchRight xs v = xs.countP fun x => decide (x ≤ v) := by
  obtain ⟨hle, htake, hdrop⟩ := S.searchRight_spec v hsorted
  apply countP_of_split hle
  · intro x hx
    exact decide_eq_true (htake x hx)
  · intro x hx
    exact decide_eq_false (not_le.mpr (hdrop x hx))

/-- What stands between the insertion points of a value, in a list sorted by a key. -/
theorem run_eq_filter (key : ι → α) (v : α) (is : List ι)
    (hsorted : (is.map key).Pairwise (· ≤ ·)) :
    (is.drop ((is.map key).countP fun x => decide (x < v))).take
      ((is.map key).countP (fun x => decide (x ≤ v)) -
        (is.map key).countP fun x => decide (x < v)) = is.filter fun i => key i = v := by
  induction is with
  | nil => rfl
  | cons i is ih =>
      rw [List.map_cons, List.pairwise_cons] at hsorted
      have hih := ih hsorted.2
      rw [List.map_cons, List.countP_cons, List.countP_cons, List.filter_cons]
      have hnone : v ≤ key i → (is.map key).countP (fun x => decide (x < v)) = 0 := by
        intro hle
        rw [List.countP_eq_zero]
        intro x hx
        rw [decide_eq_true_eq]
        exact not_lt.mpr (hle.trans (hsorted.1 x hx))
      rcases lt_trichotomy (key i) v with h | h | h
      · rw [if_pos (decide_eq_true h), if_pos (decide_eq_true h.le),
          if_neg (by simpa using h.ne), List.drop_succ_cons, Nat.add_sub_add_right, hih]
      · rw [hnone h.ge, if_pos (decide_eq_true h.le), if_neg (by simp [h]),
          if_pos (decide_eq_true h)]
        rw [hnone h.ge, Nat.sub_zero, List.drop_zero] at hih
        rw [Nat.add_zero, Nat.sub_zero, List.drop_zero, List.take_succ_cons, hih]
      · have hzero : (is.map key).countP (fun x => decide (x ≤ v)) = 0 := by
          rw [List.countP_eq_zero]
          intro x hx
          rw [decide_eq_true_eq]
          exact not_le.mpr (lt_of_lt_of_le h (hsorted.1 x hx))
        rw [hzero, hnone h.le] at hih
        rw [hnone h.le, hzero, if_neg (by simpa using h), if_neg (by simpa using h.le),
          if_neg (by simpa using h.ne'), ← hih]
        rfl

/-- The positions of a value, in the order of a stable sort, are ascending. -/
theorem argsort_filter (xs : List α) (p : Nat → Bool)
    (hp : ∀ i j x y, p i → p j → xs[i]? = some x → xs[j]? = some y → x = y) :
    (S.argsort xs).filter p = (List.range xs.length).filter p := by
  have hperm : ((S.argsort xs).filter p).Perm ((List.range xs.length).filter p) :=
    (S.argsort_perm xs).filter p
  have hmem : ∀ i ∈ S.argsort xs, ∃ x, xs[i]? = some x := by
    intro i hi
    have hlt := List.mem_range.mp ((S.argsort_perm xs).mem_iff.mp hi)
    exact ⟨xs[i], List.getElem?_eq_getElem hlt⟩
  have hstable : ((S.argsort xs).filter p).Pairwise (· < ·) := by
    have hpair := (S.argsort_stable xs).filter p
    apply hpair.imp_of_mem
    intro i j hi hj h
    obtain ⟨hmemi, hpi⟩ := List.mem_filter.mp hi
    obtain ⟨hmemj, hpj⟩ := List.mem_filter.mp hj
    obtain ⟨x, hx⟩ := hmem i hmemi
    obtain ⟨y, hy⟩ := hmem j hmemj
    have heq := hp i j x y hpi hpj hx hy
    exact ((h x y hx hy).resolve_left fun hlt => absurd heq hlt.ne).2
  exact hperm.eq_of_pairwise (fun i j _ _ h h' => absurd h (Nat.lt_asymm h')) hstable
    (List.pairwise_lt_range.filter p)

end Run

/-! ### Runs laid out by running sums -/

/-- Each element as often as its count. -/
def repeats {α : Type} (xs : List α) (counts : List Int) : List α :=
  (xs.zip counts).flatMap fun x => List.replicate x.2.toNat x.1

/-- The positions of runs that start at `starts` and have these lengths, run after run. -/
def runPositions (starts counts : List Int) : List Int :=
  List.zipWith (· + ·) (repeats starts counts)
    (List.zipWith (· - ·) ((List.range counts.sum.toNat).map Int.ofNat)
      (repeats (List.zipWith (· - ·) (Gathering.cumsum counts) counts) counts))

section Layout

variable {ι α β γ : Type}

theorem zipWith_flatMap (h : α → β → γ) (f : ι → List α) (g : ι → List β)
    (hlength : ∀ i, (f i).length = (g i).length) (is : List ι) :
    List.zipWith h (is.flatMap f) (is.flatMap g) = is.flatMap fun i =>
      List.zipWith h (f i) (g i) := by
  induction is with
  | nil => rfl
  | cons i is ih =>
      rw [List.flatMap_cons, List.flatMap_cons, List.flatMap_cons,
        List.zipWith_append (hlength i), ih]

theorem repeats_map (f : ι → α) (count : ι → Nat) (is : List ι) :
    repeats (is.map f) (is.map fun i => (count i : Int)) =
      is.flatMap fun i => List.replicate (count i) (f i) := by
  unfold repeats
  rw [List.zip_map', List.flatMap_map]
  rfl

theorem sum_counts (count : ι → Nat) (is : List ι) :
    (is.map fun i => (count i : Int)).sum = (is.map count).sum := by
  induction is with
  | nil => rfl
  | cons i is ih =>
      rw [List.map_cons, List.sum_cons, ih, List.map_cons, List.sum_cons]
      push_cast
      rfl

/-- Each position less where its run starts, from a first position on. -/
theorem range_sub_bases (count : ι → Nat) (is : List ι) (s : Nat) :
    List.zipWith (· - ·) ((List.range' s (is.map count).sum).map Int.ofNat)
      (repeats ((List.zipWith (· - ·) (Gathering.cumsum (is.map fun i => (count i : Int)))
        (is.map fun i => (count i : Int))).map ((s : Int) + ·)) (is.map fun i => (count i : Int))) =
      is.flatMap fun i => (List.range (count i)).map Int.ofNat := by
  induction is generalizing s with
  | nil => rfl
  | cons i is ih =>
      have hbases : (List.zipWith (· - ·)
          (Gathering.cumsum ((i :: is).map fun i => (count i : Int)))
          ((i :: is).map fun i => (count i : Int))).map ((s : Int) + ·) =
            (s : Int) :: (List.zipWith (· - ·) (Gathering.cumsum (is.map fun i => (count i : Int)))
              (is.map fun i => (count i : Int))).map (((s + count i : Nat) : Int) + ·) := by
        rw [List.map_cons, Gathering.cumsum, List.zipWith_cons_cons, List.map_cons, sub_self,
          add_zero, List.zipWith_map_left, List.map_zipWith, List.map_zipWith]
        congr 2
        funext a b
        push_cast
        ring
      have hfirst : List.zipWith (· - ·) ((List.range' s (count i)).map Int.ofNat)
          (List.replicate (count i) (s : Int)) = (List.range (count i)).map Int.ofNat := by
        apply List.ext_getElem (by simp)
        intro t ht ht'
        simp
      rw [hbases, List.map_cons, List.sum_cons, ← List.range'_append_1, List.map_append,
        List.map_cons, List.flatMap_cons, ← ih (s + count i), ← hfirst]
      unfold repeats
      rw [List.zip_cons_cons, List.flatMap_cons, Int.toNat_natCast,
        List.zipWith_append (by simp)]

/-- The positions are those of the runs, one after the other. -/
theorem runPositions_map (start count : ι → Nat) (is : List ι) :
    runPositions (is.map fun i => (start i : Int)) (is.map fun i => (count i : Int)) =
      is.flatMap fun i => (List.range (count i)).map fun t : Nat =>
        ((start i + t : Nat) : Int) := by
  have hinner := range_sub_bases count is 0
  simp only [Nat.cast_zero, zero_add, List.map_id', ← List.range_eq_range'] at hinner
  unfold runPositions
  rw [sum_counts, Int.toNat_natCast, hinner, repeats_map,
    zipWith_flatMap _ _ _ fun i => by simp]
  apply List.flatMap_congr
  intro i _
  apply List.ext_getElem (by simp)
  intro t ht ht'
  simp

end Layout

/-! ### One by merging -/

/-- Values with their positions, merged in order. -/
def merged {α : Type} [LinearOrder α] (xs : List α) : List (α × Nat) :=
  xs.zipIdx.mergeSort fun p q => decide (toLex p ≤ toLex q)

theorem merged_perm {α : Type} [LinearOrder α] (xs : List α) : (merged xs).Perm xs.zipIdx :=
  List.mergeSort_perm _ _

theorem merged_sorted {α : Type} [LinearOrder α] (xs : List α) :
    (merged xs).Pairwise fun p q => toLex p < toLex q := by
  have hle : (merged xs).Pairwise fun p q => toLex p ≤ toLex q := by
    have h := @List.pairwise_mergeSort _ (fun p q : α × Nat => decide (toLex p ≤ toLex q))
      (fun p q r hpq hqr => decide_eq_true ((of_decide_eq_true hpq).trans (of_decide_eq_true hqr)))
      (fun p q => by simpa using le_total (toLex p) (toLex q)) xs.zipIdx
    exact h.imp of_decide_eq_true
  have hnodup : (merged xs).Nodup := by
    rw [(merged_perm xs).nodup_iff]
    refine List.Nodup.of_map Prod.snd ?_
    rw [List.zipIdx_map_snd]
    exact List.nodup_range'
  exact hle.imp₂ (fun p q hpq hne => lt_of_le_of_ne hpq fun h => hne (toLex_inj.mp h)) hnodup

/-- What a predicate holds for is in front, where it holds for what stands before. -/
theorem takeWhile_split {α : Type} {p : α → Bool} {xs : List α}
    (hfront : xs.Pairwise fun x y => p y → p x) :
    (xs.takeWhile p).length ≤ xs.length ∧ (∀ x ∈ xs.take (xs.takeWhile p).length, p x) ∧
      ∀ x ∈ xs.drop (xs.takeWhile p).length, p x = false := by
  induction xs with
  | nil => exact ⟨Nat.le_refl 0, by simp, by simp⟩
  | cons x xs ih =>
      rw [List.pairwise_cons] at hfront
      obtain ⟨hle, htake, hdrop⟩ := ih hfront.2
      rw [List.takeWhile_cons]
      cases hx : p x with
      | true =>
          refine ⟨Nat.succ_le_succ hle, ?_, hdrop⟩
          intro y hy
          exact (List.mem_cons.mp hy).elim (fun h => h ▸ hx) (htake y)
      | false =>
          refine ⟨Nat.zero_le _, fun y hy => absurd hy List.not_mem_nil, ?_⟩
          intro y hy
          rcases List.mem_cons.mp hy with rfl | hmem
          · exact hx
          · refine Bool.eq_false_iff.mpr fun hpy => ?_
            rw [hfront.1 y hmem hpy] at hx
            cases hx

/-- Sorting by merging, and searching from the front. -/
def merging : SortSearch where
  argsort xs := (merged xs).map Prod.snd
  sort xs := (merged xs).map Prod.fst
  searchLeft xs v := (xs.takeWhile fun x => decide (x < v)).length
  searchRight xs v := (xs.takeWhile fun x => decide (x ≤ v)).length
  argsort_perm xs := by
    have h := (merged_perm xs).map Prod.snd
    rwa [List.zipIdx_map_snd, ← List.range_eq_range'] at h
  argsort_stable xs := by
    rw [List.pairwise_map]
    apply (merged_sorted xs).imp_of_mem
    intro p q hp hq hlt x y hx hy
    have hpx := List.mem_zipIdx_iff_getElem?.mp ((merged_perm xs).mem_iff.mp hp)
    have hqy := List.mem_zipIdx_iff_getElem?.mp ((merged_perm xs).mem_iff.mp hq)
    rw [hpx, Option.some.injEq] at hx
    rw [hqy, Option.some.injEq] at hy
    rw [← hx, ← hy]
    exact Prod.Lex.toLex_lt_toLex.mp hlt
  sort_perm xs := by
    have h := (merged_perm xs).map Prod.fst
    rwa [List.zipIdx_map_fst] at h
  sort_sorted xs := by
    rw [List.pairwise_map]
    exact (merged_sorted xs).imp fun hlt =>
      (Prod.Lex.toLex_lt_toLex.mp hlt).elim le_of_lt fun h => h.1.le
  searchLeft_spec v hsorted := by
    obtain ⟨hle, htake, hdrop⟩ := takeWhile_split (p := fun x => decide (x < v))
      (hsorted.imp fun h hy => decide_eq_true (h.trans_lt (of_decide_eq_true hy)))
    exact ⟨hle, fun x hx => of_decide_eq_true (htake x hx),
      fun x hx => not_lt.mp (of_decide_eq_false (hdrop x hx))⟩
  searchRight_spec v hsorted := by
    obtain ⟨hle, htake, hdrop⟩ := takeWhile_split (p := fun x => decide (x ≤ v))
      (hsorted.imp fun h hy => decide_eq_true (h.trans (of_decide_eq_true hy)))
    exact ⟨hle, fun x hx => of_decide_eq_true (htake x hx),
      fun x hx => not_le.mp (of_decide_eq_false (hdrop x hx))⟩

end SortSearch
