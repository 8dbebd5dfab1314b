import Graphed.Numpy.Reductions

/-!
# Extrema over a tree

Python's `min` and `max` keep their first argument unless the second is strictly further out, and
nothing compares with NaN. Over a tree the result is NaN just when what stands leftmost is; without
NaN it is the extremum.
-/

namespace Graphed

namespace Num

open CombineTree

variable {α β : Type}

/-- The first unless the second is strictly further out. -/
def pick (le : α → α → Prop) [DecidableRel le] : Num α → Num α → Num α
  | num a, num b => if le b a then num a else num b
  | a, _ => a

theorem min2_eq_pick [LinearOrder α] : (min2 : Num α → Num α → Num α) = pick (· ≥ ·) := by
  funext a b
  cases a with
  | nan => cases b <;> rfl
  | num a =>
      cases b with
      | nan => rfl
      | num b =>
          change (if decide (b < a) = true then num b else num a) = if b ≥ a then num a else num b
          by_cases h : b < a
          · rw [if_pos (decide_eq_true h), if_neg (not_le.mpr h)]
          · rw [if_neg (by simpa using h), if_pos (not_lt.mp h)]

theorem max2_eq_pick [LinearOrder α] : (max2 : Num α → Num α → Num α) = pick (· ≤ ·) := by
  funext a b
  cases a with
  | nan => cases b <;> rfl
  | num a =>
      cases b with
      | nan => rfl
      | num b =>
          change (if decide (a < b) = true then num b else num a) = if b ≤ a then num a else num b
          by_cases h : a < b
          · rw [if_pos (decide_eq_true h), if_neg (not_le.mpr h)]
          · rw [if_neg (by simpa using h), if_pos (not_lt.mp h)]

section Pick

variable {le : α → α → Prop} [DecidableRel le] {last : α}

theorem pick_eq_nan {a b : Num α} : pick le a b = .nan ↔ a = .nan := by
  cases a with
  | nan => cases b <;> simp [pick]
  | num a =>
      cases b with
      | nan => simp [pick]
      | num b =>
          change (if le b a then num a else num b) = nan ↔ _
          split_ifs <;> simp

/-- **NaN over a tree** comes from its leftmost state alone. -/
theorem fold_pick_eq_nan (t : CombineTree (Num α)) :
    t.fold (pick le) (.num last) = .nan ↔ t.first = some .nan := by
  induction t with
  | leaf a => simp [fold, first]
  | empty => simp [fold, first]
  | node left right ihl _ =>
      rw [CombineTree.fold, pick_eq_nan, ihl]
      rfl

/-- Without NaN a tree holds the furthest of its states, or the last number if it has none. -/
theorem fold_pick_numbers (htotal : ∀ a b, le a b ∨ le b a)
    (htrans : ∀ a b c, le a b → le b c → le a c) (hanti : ∀ a b, le a b → le b a → a = b)
    (hlast : ∀ a, le last a) {t : CombineTree (Num α)}
    (hnan : .nan ∉ t.leaves) :
    ∃ x, t.fold (pick le) (.num last) = .num x ∧ (∀ y, .num y ∈ t.leaves → le y x) ∧
      (.num x ∈ t.leaves ∨ t.leaves = [] ∧ x = last) := by
  induction t with
  | leaf a =>
      cases a with
      | nan => exact absurd (List.mem_singleton.mpr rfl) hnan
      | num a =>
          refine ⟨a, rfl, fun y hy => ?_, Or.inl (List.mem_singleton.mpr rfl)⟩
          obtain rfl := Num.num.inj (List.mem_singleton.mp hy)
          exact (htotal y y).elim id id
  | empty => exact ⟨last, rfl, nofun, Or.inr ⟨rfl, rfl⟩⟩
  | node left right ihl ihr =>
      obtain ⟨a, hfolda, hlea, ha⟩ := ihl fun h => hnan (List.mem_append_left _ h)
      obtain ⟨b, hfoldb, hleb, hb⟩ := ihr fun h => hnan (List.mem_append_right _ h)
      have hfold : (node left right).fold (pick le) (.num last) =
          if le b a then .num a else .num b := by
        rw [CombineTree.fold, hfolda, hfoldb]
        rfl
      by_cases hle : le b a
      · refine ⟨a, by rw [hfold, if_pos hle], fun y hy => ?_, ?_⟩
        · exact (List.mem_append.mp hy).elim (hlea y) fun hy => htrans y b a (hleb y hy) hle
        · rcases ha with ha | ⟨hnil, rfl⟩
          · exact Or.inl (List.mem_append_left _ ha)
          · rcases hb with hb | ⟨hnil', -⟩
            · rw [hanti a b (hlast b) hle]
              exact Or.inl (List.mem_append_right _ hb)
            · exact Or.inr ⟨by rw [leaves, hnil, hnil']; rfl, rfl⟩
      · have hle' : le a b := (htotal a b).resolve_right hle
        refine ⟨b, by rw [hfold, if_neg hle], fun y hy => ?_, ?_⟩
        · exact (List.mem_append.mp hy).elim (fun hy => htrans y a b (hlea y hy) hle') (hleb y)
        · rcases hb with hb | ⟨-, rfl⟩
          · exact Or.inl (List.mem_append_right _ hb)
          · exact absurd (hlast a) hle

end Pick

end Num

namespace Reductions

open CombineTree Num

variable {K : Type}

/-- Chunks that have an extremum, and NaN only where the tree sees it. -/
def ExtremaFaithful (t : CombineTree (List (Num K))) (pieces : List (List (Num K))) : Prop :=
  pieces ≠ [] ∧ (pieces.flatten = [] ∨ (∀ c ∈ pieces, c ≠ []) ∧
    (.nan ∈ pieces.flatten → ∃ c, t.first = some c ∧ .nan ∈ c))

/-- An order by how far out numbers are. -/
structure Outward {α : Type} (le : α → α → Prop) : Prop where
  total : ∀ a b, le a b ∨ le b a
  trans : ∀ a b c, le a b → le b c → le a c
  anti : ∀ a b, le a b → le b a → a = b

theorem outward_le {α : Type} [LinearOrder α] : Outward ((· ≤ ·) : α → α → Prop) :=
  ⟨le_total, fun _ _ _ => le_trans, fun _ _ => le_antisymm⟩

theorem outward_ge {α : Type} [LinearOrder α] : Outward ((· ≥ ·) : α → α → Prop) :=
  ⟨fun a b => le_total b a, fun _ _ _ hab hbc => le_trans hbc hab,
    fun _ _ hab hba => le_antisymm hba hab⟩

section Extremum

variable {le : K → K → Prop} [DecidableRel le] {β : Type} {leβ : β → β → Prop} [DecidableRel leβ]
  {inject : K → β} {last : β} {fin : Num β → Statistic K} {t : CombineTree (List (Num K))}
  {pieces : List (List (Num K))}

/-- The extremum of an array; an array of size zero has none. -/
def npExtremum (le : K → K → Prop) [DecidableRel le] (x : List (Num K)) : Except Raised (Num K) :=
  (extremeOf le x).elim (.error emptyExtremum) .ok

/-- The extremum of a chunk, among numbers with a last one. -/
def extremumChunk (le : K → K → Prop) [DecidableRel le] (inject : K → β) (x : List (Num K)) :
    Except Raised (Num β) :=
  (npExtremum le x).map (Num.map inject)

/-- The state of a chunk that has one. -/
def extremumState (le : K → K → Prop) [DecidableRel le] (inject : K → β) (x : List (Num K)) :
    Num β :=
  ((extremeOf le x).getD .nan).map inject

theorem extremumChunk_nil :
    extremumChunk le inject ([] : List (Num K)) = .error emptyExtremum := rfl

theorem extremumChunk_of_ne_nil (inject : K → β) (hle : Outward le) {x : List (Num K)}
    (h : x ≠ []) :
    extremumChunk le inject x = .ok (extremumState le inject x) ∧
      ∃ v, extremeOf le x = some v ∧ Extreme le x v := by
  obtain ⟨a, rest, rfl⟩ := List.exists_cons_of_ne_nil h
  obtain ⟨v, hv, hextreme⟩ := extremeOf_cons hle.total hle.trans a rest
  refine ⟨?_, v, hv, hextreme⟩
  unfold extremumChunk npExtremum extremumState
  rw [hv]
  rfl

theorem extremumState_eq_nan (hle : Outward le) {x : List (Num K)} (h : x ≠ []) :
    extremumState le inject x = .nan ↔ .nan ∈ x := by
  obtain ⟨-, v, hv, hextreme⟩ := extremumChunk_of_ne_nil inject hle h
  unfold extremumState
  rw [hv, Option.getD_some]
  rcases hextreme with ⟨hmem, rfl⟩ | ⟨hnot, y, rfl, -, -⟩
  · exact iff_of_true rfl hmem
  · exact iff_of_false nofun hnot

/-- Chunks that are not empty all have their states. -/
theorem run_extremum (hle : Outward le) (hall : ∀ c ∈ t.leaves, c ≠ []) :
    t.run (extremumChunk le inject) (pick leβ) (.num last) =
      .ok ((t.map (extremumState le inject)).fold (pick leβ) (.num last)) :=
  run_eq_ok fun c hc => (extremumChunk_of_ne_nil inject hle (hall c hc)).1

theorem run_extremum_error (hle : Outward le) (h : [] ∈ t.leaves) :
    t.run (extremumChunk le inject) (pick leβ) (.num last) = .error emptyExtremum := by
  refine run_eq_error (f := extremumState le inject) (fun c _ => ?_) ⟨[], h, extremumChunk_nil⟩
  by_cases hc : c = []
  · subst hc
    exact Or.inr extremumChunk_nil
  · exact Or.inl (extremumChunk_of_ne_nil inject hle hc).1

/-- Without NaN the furthest of the chunks' states is the furthest of all entries. -/
theorem fold_extremum (hle : Outward le) (hleβ : Outward leβ) (hlast : ∀ b, leβ last b)
    (hinject : ∀ a b, leβ (inject a) (inject b) ↔ le a b) (hall : ∀ c ∈ t.leaves, c ≠ [])
    (hne : t.leaves ≠ []) (hnan : .nan ∉ t.leaves.flatten) :
    ∃ y, (t.map (extremumState le inject)).fold (pick leβ) (.num last) = .num (inject y) ∧
      Extreme le t.leaves.flatten (.num y) := by
  have hstates : .nan ∉ (t.map (extremumState le inject)).leaves := by
    rw [leaves_map]
    intro h
    obtain ⟨c, hc, hstate⟩ := List.mem_map.mp h
    exact hnan (List.mem_flatten.mpr ⟨c, hc, (extremumState_eq_nan hle (hall c hc)).mp hstate⟩)
  obtain ⟨x, hfold, hfurthest, hx⟩ :=
    fold_pick_numbers hleβ.total hleβ.trans hleβ.anti hlast hstates
  rw [leaves_map] at hx hfurthest
  have hmem := hx.resolve_right fun h => hne (List.map_eq_nil_iff.mp h.1)
  -- the furthest state is some chunk's, and every entry is no further than its chunk's
  have hnumber : ∀ c ∈ t.leaves, ∃ y, extremumState le inject c = .num (inject y) ∧ .num y ∈ c ∧
      ∀ z, .num z ∈ c → le z y := by
    intro c hc
    obtain ⟨-, v, hv, hextreme⟩ := extremumChunk_of_ne_nil inject hle (hall c hc)
    rcases hextreme with ⟨h, -⟩ | ⟨-, y, rfl, hy, hfar⟩
    · exact absurd (List.mem_flatten.mpr ⟨c, hc, h⟩) hnan
    · refine ⟨y, ?_, hy, hfar⟩
      unfold extremumState
      rw [hv]
      rfl
  obtain ⟨c, hc, hstate⟩ := List.mem_map.mp hmem
  obtain ⟨y, hy, hyc, -⟩ := hnumber c hc
  rw [hstate] at hy
  obtain rfl := Num.num.inj hy
  refine ⟨y, hfold, Or.inr ⟨hnan, y, rfl, List.mem_flatten.mpr ⟨c, hc, hyc⟩, fun z hz => ?_⟩⟩
  obtain ⟨d, hd, hzd⟩ := List.mem_flatten.mp hz
  obtain ⟨w, hw, -, hfar⟩ := hnumber d hd
  have hwy : le w y := (hinject w y).mp (hfurthest (inject w) (List.mem_map.mpr ⟨d, hd, hw⟩))
  exact hle.trans z w y (hfar z hzd) hwy

/-- **An extremum over a tree** is the array's just when it sees what it must. -/
theorem extremum_iff (hle : Outward le) (hleβ : Outward leβ) (hlast : ∀ b, leβ last b)
    (hinject : ∀ a b, leβ (inject a) (inject b) ↔ le a b)
    (hfin : ∀ s, fin s = .float .nan ↔ s = .nan)
    (hfloat : ∀ x, fin (.num (inject x)) = .float (.num x)) (hperm : t.leaves.Perm pieces) :
    (t.run (extremumChunk le inject) (pick leβ) (.num last) >>= fun s => .ok (fin s)) =
      (npExtremum le pieces.flatten).map .float ↔ ExtremaFaithful t pieces := by
  have hflatten := hperm.flatten
  unfold ExtremaFaithful
  by_cases hempty : pieces.flatten = []
  · have hreference : npExtremum le pieces.flatten = .error emptyExtremum := by
      rw [hempty]
      rfl
    rw [hreference]
    by_cases hpieces : pieces = []
    · have hleaves : t.leaves = [] := by rwa [hpieces, List.perm_nil] at hperm
      rw [run_extremum hle fun c hc => by rw [hleaves] at hc; cases hc]
      exact iff_of_false nofun fun h => h.1 hpieces
    · obtain ⟨c, hc⟩ := List.exists_mem_of_ne_nil pieces hpieces
      rw [List.flatten_eq_nil_iff] at hempty
      rw [run_extremum_error hle (hempty c hc ▸ hperm.mem_iff.mpr hc)]
      exact iff_of_true rfl ⟨hpieces, Or.inl (List.flatten_eq_nil_iff.mpr hempty)⟩
  · obtain ⟨-, v, hv, hextreme⟩ := extremumChunk_of_ne_nil inject hle hempty
    have hreference : npExtremum le pieces.flatten = .ok v := by
      unfold npExtremum
      rw [hv]
      rfl
    have hpieces : pieces ≠ [] := by
      rintro rfl
      exact hempty rfl
    rw [hreference]
    by_cases hall : ∀ c ∈ pieces, c ≠ []
    · have hleaves : ∀ c ∈ t.leaves, c ≠ [] := fun c hc => hall c (hperm.mem_iff.mp hc)
      rw [run_extremum hle hleaves]
      change Except.ok (fin _) = Except.ok (Statistic.float v) ↔ _
      rw [Except.ok.injEq]
      by_cases hnan : Num.nan ∈ pieces.flatten
      · obtain rfl : v = .nan := hextreme.elim And.right fun h => absurd hnan h.1
        rw [hfin, fold_pick_eq_nan, first_map, Option.map_eq_some_iff]
        constructor
        · rintro ⟨c, hc, hstate⟩
          have hmem := (extremumState_eq_nan hle (hleaves c (mem_of_first hc))).mp hstate
          exact ⟨hpieces, Or.inr ⟨hall, fun _ => ⟨c, hc, hmem⟩⟩⟩
        · rintro ⟨-, hnil | ⟨-, hfirst⟩⟩
          · exact absurd hnil hempty
          · obtain ⟨c, hc, hmem⟩ := hfirst hnan
            exact ⟨c, hc, (extremumState_eq_nan hle (hleaves c (mem_of_first hc))).mpr hmem⟩
      · have hne : t.leaves ≠ [] := by
          intro hnil
          rw [hnil] at hflatten
          exact hempty hflatten.nil_eq.symm
        obtain ⟨y, hfold, hy⟩ := fold_extremum hle hleβ hlast hinject hleaves hne
          fun h => hnan (hflatten.mem_iff.mp h)
        have hsame := (hy.congr fun x => hflatten.mem_iff).unique hle.anti hextreme
        rw [hfold, hfloat, hsame]
        exact iff_of_true rfl ⟨hpieces, Or.inr ⟨hall, fun h => absurd h hnan⟩⟩
    · obtain ⟨c, hc, rfl⟩ : ∃ c ∈ pieces, c = [] := by
        simpa using hall
      rw [run_extremum_error hle (hperm.mem_iff.mpr hc)]
      refine iff_of_false nofun ?_
      rintro ⟨-, hnil | ⟨hne, -⟩⟩
      · exact hempty hnil
      · exact hall hne

end Extremum

end Reductions

end Graphed
