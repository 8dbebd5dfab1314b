import Mathlib.Data.List.Nodup

/-!
# Dicts

A dict as the list of its items, in insertion order. Updating one with another keeps the places of
the keys it has. A dict with its keys in a given order is a function from these keys.
-/

namespace Graphed

variable {κ ν : Type} [BEq κ]

/-- One dict after another: of a key both have, the later item in the earlier's place. -/
def dictUpdate (old new : List (κ × ν)) : List (κ × ν) :=
  old.map (fun item => (item.1, (new.lookup item.1).getD item.2)) ++
    new.filter fun item => (old.lookup item.1).isNone

/-- The items of these keys, in their order. -/
def dictOf (names : List κ) (f : κ → Option ν) : List (κ × ν) :=
  names.filterMap fun name => (f name).map (name, ·)

/-- The value of a key, set to `v` where the dict has none. -/
def dictDefault (items : List (κ × ν)) (k : κ) (v : ν) : List (κ × ν) :=
  if (items.lookup k).isSome then items else items ++ [(k, v)]

variable [LawfulBEq κ] {k : κ}

theorem lookup_dictDefault_self (items : List (κ × ν)) (v : ν) :
    (dictDefault items k v).lookup k = some ((items.lookup k).getD v) := by
  unfold dictDefault
  cases hk : items.lookup k with
  | some w => simpa using hk
  | none => simp [List.lookup_append, hk]

omit [LawfulBEq κ] in
theorem lookup_dictDefault_of_some {items : List (κ × ν)} {k' : κ} {v w : ν}
    (h : items.lookup k = some w) : (dictDefault items k' v).lookup k = some w := by
  unfold dictDefault
  split_ifs
  · exact h
  · rw [List.lookup_append, h, Option.some_or]

/-- What a dict holds after a default is set: what it held, or the default where it held nothing. -/
theorem lookup_dictDefault_cases {items : List (κ × ν)} {k' : κ} {v w : ν}
    (h : (dictDefault items k' v).lookup k = some w) :
    items.lookup k = some w ∨ items.lookup k = none ∧ k = k' ∧ w = v := by
  unfold dictDefault at h
  split_ifs at h with hsome
  · exact Or.inl h
  · rw [List.lookup_append] at h
    cases hk : items.lookup k with
    | some u =>
        rw [hk, Option.some_or] at h
        exact Or.inl h
    | none =>
        rw [hk, Option.none_or] at h
        by_cases heq : k = k'
        · rw [heq, List.lookup_cons_self] at h
          exact Or.inr ⟨rfl, heq, (Option.some.inj h).symm⟩
        · have hne : (k == k') = false := by simpa using heq
          rw [List.lookup_cons, hne] at h
          cases h

omit [LawfulBEq κ] in
theorem mem_dictDefault {items : List (κ × ν)} {v : ν} {item : κ × ν}
    (h : item ∈ dictDefault items k v) :
    item ∈ items ∨ items.lookup k = none ∧ item = (k, v) := by
  unfold dictDefault at h
  split_ifs at h with hsome
  · exact Or.inl h
  · rcases List.mem_append.mp h with h | h
    · exact Or.inl h
    · exact Or.inr ⟨Option.not_isSome_iff_eq_none.mp hsome, List.mem_singleton.mp h⟩

theorem lookup_map_values (items : List (κ × ν)) (f : κ → ν → ν) :
    (items.map fun item => (item.1, f item.1 item.2)).lookup k = (items.lookup k).map (f k) := by
  induction items with
  | nil => rfl
  | cons item items ih =>
      rw [List.map_cons, List.lookup_cons, List.lookup_cons]
      by_cases h : k = item.1
      · subst h
        simp
      · have hne : (k == item.1) = false := by simpa using h
        rw [hne]
        exact ih

omit [LawfulBEq κ] in
theorem lookup_map_snd {μ : Type} (items : List (κ × ν)) (f : ν → μ) :
    (items.map fun item => (item.1, f item.2)).lookup k = (items.lookup k).map f := by
  induction items with
  | nil => rfl
  | cons item items ih =>
      rw [List.map_cons, List.lookup_cons, List.lookup_cons]
      cases k == item.1 with
      | true => rfl
      | false => exact ih

theorem lookup_filter_keys (items : List (κ × ν)) (p : κ → Bool) :
    (items.filter fun item => p item.1).lookup k = if p k then items.lookup k else none := by
  induction items with
  | nil => simp
  | cons item items ih =>
      rw [List.filter_cons, List.lookup_cons]
      by_cases h : k = item.1
      · subst h
        by_cases hp : p item.1 = true
        · rw [if_pos hp, if_pos hp, List.lookup_cons]
          simp
        · simp only [hp, ↓reduceIte, Bool.false_eq_true] at ih ⊢
          exact ih
      · have hne : (k == item.1) = false := by simpa using h
        rw [hne]
        split
        · rw [List.lookup_cons, hne]
          exact ih
        · exact ih

theorem lookup_dictUpdate (old new : List (κ × ν)) :
    (dictUpdate old new).lookup k = (new.lookup k).or (old.lookup k) := by
  unfold dictUpdate
  rw [List.lookup_append, lookup_map_values old fun key v => (new.lookup key).getD v,
    lookup_filter_keys new fun key => (old.lookup key).isNone]
  cases old.lookup k <;> cases new.lookup k <;> simp

theorem mem_dictUpdate_single {old : List (κ × ν)} {v : ν} {item : κ × ν} :
    item ∈ dictUpdate old [(k, v)] ↔ item = (k, v) ∨ item.1 ≠ k ∧ item ∈ old := by
  have hvalue : ∀ o : κ × ν, (o.1, ([(k, v)].lookup o.1).getD o.2) =
      if o.1 == k then (k, v) else o := by
    intro o
    by_cases h : o.1 = k
    · simp [h]
    · have hne : (o.1 == k) = false := by simpa using h
      simp [List.lookup_cons, hne]
  unfold dictUpdate
  simp only [List.mem_append, List.mem_map, List.mem_filter, List.mem_singleton, hvalue,
    Option.isNone_iff_eq_none]
  constructor
  · rintro (⟨o, ho, rfl⟩ | ⟨rfl, -⟩)
    · by_cases h : o.1 = k
      · simp [h]
      · simp [h, ho]
    · exact Or.inl rfl
  · rintro (rfl | ⟨hne, hmem⟩)
    · cases hold : old.lookup k with
      | none => exact Or.inr ⟨rfl, rfl⟩
      | some w =>
          obtain ⟨front, rest, rfl, -⟩ := List.lookup_eq_some_iff.mp hold
          exact Or.inl ⟨(k, w), by simp, by simp⟩
    · exact Or.inl ⟨item, hmem, by simp [hne]⟩

omit [LawfulBEq κ] in
theorem dictUpdate_nil (old : List (κ × ν)) : dictUpdate old [] = old := by
  unfold dictUpdate
  simp

omit [LawfulBEq κ] in
theorem nil_dictUpdate (new : List (κ × ν)) : dictUpdate [] new = new := by
  unfold dictUpdate
  simp

theorem dictUpdate_assoc (a b c : List (κ × ν)) :
    dictUpdate (dictUpdate a b) c = dictUpdate a (dictUpdate b c) := by
  have hfirst : (fun item : κ × ν => (item.1, ((dictUpdate b c).lookup item.1).getD item.2)) =
      (fun item => (item.1, (c.lookup item.1).getD item.2)) ∘
        fun item => (item.1, (b.lookup item.1).getD item.2) := by
    funext item
    simp only [lookup_dictUpdate, Function.comp_apply]
    cases c.lookup item.1 <;> rfl
  have hsecond : (b.filter fun item => (a.lookup item.1).isNone).map
      (fun item => (item.1, (c.lookup item.1).getD item.2)) =
      (b.map fun item => (item.1, (c.lookup item.1).getD item.2)).filter
        fun item => (a.lookup item.1).isNone := by
    rw [List.filter_map]
    rfl
  have hthird : (c.filter fun item => ((dictUpdate a b).lookup item.1).isNone) =
      (c.filter fun item => (b.lookup item.1).isNone).filter
        fun item => (a.lookup item.1).isNone := by
    rw [List.filter_filter]
    apply List.filter_congr
    intro item _
    rw [lookup_dictUpdate]
    cases b.lookup item.1 <;> cases a.lookup item.1 <;> rfl
  calc dictUpdate (dictUpdate a b) c
      = ((a.map fun item => (item.1, (b.lookup item.1).getD item.2)) ++
          b.filter fun item => (a.lookup item.1).isNone).map
            (fun item => (item.1, (c.lookup item.1).getD item.2)) ++
          c.filter fun item => ((dictUpdate a b).lookup item.1).isNone := rfl
    _ = dictUpdate a (dictUpdate b c) := by
        rw [List.map_append, List.map_map, hsecond, hthird, List.append_assoc,
          ← List.filter_append, ← hfirst]
        rfl

theorem lookup_of_nodup {items : List (κ × ν)} (hnodup : (items.map Prod.fst).Nodup)
    {item : κ × ν} (h : item ∈ items) : items.lookup item.1 = some item.2 := by
  induction items with
  | nil => cases h
  | cons first rest ih =>
      rw [List.map_cons, List.nodup_cons] at hnodup
      rw [List.lookup_cons]
      rcases List.mem_cons.mp h with rfl | h
      · simp
      · have hne : (item.1 == first.1) = false := by
          rw [beq_eq_false_iff_ne]
          intro heq
          apply hnodup.1
          rw [← heq]
          exact List.mem_map_of_mem h
        rw [hne]
        exact ih hnodup.2 h

theorem lookup_dictOf (names : List κ) (f : κ → Option ν) [DecidableEq κ] :
    (dictOf names f).lookup k = if k ∈ names then f k else none := by
  unfold dictOf
  induction names with
  | nil => rfl
  | cons name names ih =>
      rw [List.filterMap_cons]
      by_cases h : k = name
      · subst h
        cases hf : f k with
        | none =>
            rw [Option.map_none, if_pos List.mem_cons_self]
            dsimp only
            rw [ih, hf, ite_self]
        | some v =>
            rw [Option.map_some, if_pos List.mem_cons_self]
            exact List.lookup_cons_self
      · have hne : (k == name) = false := by simpa using h
        have hmem : (k ∈ name :: names) = (k ∈ names) := by simp [h]
        simp only [hmem]
        cases f name with
        | none => exact ih
        | some v =>
            rw [Option.map_some]
            dsimp only
            rw [List.lookup_cons, hne]
            exact ih

omit [BEq κ] [LawfulBEq κ] in
theorem dictOf_congr {names : List κ} {f g : κ → Option ν} (h : ∀ n ∈ names, f n = g n) :
    dictOf names f = dictOf names g := by
  apply List.filterMap_congr
  intro n hn
  rw [h n hn]

omit [BEq κ] [LawfulBEq κ] in
theorem dictOf_map {β : Type} (items : List (κ × β)) (f : κ → Option ν) :
    dictOf (items.map Prod.fst) f = items.filterMap fun item => (f item.1).map (item.1, ·) := by
  unfold dictOf
  rw [List.filterMap_map]
  rfl

omit [BEq κ] [LawfulBEq κ] in
/-- Values chosen item by item are values of the keys. -/
theorem exists_values [DecidableEq κ] {β : Type} [Inhabited ν] {items : List (κ × β)}
    (hnodup : (items.map Prod.fst).Nodup) {P : κ × β → ν → Prop}
    (h : ∀ item ∈ items, ∃ v, P item v) : ∃ f : κ → ν, ∀ item ∈ items, P item (f item.1) := by
  induction items with
  | nil => exact ⟨fun _ => default, fun item hitem => by cases hitem⟩
  | cons first rest ih =>
      rw [List.map_cons, List.nodup_cons] at hnodup
      obtain ⟨f, hf⟩ := ih hnodup.2 fun item hitem => h item (List.mem_cons_of_mem _ hitem)
      obtain ⟨v, hv⟩ := h first List.mem_cons_self
      refine ⟨fun k => if k = first.1 then v else f k, ?_⟩
      intro item hitem
      rcases List.mem_cons.mp hitem with rfl | hitem
      · simp only [↓reduceIte]
        exact hv
      · have hne : item.1 ≠ first.1 := by
          intro heq
          apply hnodup.1
          rw [← heq]
          exact List.mem_map_of_mem hitem
        simp only [if_neg hne]
        exact hf item hitem

omit [BEq κ] [LawfulBEq κ] in
theorem dictOf_cons (name : κ) (names : List κ) (f : κ → Option ν) :
    dictOf (name :: names) f = ((f name).map (name, ·)).toList ++ dictOf names f := by
  unfold dictOf
  rw [List.filterMap_cons]
  cases f name <;> rfl

omit [BEq κ] [LawfulBEq κ] in
theorem dictOf_single [DecidableEq κ] {names : List κ} (hnodup : names.Nodup) {name : κ}
    (h : name ∈ names) (v : ν) :
    dictOf names (fun n => if n = name then some v else none) = [(name, v)] := by
  have hnone : ∀ {names : List κ}, name ∉ names →
      dictOf names (fun n => if n = name then some v else none) = [] := by
    intro names hnot
    unfold dictOf
    rw [List.filterMap_eq_nil_iff]
    intro n hn
    have hne : n ≠ name := by
      rintro rfl
      exact hnot hn
    simp [hne]
  induction names with
  | nil => cases h
  | cons first rest ih =>
      obtain ⟨hfirst, hrest⟩ := List.nodup_cons.mp hnodup
      rw [dictOf_cons]
      by_cases heq : first = name
      · subst heq
        rw [hnone hfirst]
        simp
      · rcases List.mem_cons.mp h with rfl | h
        · exact absurd rfl heq
        · rw [ih hrest h]
          simp [heq]

omit [BEq κ] [LawfulBEq κ] in
theorem flatMap_single {β γ : Type} {items : List (κ × β)} (hnodup : (items.map Prod.fst).Nodup)
    {item : κ × β} (h : item ∈ items) {f : κ × β → List γ}
    (hothers : ∀ other ∈ items, other.1 ≠ item.1 → f other = []) : items.flatMap f = f item := by
  induction items with
  | nil => cases h
  | cons first rest ih =>
      rw [List.map_cons, List.nodup_cons] at hnodup
      rw [List.flatMap_cons]
      rcases List.mem_cons.mp h with rfl | h
      · have hnil : rest.flatMap f = [] := by
          rw [List.flatMap_eq_nil_iff]
          intro other hother
          apply hothers other (List.mem_cons_of_mem _ hother)
          intro heq
          apply hnodup.1
          rw [← heq]
          exact List.mem_map_of_mem hother
        rw [hnil, List.append_nil]
      · have hfirst : f first = [] := by
          apply hothers first List.mem_cons_self
          intro heq
          apply hnodup.1
          rw [heq]
          exact List.mem_map_of_mem h
        rw [hfirst, List.nil_append]
        exact ih hnodup.2 h fun other hother => hothers other (List.mem_cons_of_mem _ hother)

omit [LawfulBEq κ] in
/-- Dicts of related values with the same keys have related values at each. -/
theorem lookup_forall₂ {μ : Type} {R : ν → μ → Prop} {items : List (κ × ν)} {items' : List (κ × μ)}
    (h : List.Forall₂ (fun x y => x.1 = y.1 ∧ R x.2 y.2) items items') (k : κ) :
    (items.lookup k = none ∧ items'.lookup k = none) ∨
      ∃ v w, items.lookup k = some v ∧ items'.lookup k = some w ∧ R v w := by
  induction h with
  | nil => exact Or.inl ⟨rfl, rfl⟩
  | @cons x y _ _ hxy _ ih =>
      rw [List.lookup_cons, List.lookup_cons, hxy.1]
      cases k == y.1 with
      | true => exact Or.inr ⟨_, _, rfl, rfl, hxy.2⟩
      | false => exact ih

/-- Updating keeps the keys distinct. -/
theorem nodup_dictUpdate {old new : List (κ × ν)} (hold : (old.map Prod.fst).Nodup)
    (hnew : (new.map Prod.fst).Nodup) : ((dictUpdate old new).map Prod.fst).Nodup := by
  unfold dictUpdate
  rw [List.map_append, List.map_map]
  change (old.map Prod.fst ++ _).Nodup
  rw [List.nodup_append]
  refine ⟨hold, hnew.sublist (List.filter_sublist.map _), ?_⟩
  intro k hk k' hk' heq
  subst heq
  obtain ⟨item, hitem, rfl⟩ := List.mem_map.mp hk'
  obtain ⟨mine, hmine, hkey⟩ := List.mem_map.mp hk
  have hnone := (List.mem_filter.mp hitem).2
  rw [← hkey, lookup_of_nodup hold hmine] at hnone
  cases hnone

end Graphed
