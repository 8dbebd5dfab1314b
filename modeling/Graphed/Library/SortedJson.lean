import Graphed.Library.Json
import Mathlib.Data.Char
import Mathlib.Data.List.Lex
import Mathlib.Data.List.Perm.Subperm

/-!
# JSON with sorted keys

A dict has each key once, in any order; two are equal when each item of one is an equal item of the
other. Writing the keys in order gives equal values one text, and what is read from it is equal to
what was written.
-/

namespace JsonText

/-! ### Dicts -/

namespace Fields

def keys : Fields → List (List Char)
  | .nil => []
  | .cons key _ rest => key :: keys rest

/-- The item of a key; of several with one key, the last read. -/
def get (key : List Char) : Fields → Option Value
  | .nil => none
  | .cons k v rest => (get key rest).or (if k = key then some v else none)

end Fields

mutual

/-- Without words that are no JSON, and with each key of a dict once. -/
def Value.plain : Value → Bool
  | .word w => w == .null || w == .true || w == .false
  | .num _ => true
  | .str _ => true
  | .arr items => items.plain
  | .obj fields => fields.plain

def Items.plain : Items → Bool
  | .nil => true
  | .cons v rest => v.plain && rest.plain

def Fields.plain : Fields → Bool
  | .nil => true
  | .cons key v rest => !rest.keys.contains key && v.plain && rest.plain

end

/-! ### Equality -/

/-- A constant or a number. -/
inductive Atom where
  | word (w : Word)
  | num (n : Number)
deriving DecidableEq

def Value.atom : Value → Option Atom
  | .word w => some (.word w)
  | .num n => some (.num n)
  | _ => none

mutual

/-- Equal values, the constants and numbers by a relation. A dict equals another of its size that
has each of its items. -/
def Value.eqv (same : Atom → Atom → Prop) : Value → Value → Prop
  | .word w, v => ∃ a, v.atom = some a ∧ same (.word w) a
  | .num n, v => ∃ a, v.atom = some a ∧ same (.num n) a
  | .str s, v => v = .str s
  | .arr items, v => ∃ items', v = .arr items' ∧ items.eqv same items'
  | .obj fields, v => ∃ fields', v = .obj fields' ∧ fields.keys.length = fields'.keys.length ∧
      fields.within same fields'

def Items.eqv (same : Atom → Atom → Prop) : Items → Items → Prop
  | .nil, items => items = .nil
  | .cons v rest, items => ∃ w rest', items = .cons w rest' ∧ v.eqv same w ∧ rest.eqv same rest'

def Fields.within (same : Atom → Atom → Prop) : Fields → Fields → Prop
  | .nil, _ => True
  | .cons key v rest, fields => (∃ w, fields.get key = some w ∧ v.eqv same w) ∧
      rest.within same fields

end

def Fields.eqv (same : Atom → Atom → Prop) (fields fields' : Fields) : Prop :=
  fields.keys.length = fields'.keys.length ∧ fields.within same fields'

/-! ### Writing keys in order -/

def insertField (key : List Char) (v : Value) : Fields → Fields
  | .nil => .cons key v .nil
  | .cons k w rest =>
      if key ≤ k then .cons key v (.cons k w rest) else .cons k w (insertField key v rest)

mutual

def sortKeys : Value → Value
  | .arr items => .arr (sortItems items)
  | .obj fields => .obj (sortFields fields)
  | .word w => .word w
  | .num n => .num n
  | .str s => .str s

def sortItems : Items → Items
  | .nil => .nil
  | .cons v rest => .cons (sortKeys v) (sortItems rest)

def sortFields : Fields → Fields
  | .nil => .nil
  | .cons key v rest => insertField key (sortKeys v) (sortFields rest)

end

/-! ### Documents -/

/-- A dict written item by item. -/
def fieldsOf : List (String × Value) → Fields
  | [] => .nil
  | (key, v) :: rest => .cons key.toList v (fieldsOf rest)

def itemsOf : List Value → Items
  | [] => .nil
  | v :: rest => .cons v (itemsOf rest)

def Items.toList : Items → List Value
  | .nil => []
  | .cons v rest => v :: rest.toList

/-! ### The items of a dict -/

namespace Fields

theorem induct {motive : Fields → Prop} (nil : motive .nil)
    (cons : ∀ key v rest, motive rest → motive (.cons key v rest)) : ∀ fields, motive fields
  | .nil => nil
  | .cons key v rest => cons key v rest (induct nil cons rest)

theorem mem_keys_iff {key : List Char} {fields : Fields} :
    key ∈ fields.keys ↔ ∃ v, fields.get key = some v := by
  induction fields using Fields.induct with
  | nil => simp [keys, get]
  | cons k v rest ih =>
      rw [keys, get, List.mem_cons, ih]
      cases get key rest with
      | some w => simp
      | none =>
          by_cases h : k = key
          · simp [h]
          · have hne : ¬key = k := fun heq => h heq.symm
            simp [h, hne]

theorem get_eq_none {key : List Char} {fields : Fields} (h : key ∉ fields.keys) :
    fields.get key = none := by
  rw [← Option.not_isSome_iff_eq_none]
  intro hsome
  obtain ⟨v, hv⟩ := Option.isSome_iff_exists.mp hsome
  exact h (mem_keys_iff.mpr ⟨v, hv⟩)

/-- The keys of a dict in order, each once. -/
def Sorted : Fields → Prop
  | .nil => True
  | .cons key _ rest => (∀ k ∈ rest.keys, key < k) ∧ rest.Sorted

theorem get_head {key : List Char} {v : Value} {rest : Fields} (h : key ∉ rest.keys) :
    (Fields.cons key v rest).get key = some v := by
  rw [get, get_eq_none h, if_pos rfl]
  rfl

/-- Sorted dicts with the same items are one. -/
theorem Sorted.ext {fields fields' : Fields} (h : fields.Sorted) (h' : fields'.Sorted)
    (hget : ∀ key, fields.get key = fields'.get key) : fields = fields' := by
  induction fields using Fields.induct generalizing fields' with
  | nil =>
      cases fields' with
      | nil => rfl
      | cons key v rest =>
          have hkey := hget key
          have hmem : key ∈ (cons key v rest).keys := List.mem_cons_self
          obtain ⟨w, hw⟩ := mem_keys_iff.mp hmem
          rw [hw] at hkey
          cases hkey
  | cons key v rest ih =>
      obtain ⟨hfirst, hrest⟩ := h
      have hnot : key ∉ rest.keys := fun hmem => lt_irrefl key (hfirst key hmem)
      cases fields' with
      | nil =>
          have hkey := hget key
          rw [get_head hnot] at hkey
          cases hkey
      | cons key' v' rest' =>
          obtain ⟨hfirst', hrest'⟩ := h'
          have hnot' : key' ∉ rest'.keys := fun hmem => lt_irrefl key' (hfirst' key' hmem)
          have hmem : key ∈ (Fields.cons key' v' rest').keys :=
            mem_keys_iff.mpr ⟨v, (hget key).symm.trans (get_head hnot)⟩
          have hmem' : key' ∈ (Fields.cons key v rest).keys :=
            mem_keys_iff.mpr ⟨v', (hget key').trans (get_head hnot')⟩
          obtain rfl : key = key' := by
            obtain heq | hlater := List.mem_cons.mp hmem
            · exact heq
            · obtain heq | hlater' := List.mem_cons.mp hmem'
              · exact heq.symm
              · exact absurd (hfirst key' hlater') (lt_asymm (hfirst' key hlater))
          obtain rfl : v = v' := by
            have hkey := hget key
            rw [get_head hnot, get_head hnot'] at hkey
            exact Option.some.inj hkey
          rw [ih hrest hrest' fun k => ?_]
          have hk := hget k
          by_cases h : key = k
          · subst h
            rw [get_eq_none hnot, get_eq_none hnot']
          · rwa [get, get, if_neg h, Option.or_none, Option.or_none] at hk

end Fields

/-! ### What sorting keeps -/

theorem mem_keys_insertField {key k : List Char} {v : Value} {fields : Fields} :
    k ∈ (insertField key v fields).keys ↔ k = key ∨ k ∈ fields.keys := by
  induction fields using Fields.induct with
  | nil => simp [insertField, Fields.keys]
  | cons k' w rest ih =>
      rw [insertField]
      split
      · simp [Fields.keys]
      · simp [Fields.keys, ih, or_left_comm]

theorem length_keys_insertField (key : List Char) (v : Value) (fields : Fields) :
    (insertField key v fields).keys.length = fields.keys.length + 1 := by
  induction fields using Fields.induct with
  | nil => rfl
  | cons k' w rest ih =>
      rw [insertField]
      split
      · rfl
      · rw [Fields.keys, Fields.keys, List.length_cons, List.length_cons, ih]

theorem get_insertField (k key : List Char) (v : Value) (fields : Fields) :
    (insertField key v fields).get k = (fields.get k).or (if key = k then some v else none) := by
  induction fields using Fields.induct with
  | nil => rfl
  | cons k' w rest ih =>
      rw [insertField]
      split
      · rfl
      · rename_i hlt
        rw [Fields.get, ih, Fields.get, Option.or_assoc, Option.or_assoc]
        congr 1
        by_cases hk : key = k
        · rw [if_pos hk, if_neg, Option.or_none, Option.none_or]
          rintro rfl
          exact hlt (le_of_eq hk)
        · rw [if_neg hk, Option.none_or, Option.or_none]

theorem sorted_insertField {key : List Char} {v : Value} {fields : Fields} (h : fields.Sorted)
    (hkey : key ∉ fields.keys) : (insertField key v fields).Sorted := by
  induction fields using Fields.induct with
  | nil => exact ⟨fun k hk => absurd hk List.not_mem_nil, trivial⟩
  | cons k' w rest ih =>
      obtain ⟨hfirst, hrest⟩ := h
      have hne : key ≠ k' := fun heq => hkey (List.mem_cons.mpr (.inl heq))
      rw [insertField]
      split
      · rename_i hle
        have hlt := lt_of_le_of_ne hle hne
        refine ⟨fun k hk => ?_, hfirst, hrest⟩
        obtain rfl | hk := List.mem_cons.mp hk
        · exact hlt
        · exact lt_trans hlt (hfirst k hk)
      · rename_i hnle
        refine ⟨fun k hk => ?_, ih hrest fun hmem => hkey (List.mem_cons_of_mem _ hmem)⟩
        obtain rfl | hk := mem_keys_insertField.mp hk
        · exact lt_of_not_ge hnle
        · exact hfirst k hk

theorem mem_keys_sortFields {k : List Char} {fields : Fields} :
    k ∈ (sortFields fields).keys ↔ k ∈ fields.keys := by
  induction fields using Fields.induct with
  | nil => rfl
  | cons key v rest ih => rw [sortFields, mem_keys_insertField, ih, Fields.keys, List.mem_cons]

theorem length_keys_sortFields (fields : Fields) :
    (sortFields fields).keys.length = fields.keys.length := by
  induction fields using Fields.induct with
  | nil => rfl
  | cons key v rest ih =>
      rw [sortFields, length_keys_insertField, ih, Fields.keys, List.length_cons]

/-- Sorting keeps each item, its value sorted too. -/
theorem get_sortFields (k : List Char) (fields : Fields) :
    (sortFields fields).get k = (fields.get k).map sortKeys := by
  induction fields using Fields.induct with
  | nil => rfl
  | cons key v rest ih =>
      rw [sortFields, get_insertField, ih, Fields.get]
      cases rest.get k with
      | some w => rfl
      | none =>
          rw [Option.map_none, Option.none_or, Option.none_or]
          split <;> rfl

theorem plain_cons {key : List Char} {v : Value} {rest : Fields}
    (h : (Fields.cons key v rest).plain = true) :
    key ∉ rest.keys ∧ v.plain = true ∧ rest.plain = true := by
  simp only [Fields.plain, Bool.and_eq_true, Bool.not_eq_true', List.contains_eq_mem,
    decide_eq_false_iff_not] at h
  exact ⟨h.1.1, h.1.2, h.2⟩

theorem nodup_keys {fields : Fields} (h : fields.plain = true) : fields.keys.Nodup := by
  induction fields using Fields.induct with
  | nil => exact List.nodup_nil
  | cons key v rest ih =>
      obtain ⟨hkey, -, hrest⟩ := plain_cons h
      exact List.nodup_cons.mpr ⟨hkey, ih hrest⟩

theorem plain_of_get {fields : Fields} (h : fields.plain = true) {k : List Char} {v : Value}
    (hv : fields.get k = some v) : v.plain = true := by
  induction fields using Fields.induct with
  | nil => cases hv
  | cons key w rest ih =>
      obtain ⟨hkey, hw, hrest⟩ := plain_cons h
      by_cases heq : key = k
      · subst heq
        rw [Fields.get_head hkey] at hv
        rwa [← Option.some.inj hv]
      · rw [Fields.get, if_neg heq, Option.or_none] at hv
        exact ih hrest hv

theorem sorted_sortFields {fields : Fields} (h : fields.plain = true) :
    (sortFields fields).Sorted := by
  induction fields using Fields.induct with
  | nil => exact trivial
  | cons key v rest ih =>
      obtain ⟨hkey, -, hrest⟩ := plain_cons h
      exact sorted_insertField (ih hrest) fun hmem => hkey (mem_keys_sortFields.mp hmem)

/-! ### Equal values have one text -/

mutual

/-- A value equals its sorted form. -/
theorem eqv_sortKeys {same : Atom → Atom → Prop} (hrefl : ∀ a, same a a) :
    ∀ v : Value, v.plain = true → v.eqv same (sortKeys v)
  | .word w, _ => ⟨_, rfl, hrefl _⟩
  | .num n, _ => ⟨_, rfl, hrefl _⟩
  | .str s, _ => rfl
  | .arr items, h => ⟨_, rfl, eqv_sortItems hrefl items h⟩
  | .obj fields, h => by
      refine ⟨_, rfl, (length_keys_sortFields fields).symm, ?_⟩
      exact within_sortFields hrefl fields h _ fun k v hv => by
        rw [get_sortFields, hv, Option.map_some]

theorem eqv_sortItems {same : Atom → Atom → Prop} (hrefl : ∀ a, same a a) :
    ∀ items : Items, items.plain = true → items.eqv same (sortItems items)
  | .nil, _ => rfl
  | .cons v rest, h => by
      obtain ⟨hv, hrest⟩ := Bool.and_eq_true_iff.mp h
      exact ⟨_, _, rfl, eqv_sortKeys hrefl v hv, eqv_sortItems hrefl rest hrest⟩

theorem within_sortFields {same : Atom → Atom → Prop} (hrefl : ∀ a, same a a) :
    ∀ fields : Fields, fields.plain = true → ∀ whole : Fields,
      (∀ k v, fields.get k = some v → whole.get k = some (sortKeys v)) →
        fields.within same whole
  | .nil, _, _, _ => trivial
  | .cons key v rest, h, whole, hwhole => by
      obtain ⟨hkey, hv, hrest⟩ := plain_cons h
      refine ⟨⟨_, hwhole key v (Fields.get_head hkey), eqv_sortKeys hrefl v hv⟩, ?_⟩
      refine within_sortFields hrefl rest hrest whole fun k w hw => hwhole k w ?_
      rw [Fields.get, hw]
      rfl

end

mutual

/-- Values equal in all but the order of keys are sorted alike. -/
theorem sortKeys_eq : ∀ v w : Value, v.plain = true → w.plain = true → v.eqv (· = ·) w →
    sortKeys v = sortKeys w
  | .word w, v, _, _, h => by
      obtain ⟨a, ha, rfl⟩ := h
      cases v <;> cases ha
      rfl
  | .num n, v, _, _, h => by
      obtain ⟨a, ha, rfl⟩ := h
      cases v <;> cases ha
      rfl
  | .str s, v, _, _, h => by
      obtain rfl : v = .str s := h
      rfl
  | .arr items, v, hv, hw, h => by
      obtain ⟨items', rfl, h⟩ := h
      rw [sortKeys, sortKeys, sortItems_eq items items' hv hw h]
  | .obj fields, v, hv, hw, h => by
      obtain ⟨fields', rfl, hlength, h⟩ := h
      rw [sortKeys, sortKeys]
      congr 1
      refine (sorted_sortFields hv).ext (sorted_sortFields hw) fun key => ?_
      rw [get_sortFields, get_sortFields]
      cases hget : fields.get key with
      | some u =>
          obtain ⟨w, hw, heq⟩ := get_of_within fields fields' hv hw h key u hget
          rw [hw, Option.map_some, Option.map_some, heq]
      | none =>
          rw [Option.map_none, Fields.get_eq_none, Option.map_none]
          intro hmem
          have hsub : fields.keys ⊆ fields'.keys := by
            intro k hk
            obtain ⟨u, hu⟩ := Fields.mem_keys_iff.mp hk
            obtain ⟨w, hw, -⟩ := get_of_within fields fields' hv hw h k u hu
            exact Fields.mem_keys_iff.mpr ⟨w, hw⟩
          -- as many keys, all among the other's: the same keys
          have hperm := (List.subperm_of_subset (nodup_keys hv) hsub).perm_of_length_le hlength.ge
          obtain ⟨u, hu⟩ := Fields.mem_keys_iff.mp (hperm.mem_iff.mpr hmem)
          rw [hget] at hu
          cases hu

theorem sortItems_eq : ∀ items items' : Items, items.plain = true → items'.plain = true →
    items.eqv (· = ·) items' → sortItems items = sortItems items'
  | .nil, _, _, _, h => by
      obtain rfl := h
      rfl
  | .cons v rest, _, hv, hw, h => by
      obtain ⟨w, rest', rfl, hhead, htail⟩ := h
      obtain ⟨hv, hrest⟩ := Bool.and_eq_true_iff.mp hv
      obtain ⟨hw, hrest'⟩ := Bool.and_eq_true_iff.mp hw
      rw [sortItems, sortItems, sortKeys_eq v w hv hw hhead,
        sortItems_eq rest rest' hrest hrest' htail]

theorem get_of_within : ∀ fields whole : Fields, fields.plain = true → whole.plain = true →
    fields.within (· = ·) whole → ∀ k v, fields.get k = some v →
      ∃ w, whole.get k = some w ∧ sortKeys v = sortKeys w
  | .nil, _, _, _, _, _, _, h => by cases h
  | .cons key v rest, whole, hv, hw, h, k, u, hu => by
      obtain ⟨hkey, hv, hrest⟩ := plain_cons hv
      obtain ⟨⟨w, hget, heqv⟩, h⟩ := h
      by_cases heq : key = k
      · subst heq
        rw [Fields.get_head hkey] at hu
        obtain rfl := Option.some.inj hu
        exact ⟨w, hget, sortKeys_eq v w hv (plain_of_get hw hget) heqv⟩
      · rw [Fields.get, if_neg heq, Option.or_none] at hu
        exact get_of_within rest whole hrest hw h k u hu

end

/-! ### Sorted values -/

theorem plain_insertField {key : List Char} {v : Value} {fields : Fields}
    (hkey : key ∉ fields.keys) (hv : v.plain = true) (h : fields.plain = true) :
    (insertField key v fields).plain = true := by
  have hcons : ∀ {k : List Char} {w : Value} {rest : Fields}, k ∉ rest.keys → w.plain = true →
      rest.plain = true → (Fields.cons k w rest).plain = true := by
    intro k w rest hk hw hrest
    simp only [Fields.plain, hw, hrest, List.contains_eq_mem, hk, decide_false, Bool.not_false,
      Bool.and_self]
  induction fields using Fields.induct with
  | nil => exact hcons List.not_mem_nil hv rfl
  | cons k w rest ih =>
      obtain ⟨hk, hw, hrest⟩ := plain_cons h
      have hne : k ≠ key := fun heq => hkey (List.mem_cons.mpr (.inl heq.symm))
      rw [insertField]
      split
      · exact hcons hkey hv h
      · refine hcons (fun hmem => ?_) hw
          (ih (fun hmem => hkey (List.mem_cons_of_mem _ hmem)) hrest)
        exact (mem_keys_insertField.mp hmem).elim hne hk

mutual

theorem plain_sortKeys : ∀ v : Value, v.plain = true → (sortKeys v).plain = true
  | .word _, h => h
  | .num _, _ => rfl
  | .str _, _ => rfl
  | .arr items, h => plain_sortItems items h
  | .obj fields, h => plain_sortFields fields h

theorem plain_sortItems : ∀ items : Items, items.plain = true → (sortItems items).plain = true
  | .nil, _ => rfl
  | .cons v rest, h => by
      obtain ⟨hv, hrest⟩ := Bool.and_eq_true_iff.mp h
      exact Bool.and_eq_true_iff.mpr ⟨plain_sortKeys v hv, plain_sortItems rest hrest⟩

theorem plain_sortFields : ∀ fields : Fields, fields.plain = true →
    (sortFields fields).plain = true
  | .nil, _ => rfl
  | .cons key v rest, h => by
      obtain ⟨hkey, hv, hrest⟩ := plain_cons h
      exact plain_insertField (fun hmem => hkey (mem_keys_sortFields.mp hmem)) (plain_sortKeys v hv)
        (plain_sortFields rest hrest)

end

/-- Sorting a sorted value changes nothing. -/
theorem sortKeys_sortKeys {v : Value} (h : v.plain = true) : sortKeys (sortKeys v) = sortKeys v :=
  (sortKeys_eq v (sortKeys v) h (plain_sortKeys v h) (eqv_sortKeys (fun _ => rfl) v h)).symm

/-! ### Reading documents -/

theorem get_fieldsOf (key : String) (items : List (String × Value)) :
    (fieldsOf items).get key.toList = items.reverse.lookup key := by
  induction items with
  | nil => rfl
  | cons item rest ih =>
      rw [fieldsOf, Fields.get, ih, List.reverse_cons, List.lookup_append, List.lookup_cons]
      by_cases h : key = item.1
      · rw [if_pos (congrArg String.toList h.symm), h, beq_self_eq_true]
      · have hne : ¬item.1.toList = key.toList := fun heq => h (String.toList_inj.mp heq).symm
        rw [if_neg hne, beq_eq_false_iff_ne.mpr h]
        rfl

/-- An item of a document whose keys were written in order. -/
theorem get_sorted_fieldsOf (key : String) (items : List (String × Value)) :
    (sortFields (fieldsOf items)).get key.toList = (items.reverse.lookup key).map sortKeys := by
  rw [get_sortFields, get_fieldsOf]

theorem toList_sortItems (vs : List Value) :
    (sortItems (itemsOf vs)).toList = vs.map sortKeys := by
  induction vs with
  | nil => rfl
  | cons v vs ih => rw [itemsOf, sortItems, Items.toList, ih, List.map_cons]

theorem plain_itemsOf {vs : List Value} (h : ∀ v ∈ vs, v.plain = true) :
    (itemsOf vs).plain = true := by
  induction vs with
  | nil => rfl
  | cons v vs ih =>
      exact Bool.and_eq_true_iff.mpr ⟨h v List.mem_cons_self,
        ih fun w hw => h w (List.mem_cons_of_mem _ hw)⟩

theorem keys_fieldsOf (items : List (String × Value)) :
    (fieldsOf items).keys = items.map fun item => item.1.toList := by
  induction items with
  | nil => rfl
  | cons item rest ih => rw [fieldsOf, Fields.keys, ih, List.map_cons]

theorem plain_fieldsOf {items : List (String × Value)} (hnodup : (items.map Prod.fst).Nodup)
    (h : ∀ item ∈ items, item.2.plain = true) : (fieldsOf items).plain = true := by
  induction items with
  | nil => rfl
  | cons item rest ih =>
      rw [List.map_cons, List.nodup_cons] at hnodup
      have hkey : item.1.toList ∉ (fieldsOf rest).keys := by
        rw [keys_fieldsOf]
        intro hmem
        obtain ⟨other, hother, heq⟩ := List.mem_map.mp hmem
        exact hnodup.1 (List.mem_map.mpr ⟨other, hother, String.toList_inj.mp heq⟩)
      simp only [fieldsOf, Fields.plain, h item List.mem_cons_self,
        ih hnodup.2 fun other hother => h other (List.mem_cons_of_mem _ hother),
        List.contains_eq_mem, hkey, decide_false, Bool.not_false, Bool.and_self]

end JsonText
