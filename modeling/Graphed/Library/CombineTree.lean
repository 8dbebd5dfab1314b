import Mathlib.Data.List.Perm.Basic
import Mathlib.Tactic.Common

/-!
# Trees of a reduction

A reduction takes a state of each piece and combines the states in a binary tree, with the empty
state anywhere. A measure that turns concatenation into a commutative combination comes out the same
whatever the tree and the order of its pieces.
-/

inductive CombineTree (α : Type*) where
  | leaf (a : α)
  | empty
  | node (left right : CombineTree α)

namespace CombineTree

variable {α β S ε : Type*}

/-- The pieces, from left to right. -/
def leaves : CombineTree α → List α
  | leaf a => [a]
  | empty => []
  | node left right => left.leaves ++ right.leaves

/-- What stands leftmost: a piece, unless it is the empty state. -/
def first : CombineTree α → Option α
  | leaf a => some a
  | empty => none
  | node left _ => left.first

def map (f : α → β) : CombineTree α → CombineTree β
  | leaf a => leaf (f a)
  | empty => empty
  | node left right => node (left.map f) (right.map f)

/-- Combine the states of a tree. -/
def fold (combine : S → S → S) (one : S) : CombineTree S → S
  | leaf s => s
  | empty => one
  | node left right => combine (left.fold combine one) (right.fold combine one)

/-- Take the state of each piece and combine them, from left to right. -/
def run (chunk : α → Except ε S) (combine : S → S → S) (one : S) : CombineTree α → Except ε S
  | leaf a => chunk a
  | empty => .ok one
  | node left right =>
      (left.run chunk combine one).bind fun a =>
        (right.run chunk combine one).map fun b => combine a b

variable {chunk : α → Except ε S} {combine : S → S → S} {one : S} {t : CombineTree α}

@[simp]
theorem leaves_map (f : α → β) (t : CombineTree α) : (t.map f).leaves = t.leaves.map f := by
  induction t with
  | leaf a => rfl
  | empty => rfl
  | node left right ihl ihr => simp only [map, leaves, ihl, ihr, List.map_append]

@[simp]
theorem first_map (f : α → β) (t : CombineTree α) : (t.map f).first = t.first.map f := by
  induction t with
  | leaf a => rfl
  | empty => rfl
  | node left right ihl _ => exact ihl

theorem mem_of_first {a : α} (h : t.first = some a) : a ∈ t.leaves := by
  induction t with
  | leaf b =>
      obtain rfl := Option.some.inj h
      exact List.mem_singleton.mpr rfl
  | empty => cases h
  | node left right ihl _ => exact List.mem_append_left _ (ihl h)

/-- Pieces that all have a state. -/
theorem run_eq_ok {f : α → S} (h : ∀ a ∈ t.leaves, chunk a = .ok (f a)) :
    t.run chunk combine one = .ok ((t.map f).fold combine one) := by
  induction t with
  | leaf a => exact h a (List.mem_singleton.mpr rfl)
  | empty => rfl
  | node left right ihl ihr =>
      rw [run, ihl fun a ha => h a (List.mem_append_left _ ha),
        ihr fun a ha => h a (List.mem_append_right _ ha)]
      rfl

/-- A piece without a state, all of them for one reason. -/
theorem run_eq_error {f : α → S} {e : ε}
    (h : ∀ a ∈ t.leaves, chunk a = .ok (f a) ∨ chunk a = .error e)
    (hbad : ∃ a ∈ t.leaves, chunk a = .error e) : t.run chunk combine one = .error e := by
  induction t with
  | leaf a =>
      obtain ⟨b, hb, herror⟩ := hbad
      rwa [List.mem_singleton.mp hb] at herror
  | empty =>
      obtain ⟨b, hb, -⟩ := hbad
      cases hb
  | node left right ihl ihr =>
      have hl := fun a ha => h a (List.mem_append_left right.leaves ha)
      have hr := fun a ha => h a (List.mem_append_right left.leaves ha)
      by_cases hleft : ∃ a ∈ left.leaves, chunk a = .error e
      · rw [run, ihl hl hleft]
        rfl
      · have hall : ∀ a ∈ left.leaves, chunk a = .ok (f a) := fun a ha =>
          (hl a ha).resolve_right fun herror => hleft ⟨a, ha, herror⟩
        obtain ⟨b, hb, herror⟩ := hbad
        have hright : b ∈ right.leaves := (List.mem_append.mp hb).resolve_left fun hb =>
          hleft ⟨b, hb, herror⟩
        rw [run, run_eq_ok hall, ihr hr ⟨b, hright, herror⟩]
        rfl

/-- A measure of lists that is a commutative combination over concatenation. -/
structure Measures (combine : S → S → S) (one : S) (measure : List β → S) : Prop where
  nil : measure [] = one
  append : ∀ xs ys, measure (xs ++ ys) = combine (measure xs) (measure ys)
  comm : ∀ a b, combine a b = combine b a

section Measures

variable {measure : List β → S}

theorem Measures.fold (h : Measures combine one measure) (t : CombineTree (List β)) :
    (t.map measure).fold combine one = measure t.leaves.flatten := by
  induction t with
  | leaf xs => rw [map, CombineTree.fold, leaves, List.flatten_singleton]
  | empty => exact h.nil.symm
  | node left right ihl ihr =>
      rw [map, CombineTree.fold, ihl, ihr, leaves, List.flatten_append, h.append]

theorem Measures.perm (h : Measures combine one measure) {xs ys : List β} (hperm : xs.Perm ys) :
    measure xs = measure ys := by
  induction hperm with
  | nil => rfl
  | @cons x xs ys _ ih =>
      have hcons : ∀ zs : List β, measure (x :: zs) = combine (measure [x]) (measure zs) :=
        fun zs => h.append [x] zs
      rw [hcons xs, hcons ys, ih]
  | swap x y zs =>
      have hpair : measure [y, x] = measure [x, y] := by
        change measure ([y] ++ [x]) = measure ([x] ++ [y])
        rw [h.append, h.append, h.comm]
      change measure ([y, x] ++ zs) = measure ([x, y] ++ zs)
      rw [h.append, h.append, hpair]
  | trans _ _ ihl ihr => exact ihl.trans ihr

/-- **Any tree, any order**: the measure of the whole. -/
theorem Measures.run (h : Measures combine one measure) {chunk : List β → Except ε S}
    (hchunk : ∀ xs, chunk xs = .ok (measure xs)) {t : CombineTree (List β)}
    {pieces : List (List β)} (hperm : t.leaves.Perm pieces) :
    t.run chunk combine one = .ok (measure pieces.flatten) := by
  rw [run_eq_ok fun xs _ => hchunk xs, h.fold, h.perm hperm.flatten]

end Measures

end CombineTree
