import Mathlib.Data.List.Basic
import Mathlib.Tactic.Common

/-!
# Dropping values after their last use

Consumers run in order and append one value each to a table of slots; a slot is emptied when no
later consumer reads it. Slots that are still needed hold what they should, whatever was dropped.
-/

namespace Liveness

variable {V : Type*}

/-- Empty some slots. -/
def drop (slots : List (Option V)) (dead : List Nat) : List (Option V) :=
  dead.foldl (fun slots i => slots.set i none) slots

/-- From consumer `c` on slot `i` is read, or it is kept for the end. -/
def StillRead (uses : List (List Nat)) (keep : List Nat) (c i : Nat) : Prop :=
  i ∈ keep ∨ ∃ later, c ≤ later ∧ i ∈ uses.getD later []

/-- Before consumer `c` every slot that is needed holds what is wanted of it. -/
structure Retains (uses : List (List Nat)) (keep : List Nat) (want : Nat → Option V) (c : Nat)
    (slots : List (Option V)) : Prop where
  length : slots.length = c
  slots : ∀ i < c, StillRead uses keep c i → slots.getD i none = want i

variable {uses : List (List Nat)} {keep : List Nat} {want : Nat → Option V} {c i : Nat}
  {slots : List (Option V)}

@[simp]
theorem length_drop (slots : List (Option V)) (dead : List Nat) :
    (drop slots dead).length = slots.length := by
  induction dead generalizing slots with
  | nil => rfl
  | cons d dead ih => rw [drop, List.foldl_cons, ← drop, ih, List.length_set]

theorem getD_drop {dead : List Nat} (h : i ∉ dead) :
    (drop slots dead).getD i none = slots.getD i none := by
  induction dead generalizing slots with
  | nil => rfl
  | cons d dead ih =>
      obtain ⟨hne, hrest⟩ := List.ne_and_not_mem_of_not_mem_cons h
      rw [drop, List.foldl_cons, ← drop, ih hrest, List.getD_eq_getElem?_getD,
        List.getElem?_set_ne hne.symm, ← List.getD_eq_getElem?_getD]

theorem StillRead.later (h : StillRead uses keep (c + 1) i) : StillRead uses keep c i :=
  h.imp id fun ⟨later, hlater, hi⟩ => ⟨later, Nat.le_of_succ_le hlater, hi⟩

theorem holds_start : Retains uses keep want 0 [] := ⟨rfl, fun _ h => absurd h (Nat.not_lt_zero _)⟩

theorem Retains.congr {want' : Nat → Option V} (h : Retains uses keep want c slots)
    (hwant : ∀ i < c, want i = want' i) : Retains uses keep want' c slots :=
  ⟨h.length, fun i hi hneeded => (h.slots i hi hneeded).trans (hwant i hi)⟩

/-- What a consumer reads is there. -/
theorem Retains.read (h : Retains uses keep want c slots) (hi : i ∈ uses.getD c []) (hc : i < c) :
    slots.getD i none = want i :=
  h.slots i hc (Or.inr ⟨c, Nat.le_refl c, hi⟩)

/-- **One consumer**: it appends its value and drops what nobody needs any more. -/
theorem Retains.advance (h : Retains uses keep want c slots) {value : Option V} {dead : List Nat}
    (hvalue : StillRead uses keep (c + 1) c → value = want c)
    (hdead : ∀ i ∈ dead, ¬StillRead uses keep (c + 1) i) :
    Retains uses keep want (c + 1) (drop (slots ++ [value]) dead) := by
  constructor
  · rw [length_drop, List.length_append, h.length, List.length_singleton]
  · intro i hi hneeded
    rw [getD_drop fun hmem => hdead i hmem hneeded, List.getD_eq_getElem?_getD]
    rcases Nat.lt_succ_iff_lt_or_eq.mp hi with hlt | rfl
    · rw [List.getElem?_append_left (by rwa [h.length]), ← List.getD_eq_getElem?_getD]
      exact h.slots i hlt hneeded.later
    · rw [List.getElem?_append_right (Nat.le_of_eq h.length), h.length, Nat.sub_self]
      exact hvalue hneeded

end Liveness
