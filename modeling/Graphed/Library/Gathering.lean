import Mathlib.Algebra.Group.Basic
import Mathlib.Algebra.Ring.Nat
import Mathlib.Tactic.Common

/-!
# Gathering from concatenated contents

Indexes into several contents, each shifted by where its content starts in their concatenation,
pick from the concatenation what they picked from their own. Runs of given lengths, one after the
other, are cut out of a content; runs of a concatenation are the runs of its parts.
-/

namespace Gathering

/-! ### Starts -/

section Starts

variable {M : Type} [AddMonoid M]

/-- Running sums. -/
def cumsum : List M → List M
  | [] => []
  | m :: ms => m :: (cumsum ms).map (m + ·)

/-- Where each of several contents starts in their concatenation, by their lengths. -/
def starts (lengths : List M) : List M := cumsum (0 :: lengths.dropLast)

theorem map_zero_add (ms : List M) : ms.map (0 + ·) = ms := by simp

theorem starts_cons_cons (m n : M) (ms : List M) :
    starts (m :: n :: ms) = 0 :: (starts (n :: ms)).map (m + ·) := by
  unfold starts
  rw [List.dropLast_cons_cons]
  simp [cumsum, Function.comp_def]

theorem starts_singleton (m : M) : starts [m] = [0] := rfl

end Starts

/-! ### Gathering -/

section Gather

variable {M C ι γ : Type} [AddMonoid M] (app : C → C → C) (nil : C) (len : C → M)
  (shift : M → ι → ι) (pick : C → ι → γ)

/-- The indexes, shifted. -/
def rebased (lengths : List M) (indexes : List (List ι)) : List ι :=
  (List.zipWith (fun index s => index.map (shift s)) indexes (starts lengths)).flatten

/-- These indexes stay with their content when something stands around it. -/
def Stays (index : List ι) (content : C) : Prop :=
  ∀ i ∈ index, ∀ before after, pick (app (app before content) after) (shift (len before) i) =
    pick content i

variable {app len shift pick}

theorem gather_after (hassoc : ∀ a b c, app (app a b) c = app a (app b c))
    (hlen : ∀ a b, len (app a b) = len a + len b) {indexes : List (List ι)} {contents : List C}
    (h : List.Forall₂ (Stays app len shift pick) indexes contents) (before : C) :
    (List.zipWith (fun index s => index.map (shift (len before + s))) indexes
        (starts (contents.map len))).flatten.map (pick (app before (contents.foldr app nil))) =
      (List.zipWith (fun index content => index.map (pick content)) indexes contents).flatten := by
  -- by the contents, the ones done with standing before
  induction h generalizing before with
  | nil => rfl
  | @cons index content indexes contents hstays hrest ih =>
      have hfirst : (index.map (shift (len before + 0))).map
          (pick (app before (app content (contents.foldr app nil)))) =
          index.map (pick content) := by
        rw [List.map_map, add_zero]
        apply List.map_congr_left
        intro i hi
        rw [Function.comp_apply, ← hassoc]
        exact hstays i hi before _
      cases hrest with
      | nil =>
          simp only [List.map_cons, List.map_nil, starts_singleton, List.zipWith_cons_cons,
            List.zipWith_nil_left, List.flatten_cons, List.flatten_nil, List.append_nil,
            List.foldr_cons, List.foldr_nil] at hfirst ⊢
          exact hfirst
      | @cons index' content' indexes contents hstays' hrest =>
          have hnext := ih (app before content)
          rw [hassoc, hlen] at hnext
          rw [List.map_cons, List.map_cons, starts_cons_cons, List.zipWith_cons_cons,
            List.flatten_cons, List.map_append, List.foldr_cons, hfirst, List.zipWith_cons_cons,
            List.flatten_cons]
          congr 1
          rw [← hnext, List.zipWith_map_right, List.map_cons]
          simp only [add_assoc]

variable {nil}

/-- **Gathering from the concatenation.** -/
theorem gather (hassoc : ∀ a b c, app (app a b) c = app a (app b c))
    (hlen : ∀ a b, len (app a b) = len a + len b) (hnil : ∀ a, app nil a = a)
    (hzero : len nil = 0) {indexes : List (List ι)} {contents : List C}
    (h : List.Forall₂ (Stays app len shift pick) indexes contents) :
    (rebased shift (contents.map len) indexes).map (pick (contents.foldr app nil)) =
      (List.zipWith (fun index content => index.map (pick content)) indexes contents).flatten := by
  have hall := gather_after nil hassoc hlen h nil
  rw [hnil, hzero] at hall
  simp only [zero_add] at hall
  exact hall

end Gather

/-! ### Runs -/

section Runs

variable {β : Type}

/-- Cut a content into runs of these lengths. -/
def runs : List Nat → List β → List (List β)
  | [], _ => []
  | n :: ns, content => content.take n :: runs ns (content.drop n)

theorem length_runs (ns : List Nat) (content : List β) : (runs ns content).length = ns.length := by
  induction ns generalizing content with
  | nil => rfl
  | cons n ns ih => exact congrArg (· + 1) (ih _)

/-- **Runs of a concatenation.** -/
theorem runs_append {ns ms : List Nat} {first second : List β} (h : first.length = ns.sum) :
    runs (ns ++ ms) (first ++ second) = runs ns first ++ runs ms second := by
  induction ns generalizing first with
  | nil =>
      have hnil : first = [] := List.length_eq_zero_iff.mp h
      rw [hnil]
      rfl
  | cons n ns ih =>
      rw [List.sum_cons] at h
      have htake : (first ++ second).take n = first.take n := by
        rw [List.take_append_of_le_length (by omega)]
      have hdrop : (first ++ second).drop n = first.drop n ++ second := by
        rw [List.drop_append_of_le_length (by omega)]
      have hrest : (first.drop n).length = ns.sum := by
        rw [List.length_drop]
        omega
      change (first ++ second).take n :: runs (ns ++ ms) ((first ++ second).drop n) =
        first.take n :: (runs ns (first.drop n) ++ runs ms second)
      rw [htake, hdrop, ih hrest]

/-- Only the content that the runs cover counts. -/
theorem runs_take (ns : List Nat) (content : List β) :
    runs ns (content.take ns.sum) = runs ns content := by
  induction ns generalizing content with
  | nil => rfl
  | cons n ns ih =>
      rw [List.sum_cons]
      change (content.take (n + ns.sum)).take n :: runs ns ((content.take (n + ns.sum)).drop n) =
        content.take n :: runs ns (content.drop n)
      rw [List.take_take, Nat.min_eq_left (Nat.le_add_right n ns.sum), List.drop_take,
        Nat.add_sub_cancel_left, ih]

end Runs

end Gathering
