import Mathlib.Algebra.BigOperators.Group.List.Basic
import Mathlib.Algebra.Ring.Nat
import Mathlib.Data.List.Nodup
import Mathlib.Logic.Relation
import Mathlib.Tactic.Common

/-!
# Walking a graph with a worklist

A walk keeps what it has seen and a stack of what is left to do. A turn takes the top of the stack;
a node met for the first time is seen and its children are stacked. With enough turns the walk has
seen exactly what its roots reach.
-/

namespace Worklist

variable {α : Type*} [DecidableEq α] (children : α → List α)

/-- What a walk has seen, and what is left to do with the next node first. -/
structure Walk (α : Type*) where
  seen : List α
  todo : List α

/-- One turn. -/
def turn (w : Walk α) : Walk α :=
  match w.todo with
  | [] => w
  | x :: rest =>
      if x ∈ w.seen then { w with todo := rest }
      else ⟨w.seen ++ [x], (children x).reverse ++ rest⟩

/-- So many turns from the roots, the last of which is taken first. -/
def run (roots : List α) (fuel : Nat) : Walk α := (turn children)^[fuel] ⟨[], roots.reverse⟩

/-- What the roots reach. -/
def Reached (roots : List α) (z : α) : Prop :=
  ∃ r ∈ roots, Relation.ReflTransGen (fun x y => y ∈ children x) r z

/-- Everything met is reached, and what a seen node leads to is seen or left to do. -/
structure Sound (roots : List α) (w : Walk α) : Prop where
  reached : ∀ x ∈ w.seen ++ w.todo, Reached children roots x
  roots : ∀ r ∈ roots, r ∈ w.seen ++ w.todo
  children : ∀ x ∈ w.seen, ∀ y ∈ children x, y ∈ w.seen ++ w.todo

/-- A bound on the turns that are left. -/
def pending (nodes : List α) (w : Walk α) : Nat :=
  w.todo.length +
    ((nodes.filter fun x => x ∉ w.seen).map fun x => (children x).length).sum

variable {children} {roots : List α} {w : Walk α}

theorem turn_nil (h : w.todo = []) : turn children w = w := by
  unfold turn
  rw [h]

theorem turn_cons {x : α} {rest : List α} (h : w.todo = x :: rest) : turn children w =
    if x ∈ w.seen then { w with todo := rest }
    else ⟨w.seen ++ [x], (children x).reverse ++ rest⟩ := by
  unfold turn
  rw [h]

omit [DecidableEq α] in
theorem sound_start : Sound children roots ⟨[], roots.reverse⟩ where
  reached x hx := ⟨x, by simpa using hx, Relation.ReflTransGen.refl⟩
  roots r hr := by simpa using hr
  children x hx := absurd hx (by simp)

theorem Sound.turn (h : Sound children roots w) : Sound children roots (turn children w) := by
  cases htodo : w.todo with
  | nil => rwa [turn_nil htodo]
  | cons x rest =>
      rw [turn_cons htodo]
      have hreached := h.reached
      have hroots := h.roots
      have hchildren := h.children
      rw [htodo] at hreached hroots hchildren
      by_cases hx : x ∈ w.seen
      · rw [if_pos hx]
        have hkeep : ∀ y, y ∈ w.seen ++ x :: rest → y ∈ w.seen ++ rest := by
          intro y hy
          rw [List.mem_append, List.mem_cons] at hy
          rw [List.mem_append]
          exact hy.elim Or.inl fun hy => hy.elim (fun heq => Or.inl (heq ▸ hx)) Or.inr
        exact ⟨fun y hy => hreached y ((List.sublist_cons_self x rest).append_left _ |>.subset hy),
          fun r hr => hkeep r (hroots r hr), fun y hy z hz => hkeep z (hchildren y hy z hz)⟩
      · rw [if_neg hx]
        have hkeep : ∀ y, y ∈ w.seen ++ x :: rest →
            y ∈ (w.seen ++ [x]) ++ ((children x).reverse ++ rest) := by
          intro y hy
          simp only [List.mem_append, List.mem_cons, List.not_mem_nil, or_false] at hy ⊢
          tauto
        refine ⟨fun y hy => ?_, fun r hr => hkeep r (hroots r hr), fun y hy z hz => ?_⟩
        · simp only [List.mem_append, List.mem_singleton, List.mem_reverse] at hy
          rcases hy with (hy | rfl) | hy | hy
          · exact hreached y (List.mem_append_left _ hy)
          · exact hreached y (List.mem_append_right _ List.mem_cons_self)
          · obtain ⟨r, hr, hreach⟩ := hreached x (List.mem_append_right _ List.mem_cons_self)
            exact ⟨r, hr, hreach.tail hy⟩
          · exact hreached y (List.mem_append_right _ (List.mem_cons_of_mem x hy))
        · rcases List.mem_append.mp hy with hy | hy
          · exact hkeep z (hchildren y hy z hz)
          · obtain rfl := List.mem_singleton.mp hy
            exact List.mem_append_right _ (List.mem_append_left _ (List.mem_reverse.mpr hz))

/-- A turn takes one from what is pending. -/
theorem pending_turn (children : α → List α) {nodes : List α} (hnodup : nodes.Nodup) {x : α}
    {rest : List α} (htodo : w.todo = x :: rest) (hx : x ∈ nodes) :
    pending children nodes (turn children w) + 1 = pending children nodes w := by
  rw [turn_cons htodo]
  unfold pending
  rw [htodo]
  by_cases hseen : x ∈ w.seen
  · rw [if_pos hseen, List.length_cons, Nat.add_right_comm]
  · have hmem : x ∈ nodes.filter fun y => y ∉ w.seen := List.mem_filter.mpr ⟨hx, by simpa⟩
    have herase : (nodes.filter fun y => y ∉ w.seen ++ [x]) =
        (nodes.filter fun y => y ∉ w.seen).erase x := by
      rw [(hnodup.filter _).erase_eq_filter, List.filter_filter]
      refine List.filter_congr fun y _ => ?_
      by_cases heq : y = x <;> simp [heq]
    have hsum := List.sum_map_erase (fun y => (children y).length) hmem
    rw [if_neg hseen]
    simp only [herase, List.length_append, List.length_reverse, List.length_cons, ← hsum]
    omega

theorem iterate_nil (h : w.todo = []) (fuel : Nat) : (turn children)^[fuel] w = w :=
  Function.iterate_fixed (turn_nil h) fuel

theorem Sound.finishes {nodes : List α} (hnodup : nodes.Nodup)
    (hclosed : ∀ x, Reached children roots x → x ∈ nodes) {fuel : Nat}
    (h : Sound children roots w) (hfuel : pending children nodes w ≤ fuel) :
    Sound children roots ((Worklist.turn children)^[fuel] w) ∧
      ((Worklist.turn children)^[fuel] w).todo = [] := by
  induction fuel generalizing w with
  | zero =>
      refine ⟨h, List.length_eq_zero_iff.mp ?_⟩
      unfold pending at hfuel
      rw [Function.iterate_zero_apply]
      omega
  | succ fuel ih =>
      cases htodo : w.todo with
      | nil =>
          rw [iterate_nil htodo]
          exact ⟨h, htodo⟩
      | cons x rest =>
          rw [Function.iterate_succ_apply]
          have hx := hclosed x (h.reached x (by simp [htodo]))
          have hstep := pending_turn children hnodup htodo hx
          exact ih h.turn (by omega)

/-- **A finished walk** has seen what the roots reach. -/
theorem mem_run {nodes : List α} (hnodup : nodes.Nodup)
    (hclosed : ∀ x, Reached children roots x → x ∈ nodes) {fuel : Nat}
    (hfuel : roots.length + (nodes.map fun x => (children x).length).sum ≤ fuel) {z : α} :
    z ∈ (run children roots fuel).seen ↔ Reached children roots z := by
  have hpending : pending children nodes ⟨[], roots.reverse⟩ ≤ fuel := by
    unfold pending
    simpa using hfuel
  obtain ⟨hsound, hdone⟩ := sound_start.finishes hnodup hclosed hpending
  have hseen : ∀ x, x ∈ (run children roots fuel).seen ++ (run children roots fuel).todo →
      x ∈ (run children roots fuel).seen := by
    intro x hx
    rwa [run, hdone, List.append_nil] at hx
  constructor
  · intro hz
    exact hsound.reached z (List.mem_append_left _ hz)
  · rintro ⟨r, hr, hreach⟩
    induction hreach with
    | refl => exact hseen r (hsound.roots r hr)
    | tail _ hchild ih => exact hseen _ (hsound.children _ ih _ hchild)

end Worklist
