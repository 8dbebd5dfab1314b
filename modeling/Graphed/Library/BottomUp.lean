import Mathlib.Data.List.Basic
import Mathlib.Data.List.Forall2
import Mathlib.Data.List.Induction
import Mathlib.Tactic.Common

/-!
# Bottom-up computation over a topological list

Nodes listed after their inputs can be computed in one pass, each from the results of its inputs.
The results satisfy the node equations, and nothing else does.
-/

namespace BottomUp

variable {α β : Type*} (inputs : α → List Nat) (f : α → List β → β) (default : β)

/-- Every input is an earlier position. -/
def Topological (nodes : List α) : Prop :=
  ∀ (i : Nat) (x : α), nodes[i]? = some x → ∀ j ∈ inputs x, j < i

/-- Append the result of one node. -/
def step (acc : List β) (x : α) : List β := acc ++ [f x ((inputs x).map (acc.getD · default))]

/-- The results of the nodes, in order. -/
def results (nodes : List α) : List β := nodes.foldl (step inputs f default) []

/-- `v` solves the node equations. -/
def Solves (nodes : List α) (v : Nat → β) : Prop :=
  ∀ (i : Nat) (x : α), nodes[i]? = some x → v i = f x ((inputs x).map v)

variable {inputs f default}

theorem Topological.of_isPrefix {xs ys : List α} (h : Topological inputs ys) (hpre : xs <+: ys) :
    Topological inputs xs := by
  obtain ⟨rest, rfl⟩ := hpre
  intro i x hx
  exact h i x (by rw [List.getElem?_append_left (List.getElem?_eq_some_iff.mp hx).1, hx])

theorem results_concat (nodes : List α) (x : α) :
    results inputs f default (nodes ++ [x]) = results inputs f default nodes ++
      [f x ((inputs x).map ((results inputs f default nodes).getD · default))] := by
  simp [results, step]

@[simp]
theorem length_results (nodes : List α) :
    (results inputs f default nodes).length = nodes.length := by
  induction nodes using List.reverseRecOn with
  | nil => rfl
  | append_singleton nodes x ih => simp [results_concat, ih]

/-- A later node changes no earlier result. -/
theorem getD_results_concat {nodes : List α} {x : α} {j : Nat} (hj : j < nodes.length) :
    (results inputs f default (nodes ++ [x])).getD j default =
      (results inputs f default nodes).getD j default := by
  rw [results_concat, List.getD_eq_getElem?_getD, List.getD_eq_getElem?_getD,
    List.getElem?_append_left (by simpa using hj)]

/-- The results solve the node equations. -/
theorem results_solves {nodes : List α} (h : Topological inputs nodes) :
    Solves inputs f nodes fun i => (results inputs f default nodes).getD i default := by
  induction nodes using List.reverseRecOn with
  | nil => intro i x hx; simp at hx
  | append_singleton nodes y ih =>
      have hpre := h.of_isPrefix (List.prefix_append nodes [y])
      intro i x hx
      have hbelow : ∀ j ∈ inputs x, j < nodes.length := by
        intro j hj
        have hji := h i x hx j hj
        have hi := (List.getElem?_eq_some_iff.mp hx).1
        rw [List.length_append, List.length_singleton] at hi
        omega
      have hmap : (inputs x).map (fun j => (results inputs f default (nodes ++ [y])).getD j default) =
          (inputs x).map ((results inputs f default nodes).getD · default) :=
        List.map_congr_left fun j hj => getD_results_concat (hbelow j hj)
      change (results inputs f default (nodes ++ [y])).getD i default = _
      rw [hmap]
      rcases Nat.lt_or_ge i nodes.length with hi | hi
      · rw [List.getElem?_append_left hi] at hx
        rw [getD_results_concat hi]
        exact ih hpre i x hx
      · obtain rfl : i = nodes.length := by
          have := (List.getElem?_eq_some_iff.mp hx).1
          simp only [List.length_append, List.length_singleton] at this
          omega
        rw [List.getElem?_append_right (Nat.le_refl _), Nat.sub_self, List.getElem?_singleton,
          if_pos rfl] at hx
        obtain rfl := Option.some.inj hx
        rw [results_concat, List.getD_eq_getElem?_getD,
          List.getElem?_append_right (by simp), length_results, Nat.sub_self]
        rfl

/-- Solutions agree on the nodes. -/
theorem Solves.eq {nodes : List α} (h : Topological inputs nodes) {v w : Nat → β}
    (hv : Solves inputs f nodes v) (hw : Solves inputs f nodes w) {i : Nat}
    (hi : i < nodes.length) : v i = w i := by
  induction i using Nat.strongRecOn with
  | ind i ih =>
      have hx := List.getElem?_eq_getElem hi
      rw [hv i _ hx, hw i _ hx]
      congr 1
      exact List.map_congr_left fun j hj => ih j (h i _ hx j hj) (Nat.lt_trans (h i _ hx j hj) hi)

theorem results_getD_eq {nodes : List α} (h : Topological inputs nodes) {v : Nat → β}
    (hv : Solves inputs f nodes v) {i : Nat} (hi : i < nodes.length) :
    (results inputs f default nodes).getD i default = v i :=
  (results_solves h).eq h hv hi

/-- Related steps from related defaults give related results. -/
theorem results_related {γ : Type*} {g : α → List γ → γ} {default' : γ} {R : β → γ → Prop}
    (hdefault : R default default')
    (hstep : ∀ x bs cs, List.Forall₂ R bs cs → R (f x bs) (g x cs)) (nodes : List α) (i : Nat) :
    R ((results inputs f default nodes).getD i default)
      ((results inputs g default' nodes).getD i default') := by
  induction nodes using List.reverseRecOn generalizing i with
  | nil => exact hdefault
  | append_singleton nodes x ih =>
      rw [results_concat, results_concat]
      simp only [List.getD_eq_getElem?_getD] at ih ⊢
      rcases Nat.lt_trichotomy i nodes.length with hi | rfl | hi
      · rw [List.getElem?_append_left (by simpa using hi),
          List.getElem?_append_left (by simpa using hi)]
        exact ih i
      · rw [List.getElem?_append_right (by simp), List.getElem?_append_right (by simp),
          length_results, length_results, Nat.sub_self]
        refine hstep x _ _ ?_
        rw [List.forall₂_map_left_iff, List.forall₂_map_right_iff, List.forall₂_same]
        exact fun j _ => ih j
      · rw [List.getElem?_eq_none (by simpa using Nat.succ_le_of_lt hi),
          List.getElem?_eq_none (by simpa using Nat.succ_le_of_lt hi)]
        exact hdefault

end BottomUp
