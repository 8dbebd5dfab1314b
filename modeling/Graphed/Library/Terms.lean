import Graphed.Library.BottomUp
import Graphed.Library.PostOrder
import Mathlib.Data.List.Induction

/-!
# Terms up to commutativity and identity operators

Terms over labels, the equivalence generated by swapping the operands of symmetric labels and
dropping identity labels of one operand, and a normal form for it: identity labels gone, symmetric
operands in the order of an injective rank. A graph of labels unfolds to terms, one for each node.
-/

namespace Terms

inductive Term (α : Type*) where
  | node (label : α) (args : List (Term α))

namespace Term

variable {α : Type*}

def label : Term α → α
  | node f _ => f

def args : Term α → List (Term α)
  | node _ ts => ts

@[simp]
theorem node_label_args (t : Term α) : node t.label t.args = t := by
  cases t
  rfl

theorem sizeOf_lt_of_mem_args {s t : Term α} (h : s ∈ t.args) : sizeOf s < sizeOf t := by
  cases t with
  | node f ts =>
      have hmem : sizeOf s < sizeOf ts := List.sizeOf_lt_of_mem h
      rw [node.sizeOf_spec]
      omega

/-- The terms below a term, through its operands. -/
noncomputable def dag : PostOrder.Dag (Term α) where
  children := args
  rank := sizeOf
  rank_lt := sizeOf_lt_of_mem_args

end Term

/-! ### The rules and the normal form -/

/-- Which labels are symmetric in two operands, and which are the identity on one. -/
structure Rules (α : Type*) where
  symmetric : α → Prop
  identity : α → Prop

variable {α κ : Type*}

/-- The equivalence the rules generate. -/
inductive TermEq (R : Rules α) : Term α → Term α → Prop
  | refl (t : Term α) : TermEq R t t
  | symm {s t : Term α} : TermEq R s t → TermEq R t s
  | trans {s t u : Term α} : TermEq R s t → TermEq R t u → TermEq R s u
  | congr {f : α} {ss ts : List (Term α)} (hlen : ss.length = ts.length)
      (hargs : ∀ (k : Nat) (s t : Term α), ss[k]? = some s → ts[k]? = some t → TermEq R s t) :
      TermEq R (.node f ss) (.node f ts)
  | commute {f : α} {s t : Term α} (hf : R.symmetric f) :
      TermEq R (.node f [s, t]) (.node f [t, s])
  | identity {f : α} {t : Term α} (hf : R.identity f) : TermEq R (.node f [t]) t

section NormalForm

variable (R : Rules α) [LinearOrder κ] (rank : Term α → κ)

open Classical in
/-- A label over normal operands. -/
noncomputable def norm (f : α) (ts : List (Term α)) : Term α :=
  match ts with
  | [t] => if R.identity f then t else .node f [t]
  | [s, t] => if R.symmetric f ∧ rank t < rank s then .node f [t, s] else .node f [s, t]
  | ts => .node f ts

/-- The normal form. -/
noncomputable def nf : Term α → Term α
  | .node f ts => norm R rank f (ts.attach.map fun t => nf t.1)
termination_by t => sizeOf t
decreasing_by exact Term.sizeOf_lt_of_mem_args t.2

theorem nf_node (f : α) (ts : List (Term α)) :
    nf R rank (.node f ts) = norm R rank f (ts.map (nf R rank)) := by
  rw [nf]
  simp

/-- The operands a label takes in normal form. -/
theorem norm_cases (f : α) (ts : List (Term α)) :
    (∃ t, ts = [t] ∧ R.identity f ∧ norm R rank f ts = t) ∨
    ¬ (R.identity f ∧ ∃ t, ts = [t]) ∧
      ((∃ s t, ts = [s, t] ∧ R.symmetric f ∧ rank t < rank s ∧
        norm R rank f ts = .node f [t, s]) ∨
      (∀ s t, ts = [s, t] → R.symmetric f → rank s ≤ rank t) ∧ norm R rank f ts = .node f ts) := by
  match ts with
  | [] => exact Or.inr ⟨by simp, Or.inr ⟨by simp, rfl⟩⟩
  | [t] =>
      by_cases hf : R.identity f
      · exact Or.inl ⟨t, rfl, hf, by rw [norm, if_pos hf]⟩
      · exact Or.inr ⟨fun h => hf h.1, Or.inr ⟨by simp, by rw [norm, if_neg hf]⟩⟩
  | [s, t] =>
      by_cases hf : R.symmetric f ∧ rank t < rank s
      · exact Or.inr ⟨by simp, Or.inl ⟨s, t, rfl, hf.1, hf.2, by rw [norm, if_pos hf]⟩⟩
      · refine Or.inr ⟨by simp, Or.inr ⟨fun s' t' hst hsym => ?_, by rw [norm, if_neg hf]⟩⟩
        simp only [List.cons.injEq, and_true] at hst
        obtain ⟨rfl, rfl⟩ := hst
        exact not_lt.mp fun hlt => hf ⟨hsym, hlt⟩
  | _ :: _ :: _ :: _ => exact Or.inr ⟨by simp, Or.inr ⟨by simp, rfl⟩⟩

variable {R rank}

theorem norm_identity {f : α} (hf : R.identity f) (t : Term α) : norm R rank f [t] = t := by
  rw [norm, if_pos hf]

/-- A symmetric label does not see the order of its operands. -/
theorem norm_swap (hrank : Function.Injective rank) {f : α} (hf : R.symmetric f)
    (s t : Term α) : norm R rank f [s, t] = norm R rank f [t, s] := by
  rcases lt_trichotomy (rank s) (rank t) with hlt | heq | hlt
  · rw [norm, norm, if_neg fun h => absurd h.2 (not_lt.mpr hlt.le), if_pos ⟨hf, hlt⟩]
  · rw [hrank heq]
  · rw [norm, norm, if_pos ⟨hf, hlt⟩, if_neg fun h => absurd h.2 (not_lt.mpr hlt.le)]

/-- Equivalent terms have one normal form. -/
theorem nf_eq_of_termEq (hrank : Function.Injective rank) {s t : Term α} (h : TermEq R s t) :
    nf R rank s = nf R rank t := by
  induction h with
  | refl => rfl
  | symm _ ih => exact ih.symm
  | trans _ _ ih₁ ih₂ => exact ih₁.trans ih₂
  | congr hlen _ ih =>
      rw [nf_node, nf_node]
      congr 1
      refine List.ext_getElem (by simpa using hlen) fun k hk hk' => ?_
      rw [List.getElem_map, List.getElem_map]
      exact ih k _ _ (List.getElem?_eq_getElem (by simpa using hk))
        (List.getElem?_eq_getElem (by simpa using hk'))
  | commute hf =>
      rw [nf_node, nf_node]
      exact norm_swap hrank hf _ _
  | identity hf =>
      rw [nf_node]
      exact norm_identity hf _

end NormalForm

/-! ### Unfolding a graph -/

section Unfold

variable {β : Type*} (labelOf : β → α) (inputs : β → List Nat) (default : Term α)

/-- The terms a graph's nodes unfold to. -/
def unfold (nodes : List β) (i : Nat) : Term α :=
  (BottomUp.results inputs (fun x ts => .node (labelOf x) ts) default nodes).getD i default

variable {labelOf inputs default}

theorem unfold_eq {nodes : List β} (h : BottomUp.Topological inputs nodes) {i : Nat} {x : β}
    (hi : nodes[i]? = some x) : unfold labelOf inputs default nodes i =
      .node (labelOf x) ((inputs x).map (unfold labelOf inputs default nodes)) :=
  BottomUp.results_solves h i x hi

/-- Appending a node leaves the terms before it. -/
theorem unfold_extend {nodes nodes' : List β} (h : BottomUp.Topological inputs nodes')
    (hpre : nodes <+: nodes') {i : Nat} (hi : i < nodes.length) :
    unfold labelOf inputs default nodes i = unfold labelOf inputs default nodes' i := by
  obtain ⟨rest, rfl⟩ := hpre
  refine (BottomUp.results_getD_eq (h.of_isPrefix (List.prefix_append nodes rest))
    (fun j x hj => ?_) hi)
  refine BottomUp.results_solves h j x ?_
  rw [List.getElem?_append_left (List.getElem?_eq_some_iff.mp hj).1, hj]

end Unfold

end Terms
