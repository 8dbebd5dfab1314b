import Graphed.Core.Recording
import Graphed.Library.BottomUp
import Graphed.Optimizer.Rules

/-!
# The meaning of a graph

An interpretation gives each operator token a function of its input values. A node's value comes
from its inputs' values; a stage runs its members in order and has the value of the last.
-/

namespace Graphed

open GraphStore

variable {V : Type*} (I : String → List V → V)

/-- A member's operand: a value of the stage's slots or of an earlier member. -/
def refValue (ins vals : List (Option V)) : StageRef → Option V
  | .input i => ins.getD i none
  | .member i => vals.getD i none

/-- The values of a stage's members, in order. -/
def memberValues (ins : List (Option V)) (members : List StageOp) : List (Option V) :=
  members.foldl
    (fun vals m => vals ++ [((m.inputs.map (refValue ins vals)).mapM id).map (I m.token)]) []

/-- A node's value from its inputs' values. -/
def nodeValue (key : NodeKey) (ins : List (Option V)) : Option V :=
  match key with
  | .stage _ members => ((memberValues I ins members).getLast?).join
  | key => (ins.mapM id).map (I key.token)

/-- The values of a store's nodes. -/
def values (nodes : List NodeKey) : List (Option V) :=
  BottomUp.results NodeKey.inputs (nodeValue I) none nodes

/-- The value a landing names: a node's, or a stage member's. -/
def landingValue (nodes : List NodeKey) (l : Landing) : Option V :=
  match l.2 with
  | none => (values I nodes).getD l.1 none
  | some m =>
      match nodes[l.1]? with
      | some (.stage ins members) =>
          (memberValues I (ins.map ((values I nodes).getD · none)) members).getD m none
      | _ => none

/-- The rules hold of the interpretation: symmetric operators commute, and identity operators are
their input. -/
structure RespectsRules : Prop where
  commute : ∀ t ∈ symmetricTokens, ∀ x y, I t [x, y] = I t [y, x]
  identity : ∀ t ∈ identityTokens, ∀ x, I t [x] = x

variable {I}

section Equations

@[simp]
theorem mapM_map_some {α : Type*} (v : α → V) (xs : List α) :
    (xs.map fun x => some (v x)).mapM id = some (xs.map v) := by
  induction xs with
  | nil => rfl
  | cons x xs ih => simp_all [List.mapM_cons]

@[simp]
theorem nodeValue_withInputs (key : NodeKey) (ins : List Nat) (vals : List (Option V)) :
    nodeValue I (key.withInputs ins) vals = nodeValue I key vals := by
  cases key <;> rfl

@[simp]
theorem nodeValue_canon (key : NodeKey) (vals : List (Option V)) :
    nodeValue I key.canon vals = nodeValue I key vals := by
  cases key <;> simp only [nodeValue, NodeKey.canon, ← NodeKey.token_canon (.source _ _),
    ← NodeKey.token_canon (.op _ _ _), ← NodeKey.token_canon (.reduction _ _ _),
    ← NodeKey.token_canon (.external _ _ _), ← NodeKey.token_canon (.exchange _ _),
    ← NodeKey.token_canon (.join _ _), ParamMap.canon_canon]

theorem nodeValue_of_not_stage {key : NodeKey} (h : key.isStage = false) (v : Nat → V)
    (xs : List Nat) :
    nodeValue I key (xs.map fun x => some (v x)) = some (I key.token (xs.map v)) := by
  cases key with
  | stage ins members => exact absurd h (by simp [NodeKey.isStage])
  | _ => simp only [nodeValue, mapM_map_some, Option.map_some]

theorem memberValues_concat (ins : List (Option V)) (members : List StageOp) (m : StageOp) :
    memberValues I ins (members ++ [m]) = memberValues I ins members ++
      [((m.inputs.map (refValue ins (memberValues I ins members))).mapM id).map (I m.token)] := by
  simp [memberValues]

/-- Solutions of the node equations are the values. -/
theorem values_getD {nodes : List NodeKey} (htopo : TopologicalKeys nodes) {v : Nat → V}
    (hv : BottomUp.Solves NodeKey.inputs (nodeValue I) nodes fun i => some (v i)) {i : Nat}
    (hi : i < nodes.length) : (values I nodes).getD i none = some (v i) :=
  BottomUp.results_getD_eq htopo hv hi

/-- The values of an arena without stages. -/
def arenaValue (I : String → List V → V) (nodes : List NodeKey) (i : Nat) : V :=
  (BottomUp.results NodeKey.inputs (fun key ins => I key.token ins) (I "" []) nodes).getD i
    (I "" [])

theorem arenaValue_eq {nodes : List NodeKey} (htopo : TopologicalKeys nodes) {i : Nat}
    {key : NodeKey} (hi : nodes[i]? = some key) :
    arenaValue I nodes i = I key.token (key.inputs.map (arenaValue I nodes)) := by
  have hsolves : BottomUp.Solves NodeKey.inputs (fun key ins => I key.token ins) nodes
      (arenaValue I nodes) := BottomUp.results_solves htopo
  exact hsolves i key hi

theorem values_arena {nodes : List NodeKey} (htopo : TopologicalKeys nodes)
    (hstage : ∀ key ∈ nodes, key.isStage = false) {i : Nat} (hi : i < nodes.length) :
    (values I nodes).getD i none = some (arenaValue I nodes i) := by
  refine values_getD htopo (fun i key hkey => ?_) hi
  rw [nodeValue_of_not_stage (hstage key (List.mem_of_getElem? hkey)),
    ← arenaValue_eq (I := I) htopo hkey]

end Equations

/-! ### Two interpretations -/

section Related

variable {W : Type*} {J : String → List W → W} {P : V → W → Prop}

theorem mapM_related {vs : List (Option V)} {ws : List (Option W)}
    (h : List.Forall₂ (Option.Rel P) vs ws) :
    Option.Rel (List.Forall₂ P) (vs.mapM id) (ws.mapM id) := by
  induction h with
  | nil => exact Option.Rel.some List.Forall₂.nil
  | @cons v w vs ws hvw _ ih =>
      rw [List.mapM_cons, List.mapM_cons]
      cases hvw with
      | none => exact Option.Rel.none
      | some hvw =>
          generalize vs.mapM id = vs' at ih
          generalize ws.mapM id = ws' at ih
          cases ih with
          | none => exact Option.Rel.none
          | some ih => exact Option.Rel.some (List.Forall₂.cons hvw ih)

/-- Interpretations that keep a relation, token by token, relate the values of any nodes. -/
theorem values_related (h : ∀ t vs ws, List.Forall₂ P vs ws → P (I t vs) (J t ws))
    (nodes : List NodeKey) (i : Nat) :
    Option.Rel P ((values I nodes).getD i none) ((values J nodes).getD i none) := by
  have happly : ∀ t vs ws, List.Forall₂ (Option.Rel P) vs ws →
      Option.Rel P ((vs.mapM id).map (I t)) ((ws.mapM id).map (J t)) := by
    intro t vs ws hvs
    have hm := mapM_related hvs
    generalize vs.mapM id = vs' at hm
    generalize ws.mapM id = ws' at hm
    cases hm with
    | none => exact Option.Rel.none
    | some hm => exact Option.Rel.some (h t _ _ hm)
  have hget : ∀ {vs : List (Option V)} {ws : List (Option W)} (i : Nat),
      List.Forall₂ (Option.Rel P) vs ws → Option.Rel P (vs.getD i none) (ws.getD i none) := by
    intro vs ws i hvs
    induction hvs generalizing i with
    | nil => exact Option.Rel.none
    | cons hvw _ ih =>
        cases i with
        | zero => exact hvw
        | succ i => exact ih i
  have hmembers : ∀ {ins : List (Option V)} {ins' : List (Option W)},
      List.Forall₂ (Option.Rel P) ins ins' → ∀ members : List StageOp,
        List.Forall₂ (Option.Rel P) (memberValues I ins members) (memberValues J ins' members) := by
    intro ins ins' hins members
    induction members using List.reverseRecOn with
    | nil => exact List.Forall₂.nil
    | append_singleton members m ih =>
        rw [memberValues_concat, memberValues_concat]
        refine List.rel_append ih (List.Forall₂.cons (happly _ _ _ ?_) List.Forall₂.nil)
        rw [List.forall₂_map_left_iff, List.forall₂_map_right_iff, List.forall₂_same]
        intro ref _
        cases ref with
        | input i => exact hget i hins
        | member i => exact hget i ih
  refine BottomUp.results_related Option.Rel.none (fun key vs ws hvs => ?_) nodes i
  cases key with
  | stage ins members =>
      have hlast := hmembers hvs members
      change Option.Rel P ((memberValues I vs members).getLast?).join
        ((memberValues J ws members).getLast?).join
      rw [List.getLast?_eq_head?_reverse, List.getLast?_eq_head?_reverse]
      have hreverse := List.forall₂_reverse_iff.mpr hlast
      generalize (memberValues I vs members).reverse = xs at hreverse
      generalize (memberValues J ws members).reverse = ys at hreverse
      cases hreverse with
      | nil => exact Option.Rel.none
      | cons hvw _ => exact hvw
  | _ => exact happly _ _ _ hvs

end Related

end Graphed
