import Graphed.Core.Token
import Graphed.Library.FirstSeen

/-!
# The interned store

A store is an arena of node keys, a table from keys to their positions, and the marked outputs. Each
operation is one critical section of the store's mutex, so it is one step on this state. `Interned`
is what the steps keep.
-/

namespace Graphed

open FirstSeen

/-- A referenced id is not in the arena. -/
structure BadNodeId where
  id : Nat
deriving DecidableEq

/-- Where a node landed in a reduced graph: the reduced node, and the member of a stage. -/
abbrev Landing := Nat × Option Nat

/-- The record to reduced correspondence; `none` where the node was dropped. -/
abbrev NodeMap := List (Option Landing)

structure GraphStore where
  nodes : List NodeKey
  internTable : List (NodeKey × Nat)
  outputs : List Nat
  nodeMap : NodeMap

namespace GraphStore

def new : GraphStore := ⟨[], [], [], []⟩

/-- The intern table's answer, keys compared by interning equality. -/
def lookup (s : GraphStore) (key : NodeKey) : Option Nat :=
  (s.internTable.find? fun e => e.1 == key).map Prod.snd

/-- Append a key the table does not hold. -/
def push (s : GraphStore) (key : NodeKey) : GraphStore :=
  { s with nodes := s.nodes ++ [key], internTable := (key, s.nodes.length) :: s.internTable }

/-- Intern a key, validating its input ids in the same critical section. -/
def intern (s : GraphStore) (key : NodeKey) : Except BadNodeId Nat × GraphStore :=
  match key.inputs.find? fun i => decide (s.nodes.length ≤ i) with
  | some i => (.error ⟨i⟩, s)
  | none =>
      match s.lookup key with
      | some id => (.ok id, s)
      | none => (.ok s.nodes.length, s.push key)

def addSource (s : GraphStore) (name : String) (params : ParamMap) :
    Except BadNodeId Nat × GraphStore := s.intern (.source name params)

def addOp (s : GraphStore) (name : String) (inputs : List Nat) (params : ParamMap) :
    Except BadNodeId Nat × GraphStore := s.intern (.op name params inputs)

def addReduction (s : GraphStore) (name : String) (inputs : List Nat) (params : ParamMap) :
    Except BadNodeId Nat × GraphStore := s.intern (.reduction name params inputs)

def addExternal (s : GraphStore) (descriptor : PayloadDescriptor) (inputs : List Nat)
    (params : ParamMap) : Except BadNodeId Nat × GraphStore :=
  s.intern (.external descriptor params inputs)

def addExchange (s : GraphStore) (inputs : List Nat) (scheme : ParamMap) :
    Except BadNodeId Nat × GraphStore := s.intern (.exchange scheme inputs)

def addJoin (s : GraphStore) (inputs : List Nat) (scheme : ParamMap) :
    Except BadNodeId Nat × GraphStore := s.intern (.join scheme inputs)

/-- Intern a pre-built key, used when a graph is rebuilt. -/
def addKey (s : GraphStore) (key : NodeKey) : Except BadNodeId Nat × GraphStore := s.intern key

def markOutput (s : GraphStore) (id : Nat) : Except BadNodeId Unit × GraphStore :=
  if s.nodes.length ≤ id then (.error ⟨id⟩, s)
  else if id ∈ s.outputs then (.ok (), s)
  else (.ok (), { s with outputs := s.outputs ++ [id] })

/-- The nodes with id at least `start`. -/
def snapshotFrom (s : GraphStore) (start : Nat) : List NodeKey := s.nodes.drop start

/-- The arena, refusing an output id it does not hold. -/
def arenaHolding (s : GraphStore) (outputs : List Nat) : Except BadNodeId (List NodeKey) :=
  match outputs.find? fun o => decide (s.nodes.length ≤ o) with
  | some bad => .error ⟨bad⟩
  | none => .ok s.nodes

theorem arenaHolding_eq_ok {s : GraphStore} {outputs : List Nat} {nodes : List NodeKey} :
    s.arenaHolding outputs = .ok nodes ↔
      nodes = s.nodes ∧ ∀ o ∈ outputs, o < s.nodes.length := by
  unfold arenaHolding
  cases hbad : outputs.find? fun o => decide (s.nodes.length ≤ o) with
  | some bad =>
      have hle : s.nodes.length ≤ bad := by simpa using List.find?_some hbad
      have hmem := List.mem_of_find?_eq_some hbad
      simp only [reduceCtorEq, false_iff, not_and]
      exact fun _ hvalid => Nat.not_lt.mpr hle (hvalid bad hmem)
  | none =>
      have hvalid : ∀ o ∈ outputs, o < s.nodes.length := by simpa using hbad
      simp only [Except.ok.injEq]
      exact ⟨fun h => ⟨h.symm, hvalid⟩, fun h => h.1.symm⟩

/-! ### The invariant -/

/-- Every input of a node is an id below the node. -/
def TopologicalKeys (nodes : List NodeKey) : Prop :=
  ∀ (i : Nat) (key : NodeKey), nodes[i]? = some key → ∀ x ∈ key.inputs, x < i

/-- What every step keeps: distinct keys, inputs below their node, a table that answers exactly the
arena's positions, and valid outputs marked once. -/
structure Interned (s : GraphStore) : Prop where
  distinct : ∀ (i j : Nat) (a b : NodeKey), s.nodes[i]? = some a → s.nodes[j]? = some b →
    (a == b) = true → i = j
  inputs_lt : TopologicalKeys s.nodes
  lookup_iff : ∀ (key : NodeKey) (id : Nat),
    s.lookup key = some id ↔ ∃ k : NodeKey, s.nodes[id]? = some k ∧ (k == key) = true
  outputs_lt : ∀ o ∈ s.outputs, o < s.nodes.length
  outputs_nodup : s.outputs.Nodup

theorem interned_new : new.Interned where
  distinct := by simp [new]
  inputs_lt := by simp [new, TopologicalKeys]
  lookup_iff := by simp [new, lookup]
  outputs_lt := by simp [new]
  outputs_nodup := by simp [new]

/-- What interning can do: refuse a bad input, answer a key already held, or append a new one. -/
theorem intern_cases (s : GraphStore) (key : NodeKey) :
    (∃ i ∈ key.inputs, s.nodes.length ≤ i ∧ s.intern key = (.error ⟨i⟩, s)) ∨
    (∀ i ∈ key.inputs, i < s.nodes.length) ∧
      ((∃ id, s.lookup key = some id ∧ s.intern key = (.ok id, s)) ∨
        s.lookup key = none ∧ s.intern key = (.ok s.nodes.length, s.push key)) := by
  unfold intern
  cases hbad : key.inputs.find? fun i => decide (s.nodes.length ≤ i) with
  | some i =>
      exact Or.inl ⟨i, List.mem_of_find?_eq_some hbad,
        by simpa using List.find?_some hbad, rfl⟩
  | none =>
      have hvalid : ∀ i ∈ key.inputs, i < s.nodes.length := by simpa using hbad
      cases hlookup : s.lookup key with
      | some id => exact Or.inr ⟨hvalid, Or.inl ⟨id, rfl, rfl⟩⟩
      | none => exact Or.inr ⟨hvalid, Or.inr ⟨rfl, rfl⟩⟩

theorem lookup_push (s : GraphStore) (key key' : NodeKey) :
    (s.push key).lookup key' =
      if (key == key') = true then some s.nodes.length else s.lookup key' := by
  simp only [lookup, push, List.find?_cons]
  split <;> simp_all

/-- Appending a key the table does not hold keeps the invariant. -/
theorem Interned.push {s : GraphStore} (hs : s.Interned) {key : NodeKey}
    (hinputs : ∀ i ∈ key.inputs, i < s.nodes.length) (hnew : s.lookup key = none) :
    (s.push key).Interned where
  distinct := by
    have hfresh : ∀ (i : Nat) a, s.nodes[i]? = some a → (a == key) = false := by
      intro i a ha
      rw [Bool.eq_false_iff]
      intro hkey
      rw [(hs.lookup_iff key i).mpr ⟨a, ha, hkey⟩] at hnew
      exact absurd hnew (by simp)
    intro i j a b ha hb hab
    simp only [GraphStore.push, List.getElem?_append, List.getElem?_singleton] at ha hb
    split_ifs at ha hb with hi hj hj' hi'
    · exact hs.distinct i j a b ha hb hab
    · rw [← Option.some.inj hb, hfresh i a ha] at hab
      exact absurd hab (by decide)
    · rw [← Option.some.inj ha] at hab
      have hba := hfresh j b hb
      rw [Bool.eq_false_iff] at hba
      exact absurd (NodeKey.beq_iff.mpr (NodeKey.beq_iff.mp hab).symm) hba
    · omega
  inputs_lt := by
    intro i k hk x hx
    simp only [GraphStore.push, List.getElem?_append, List.getElem?_singleton] at hk
    split_ifs at hk with hi hi'
    · exact hs.inputs_lt i k hk x hx
    · rw [← Option.some.inj hk] at hx
      have := hinputs x hx
      omega
  lookup_iff := by
    intro key' id
    rw [lookup_push]
    split_ifs with hkey
    · constructor
      · intro h
        obtain rfl := Option.some.inj h
        exact ⟨key, by simp [GraphStore.push], hkey⟩
      · rintro ⟨k, hk, hkey'⟩
        simp only [GraphStore.push, List.getElem?_append, List.getElem?_singleton] at hk
        split_ifs at hk with hi hi'
        · have hsame : (k == key) = true :=
            NodeKey.beq_iff.mpr ((NodeKey.beq_iff.mp hkey').trans (NodeKey.beq_iff.mp hkey).symm)
          rw [(hs.lookup_iff key id).mpr ⟨k, hk, hsame⟩] at hnew
          exact absurd hnew (by simp)
        · congr 1
          omega
    · rw [hs.lookup_iff]
      constructor
      · rintro ⟨k, hk, hkey'⟩
        have hlt : id < s.nodes.length := (List.getElem?_eq_some_iff.mp hk).1
        exact ⟨k, by simp [GraphStore.push, List.getElem?_append_left hlt, hk], hkey'⟩
      · rintro ⟨k, hk, hkey'⟩
        simp only [GraphStore.push, List.getElem?_append, List.getElem?_singleton] at hk
        split_ifs at hk with hi hi'
        · exact ⟨k, hk, hkey'⟩
        · rw [Option.some.inj hk] at hkey
          exact absurd hkey' hkey
  outputs_lt := by
    intro o ho
    have := hs.outputs_lt o ho
    simp only [GraphStore.push, List.length_append, List.length_singleton]
    omega
  outputs_nodup := hs.outputs_nodup

theorem Interned.intern {s : GraphStore} (hs : s.Interned) (key : NodeKey) :
    (s.intern key).2.Interned := by
  rcases s.intern_cases key with ⟨i, -, -, h⟩ | ⟨hinputs, ⟨id, -, h⟩ | ⟨hnew, h⟩⟩
  · rwa [h]
  · rwa [h]
  · rw [h]
    exact hs.push hinputs hnew

theorem Interned.markOutput {s : GraphStore} (hs : s.Interned) (id : Nat) :
    (s.markOutput id).2.Interned := by
  unfold GraphStore.markOutput
  split_ifs with hbad hmem
  · exact hs
  · exact hs
  · exact
      { distinct := hs.distinct
        inputs_lt := hs.inputs_lt
        lookup_iff := hs.lookup_iff
        outputs_lt := by
          intro o ho
          rcases List.mem_append.mp ho with ho | ho
          · exact hs.outputs_lt o ho
          · rw [List.mem_singleton.mp ho]
            exact Nat.lt_of_not_le hbad
        outputs_nodup := by
          refine List.nodup_append.mpr ⟨hs.outputs_nodup, by simp, ?_⟩
          intro a ha b hb heq
          rw [heq, List.mem_singleton.mp hb] at ha
          exact hmem ha }

/-- Interning a key with valid inputs appends it unless an equal one is held. -/
theorem Interned.nodes_intern {s : GraphStore} (hs : s.Interned) {key : NodeKey}
    (hinputs : ∀ i ∈ key.inputs, i < s.nodes.length) :
    (s.intern key).2.nodes =
      if s.nodes.any (· == key) = true then s.nodes else s.nodes ++ [key] := by
  rcases s.intern_cases key with ⟨i, hi, hbad, -⟩ | ⟨-, ⟨id, hlookup, h⟩ | ⟨hnew, h⟩⟩
  · exact absurd (hinputs i hi) (Nat.not_lt.mpr hbad)
  · obtain ⟨k, hk, hkey⟩ := (hs.lookup_iff key id).mp hlookup
    rw [h, if_pos (List.any_eq_true.mpr ⟨k, List.mem_of_getElem? hk, hkey⟩)]
  · rw [h, if_neg]
    · rfl
    · intro hany
      obtain ⟨k, hk, hkey⟩ := List.any_eq_true.mp hany
      obtain ⟨id, hid⟩ := List.mem_iff_getElem?.mp hk
      rw [(hs.lookup_iff key id).mpr ⟨k, hid, hkey⟩] at hnew
      exact absurd hnew (by simp)

theorem outputs_intern (s : GraphStore) (key : NodeKey) :
    (s.intern key).2.outputs = s.outputs := by
  rcases s.intern_cases key with ⟨_, _, _, h⟩ | ⟨_, ⟨_, _, h⟩ | ⟨_, h⟩⟩ <;> rw [h]
  rfl

theorem nodes_markOutput (s : GraphStore) (id : Nat) : (s.markOutput id).2.nodes = s.nodes := by
  unfold markOutput
  split_ifs <;> rfl

/-- Marking valid outputs keeps the nodes and lists the outputs once each. -/
theorem foldl_markOutput {s : GraphStore} (hs : s.Interned) (outs : List Nat)
    (houts : ∀ o ∈ outs, o < s.nodes.length) :
    (outs.foldl (fun s o => (s.markOutput o).2) s).Interned ∧
      (outs.foldl (fun s o => (s.markOutput o).2) s).nodes = s.nodes ∧
      (outs.foldl (fun s o => (s.markOutput o).2) s).outputs = outs.foldl insertNew s.outputs := by
  induction outs generalizing s with
  | nil => exact ⟨hs, rfl, rfl⟩
  | cons o outs ih =>
      have ho := houts o List.mem_cons_self
      have hmark : (s.markOutput o).2.nodes = s.nodes ∧
          (s.markOutput o).2.outputs = insertNew s.outputs o := by
        unfold markOutput insertNew
        rw [if_neg (Nat.not_le.mpr ho)]
        split_ifs <;> exact ⟨rfl, rfl⟩
      obtain ⟨hinterned, hnodes, houtputs⟩ := ih (hs.markOutput o) fun p hp =>
        hmark.1.symm ▸ houts p (List.mem_cons_of_mem o hp)
      rw [List.foldl_cons]
      exact ⟨hinterned, hnodes.trans hmark.1, by rw [houtputs, hmark.2, List.foldl_cons]⟩

end GraphStore

end Graphed
