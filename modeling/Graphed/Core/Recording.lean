import Graphed.Core.Store
import Mathlib.Data.List.Induction

/-!
# Recorded stores

The six recording operations intern the key they build, so a store that only they and output marks
have touched keeps the invariant and holds no stage.
-/

namespace Graphed

/-- One recording call with its arguments. -/
inductive Recording where
  | source (name : String) (params : ParamMap)
  | op (name : String) (inputs : List Nat) (params : ParamMap)
  | reduction (name : String) (inputs : List Nat) (params : ParamMap)
  | external (descriptor : PayloadDescriptor) (inputs : List Nat) (params : ParamMap)
  | exchange (inputs : List Nat) (scheme : ParamMap)
  | join (inputs : List Nat) (scheme : ParamMap)

namespace Recording

/-- Make the call. -/
def run (s : GraphStore) : Recording → Except BadNodeId Nat × GraphStore
  | source name params => s.addSource name params
  | op name inputs params => s.addOp name inputs params
  | reduction name inputs params => s.addReduction name inputs params
  | external descriptor inputs params => s.addExternal descriptor inputs params
  | exchange inputs scheme => s.addExchange inputs scheme
  | join inputs scheme => s.addJoin inputs scheme

/-- The key a call interns. -/
def key : Recording → NodeKey
  | source name params => .source name params
  | op name inputs params => .op name params inputs
  | reduction name inputs params => .reduction name params inputs
  | external descriptor inputs params => .external descriptor params inputs
  | exchange inputs scheme => .exchange scheme inputs
  | join inputs scheme => .join scheme inputs

theorem run_eq_intern (s : GraphStore) (call : Recording) : call.run s = s.intern call.key := by
  cases call <;> rfl

end Recording

theorem Recording.isStage_key (call : Recording) : call.key.isStage = false := by
  cases call <;> rfl

/-- A store reached by recording calls and output marks, whether or not they succeed. -/
inductive Recorded : GraphStore → Prop
  | new : Recorded .new
  | record {s : GraphStore} (call : Recording) : Recorded s → Recorded (call.run s).2
  | mark {s : GraphStore} (id : Nat) : Recorded s → Recorded (s.markOutput id).2

namespace GraphStore

/-- The store some calls build. -/
def record (calls : List Recording) : GraphStore :=
  calls.foldl (fun s call => (call.run s).2) .new

theorem recorded_record (calls : List Recording) : Recorded (record calls) := by
  induction calls using List.reverseRecOn with
  | nil => exact Recorded.new
  | append_singleton calls call ih =>
      rw [record, List.foldl_append]
      exact Recorded.record call ih

end GraphStore

namespace Recorded

variable {s : GraphStore}

theorem interned (hs : Recorded s) : s.Interned := by
  induction hs with
  | new => exact GraphStore.interned_new
  | record call _ ih =>
      rw [call.run_eq_intern]
      exact ih.intern call.key
  | mark id _ ih => exact ih.markOutput id

/-- Recording makes no stage. -/
theorem isStage_eq_false (hs : Recorded s) : ∀ key ∈ s.nodes, key.isStage = false := by
  induction hs with
  | new => simp [GraphStore.new]
  | @record s call _ ih =>
      rw [call.run_eq_intern]
      rcases s.intern_cases call.key with ⟨_, _, _, h⟩ | ⟨_, ⟨_, _, h⟩ | ⟨_, h⟩⟩ <;> rw [h]
      · exact ih
      · exact ih
      · intro key hkey
        rcases List.mem_append.mp hkey with hkey | hkey
        · exact ih key hkey
        · rw [List.mem_singleton.mp hkey, call.isStage_key]
  | mark id _ ih =>
      rw [GraphStore.nodes_markOutput]
      exact ih

end Recorded

end Graphed
