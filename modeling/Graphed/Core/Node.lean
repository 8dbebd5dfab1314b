import Graphed.Core.Param

/-!
# Nodes and operator tokens

A node is its structural key, and a node id is a position in the arena. Its token is the identity
of its operator, inputs left out: two nodes with one token apply the same operator.
-/

namespace Graphed

structure PayloadDescriptor where
  kind : String
  contentHash : String
  framework : String
  version : String
  ioSchema : String
  preprocessingRef : Option String
deriving DecidableEq

/-- A reference inside a stage: an input slot or an earlier member. -/
inductive StageRef where
  | input (i : Nat)
  | member (i : Nat)
deriving DecidableEq

structure StageOp where
  token : String
  inputs : List StageRef
deriving DecidableEq

/-- The structural identity of a node. -/
inductive NodeKey where
  | source (name : String) (params : ParamMap)
  | op (name : String) (params : ParamMap) (inputs : List Nat)
  | reduction (name : String) (params : ParamMap) (inputs : List Nat)
  | external (descriptor : PayloadDescriptor) (params : ParamMap) (inputs : List Nat)
  | stage (inputs : List Nat) (members : List StageOp)
  | exchange (scheme : ParamMap) (inputs : List Nat)
  | join (scheme : ParamMap) (inputs : List Nat)
deriving BEq

instance : Inhabited NodeKey := ⟨.source "" (.new [])⟩

/-- Append the parameter encoding to a token prefix. -/
def withParams (pre : String) (params : ParamMap) : String :=
  if params.isEmpty then pre else pre ++ "|" ++ params.token

def StageRef.token : StageRef → String
  | input i => "i" ++ i.repr
  | member i => "m" ++ i.repr

namespace NodeKey

def inputs : NodeKey → List Nat
  | source _ _ => []
  | op _ _ ins | reduction _ _ ins | external _ _ ins | stage ins _ | exchange _ ins
  | join _ ins => ins

/-- Fusion never merges across a boundary. -/
def isBoundary : NodeKey → Bool
  | op _ _ _ => false
  | _ => true

/-- The operator identity of a node, its inputs left out. -/
def token : NodeKey → String
  | source name params => withParams ("src|" ++ escapeToken name) params
  | op name params _ => withParams ("op|" ++ escapeToken name) params
  | reduction name params _ => withParams ("red|" ++ escapeToken name) params
  | external d params _ =>
      withParams ("ext|" ++ escapeToken d.kind ++ "|" ++ escapeToken d.contentHash ++ "|"
        ++ escapeToken d.framework ++ "|" ++ escapeToken d.version ++ "|" ++ escapeToken d.ioSchema
        ++ "|" ++ match d.preprocessingRef with
          | none => "-"
          | some r => "+" ++ escapeToken r) params
  | stage _ members =>
      "stage|" ++ ";".intercalate (members.map fun m =>
        escapeToken m.token ++ "=" ++ ",".intercalate (m.inputs.map StageRef.token))
  | exchange scheme _ => withParams "exch" scheme
  | join scheme _ => withParams "join" scheme

/-- The same operator on other inputs; a source has none. -/
def withInputs : NodeKey → List Nat → NodeKey
  | source name params, _ => source name params
  | op name params _, ins => op name params ins
  | reduction name params _, ins => reduction name params ins
  | external d params _, ins => external d params ins
  | stage _ members, ins => stage ins members
  | exchange scheme _, ins => exchange scheme ins
  | join scheme _, ins => join scheme ins

def isSource : NodeKey → Bool
  | source _ _ => true
  | _ => false

def isStage : NodeKey → Bool
  | stage _ _ => true
  | _ => false

@[simp]
theorem token_withInputs (key : NodeKey) (ins : List Nat) :
    (key.withInputs ins).token = key.token := by
  cases key <;> rfl

@[simp]
theorem isBoundary_withInputs (key : NodeKey) (ins : List Nat) :
    (key.withInputs ins).isBoundary = key.isBoundary := by
  cases key <;> rfl

@[simp]
theorem withInputs_withInputs (key : NodeKey) (ins ins' : List Nat) :
    (key.withInputs ins).withInputs ins' = key.withInputs ins' := by
  cases key <;> rfl

@[simp]
theorem withInputs_inputs (key : NodeKey) : key.withInputs key.inputs = key := by
  cases key <;> rfl

theorem inputs_withInputs {key : NodeKey} {ins : List Nat}
    (h : key.isSource = true → ins = []) : (key.withInputs ins).inputs = ins := by
  cases key with
  | source name params => exact (h rfl).symm
  | _ => rfl

theorem inputs_of_isSource {key : NodeKey} (h : key.isSource = true) : key.inputs = [] := by
  cases key <;> simp_all [isSource, inputs]

theorem mem_of_mem_inputs_withInputs {key : NodeKey} {ins : List Nat} {x : Nat}
    (h : x ∈ (key.withInputs ins).inputs) : x ∈ ins := by
  cases key <;> first | exact h | exact absurd h (by simp [withInputs, inputs])

@[simp]
theorem isSource_withInputs (key : NodeKey) (ins : List Nat) :
    (key.withInputs ins).isSource = key.isSource := by
  cases key <;> rfl

@[simp]
theorem isStage_withInputs (key : NodeKey) (ins : List Nat) :
    (key.withInputs ins).isStage = key.isStage := by
  cases key <;> rfl

/-- Mapping a node's inputs, which a source lets be. -/
@[simp]
theorem inputs_withInputs_map (key : NodeKey) (f : Nat → Nat) :
    (key.withInputs (key.inputs.map f)).inputs = key.inputs.map f :=
  inputs_withInputs fun h => by rw [inputs_of_isSource h, List.map_nil]

/-- The key with every NaN parameter replaced by the canonical one. -/
def canon : NodeKey → NodeKey
  | source name params => source name params.canon
  | op name params ins => op name params.canon ins
  | reduction name params ins => reduction name params.canon ins
  | external d params ins => external d params.canon ins
  | stage ins members => stage ins members
  | exchange scheme ins => exchange scheme.canon ins
  | join scheme ins => join scheme.canon ins

/-- Interning equality is equality of representatives. -/
@[simp]
theorem beq_iff {a b : NodeKey} : (a == b) = true ↔ a.canon = b.canon := by
  change instBEqNodeKey.beq a b = true ↔ _
  cases a <;> cases b <;> simp [instBEqNodeKey.beq, canon]

@[simp]
theorem canon_canon (key : NodeKey) : key.canon.canon = key.canon := by
  cases key <;> simp [canon]

@[simp]
theorem token_canon (key : NodeKey) : key.canon.token = key.token := by
  cases key <;> simp [canon, token, withParams]

@[simp]
theorem inputs_canon (key : NodeKey) : key.canon.inputs = key.inputs := by
  cases key <;> rfl

@[simp]
theorem isBoundary_canon (key : NodeKey) : key.canon.isBoundary = key.isBoundary := by
  cases key <;> rfl

@[simp]
theorem canon_withInputs (key : NodeKey) (ins : List Nat) :
    (key.withInputs ins).canon = key.canon.withInputs ins := by
  cases key <;> rfl

/-- The operator a node applies: its representative with the inputs left out. -/
def operator (key : NodeKey) : NodeKey := key.canon.withInputs []

@[simp]
theorem operator_withInputs (key : NodeKey) (ins : List Nat) :
    (key.withInputs ins).operator = key.operator := by
  simp [operator]

@[simp]
theorem operator_canon (key : NodeKey) : key.canon.operator = key.operator := by
  simp [operator]

/-- Interning compares the operator and the inputs. -/
theorem beq_iff_operator {a b : NodeKey} :
    (a == b) = true ↔ a.operator = b.operator ∧ a.inputs = b.inputs := by
  rw [beq_iff]
  constructor
  · intro h
    exact ⟨congrArg (withInputs · []) h, by rw [← inputs_canon a, h, inputs_canon]⟩
  · rintro ⟨hop, hins⟩
    have hwith := congrArg (withInputs · a.inputs) hop
    simp only [operator, withInputs_withInputs] at hwith
    rwa [hins, ← inputs_canon b, withInputs_inputs, inputs_canon, ← hins, ← inputs_canon a,
      withInputs_inputs] at hwith

@[simp]
theorem beq_refl (key : NodeKey) : (key == key) = true := beq_iff.mpr rfl

end NodeKey

end Graphed
