import Graphed.Core.Node
import Graphed.Library.Dict
import Graphed.Library.Liveness
import Graphed.Library.Traced
import Graphed.Library.Worklist

/-!
# Evaluating a compiled graph

A compiled graph is evaluated node by node in id order. A slot is emptied once its last consumer has
run. An explicit request, for some outputs or with the values of some nodes given, evaluates the
cone of the outputs, cut at the given nodes.
-/

namespace Graphed

/-- An operation inside a fused stage, its token decoded. -/
structure StageMember where
  name : String
  params : ParamMap
  inputs : List StageRef

/-- A node of a compiled graph as the store lists it. -/
inductive IrNode where
  | source (name : String) (params : ParamMap)
  | op (name : String) (params : ParamMap) (inputs : List Nat)
  | reduction (name : String) (params : ParamMap) (inputs : List Nat)
  | external (descriptor : PayloadDescriptor) (params : ParamMap) (inputs : List Nat)
  | stage (inputs : List Nat) (members : List StageMember)
  | exchange (params : ParamMap) (inputs : List Nat)
  | join (params : ParamMap) (inputs : List Nat)

instance : Inhabited IrNode := ⟨.source "" (.new [])⟩

def IrNode.inputs : IrNode → List Nat
  | source _ _ => []
  | op _ _ ins | reduction _ _ ins | external _ _ ins | stage ins _ | exchange _ ins
  | join _ ins => ins

/-- A failing dispatch: its node, and the member inside a fused stage. -/
abbrev Address := Nat × Option Nat

/-- What is evaluated: a node or a stage member, and the slots it was handed. -/
structure Reading (V : Type) where
  address : Address
  operands : List (Option V)

/-- What an evaluation is given beside the graph. An empty slot is handed on as it is. -/
structure Evaluator (V ε : Type) where
  sources : List (String × Except ε V)
  evalStage : String → List (Option V) → ParamMap → Except ε V
  unalignedOps : List String
  rows : Option V → Option Nat
  externals : List (String × (List (Option V) → Except ε V))
  dumps : ParamMap → String
  repr : ParamValue → String
  onFailure : Option (Address → String → List (Option V) → ε → Option ε)
  unboundSource : String → ε
  unboundExternal : String → ε
  misaligned : String → List Nat → ε
  unknownKind : String → ε

/-! ### Which slots are dropped when -/

/-- Each index with the last consumer that reads it. -/
def lastReads (inputs : List (List Nat)) : List (Nat × Nat) :=
  inputs.zipIdx.foldl
    (fun last used => used.1.foldl (fun last i => dictUpdate last [(i, used.2)]) last) []

/-- Each consumer with the indices it is the last to read, but for those to keep. -/
def lastConsumers (inputs : List (List Nat)) (keep : List Nat) : List (Nat × List Nat) :=
  (lastReads inputs).foldl
    (fun out item =>
      if item.1 ∈ keep then out
      else dictUpdate out [(item.2, (out.lookup item.2).getD [] ++ [item.1])]) []

/-! ### The cone of the outputs -/

/-- What a node leads to in a walk that does not go past a stop. -/
def coneInputs (nodes : List IrNode) (stop : List Nat) (nid : Nat) : List Nat :=
  if nid ∈ stop then [] else (nodes.getD nid default).inputs

/-- Enough turns for a walk from the roots. -/
def coneTurns (nodes : List IrNode) (roots : List Nat) : Nat :=
  roots.length + (nodes.map fun nd => nd.inputs.length).sum

/-- The nodes the roots depend on, the roots included. -/
def irCone (nodes : List IrNode) (roots stop : List Nat) : List Nat :=
  (Worklist.run (coneInputs nodes stop) roots (coneTurns nodes roots)).seen

namespace Evaluator

variable {V ε : Type} (E : Evaluator V ε)

/-! ### One dispatch -/

/-- The failure hook decides what a failure becomes. -/
def dispatch (address : Address) (op : String) (ins : List (Option V)) (call : Except ε V) :
    Except ε V :=
  call.mapError fun e => (E.onFailure.bind fun hook => hook address op ins e).getD e

/-- On one chunk of a dataset a row-wise operation's arrays are of one length. -/
def rowsAligned (op : String) (ins : List (Option V)) (params : ParamMap) : Except ε V :=
  let lengths := (ins.filterMap E.rows).dedup
  if 1 < lengths.length ∧ op ∉ E.unalignedOps then .error (E.misaligned op lengths.mergeSort)
  else E.evalStage op ins params

def evaluate (chunked : Bool) : String → List (Option V) → ParamMap → Except ε V :=
  if chunked then E.rowsAligned else E.evalStage

/-- The operation an external's failure names: the function a map declared, else its kind. -/
def externalOp (descriptor : PayloadDescriptor) (params : ParamMap) : String :=
  match params.entries.lookup "fn" with
  | none => "external:" ++ descriptor.kind
  | some name => "map " ++ E.repr name

/-- What picks an external's evaluator: its payload's hash and its parameters. -/
def evaluatorKey (contentHash : String) (params : ParamMap) : String :=
  contentHash ++ "|" ++ E.dumps params

def evaluateExternal (nid : Nat) (descriptor : PayloadDescriptor) (params : ParamMap)
    (ins : List (Option V)) : Except ε V :=
  match (E.externals.lookup (E.evaluatorKey descriptor.contentHash params)).or
      (E.externals.lookup descriptor.contentHash) with
  | none => .error (E.unboundExternal descriptor.contentHash)
  | some fn => E.dispatch (nid, none) (E.externalOp descriptor params) ins (fn ins)

/-- A node that is no stage, on the slots of its inputs. -/
def evaluateSingle (chunked : Bool) (nid : Nat) (nd : IrNode) (ins : List (Option V)) :
    Except ε V :=
  match nd with
  | .source name _ => (E.sources.lookup name).getD (.error (E.unboundSource name))
  | .op name params _ => E.dispatch (nid, none) name ins (E.evaluate chunked name ins params)
  | .reduction name params _ => E.dispatch (nid, none) name ins (E.evalStage name ins params)
  | .exchange params _ =>
      E.dispatch (nid, none) "exchange" ins (E.evalStage "exchange" ins params)
  | .join params _ => E.dispatch (nid, none) "join" ins (E.evalStage "join" ins params)
  | .external descriptor params _ => E.evaluateExternal nid descriptor params ins
  | .stage _ _ => .error (E.unknownKind "stage")

/-! ### Fused stages -/

/-- A member's operand: a slot of its stage's inputs, or of an earlier member. -/
def memberOperand (ins mvals : List (Option V)) : StageRef → Option V
  | .input i => ins.getD i none
  | .member i => mvals.getD i none

/-- The earlier members a member reads. -/
def memberInputs (m : StageMember) : List Nat :=
  m.inputs.filterMap fun ref =>
    match ref with
    | .input _ => none
    | .member i => some i

/-- One member, which drops the members it is the last to read. -/
def memberTurn (chunked : Bool) (nid : Nat) (ins : List (Option V))
    (release : List (Nat × List Nat)) (mvals : List (Option V)) (m : StageMember × Nat) :
    Traced (Reading V) ε (List (Option V)) := do
  let mins := m.1.inputs.map (memberOperand ins mvals)
  Traced.tell ⟨(nid, some m.2), mins⟩
  let v ← Traced.quietly
    (E.dispatch (nid, some m.2) m.1.name mins (E.evaluate chunked m.1.name mins m.1.params))
  pure (Liveness.drop (mvals ++ [some v]) ((release.lookup m.2).getD []))

/-- A fused stage's members inline; the last member's slot is the stage's. -/
def evaluateStage (chunked : Bool) (nid : Nat) (members : List StageMember)
    (ins : List (Option V)) : Traced (Reading V) ε (Option V) := do
  let release := lastConsumers (members.map memberInputs) [members.length - 1]
  let mvals ← members.zipIdx.foldlM (E.memberTurn chunked nid ins release) []
  pure (mvals.getLast?.getD none)

/-! ### The graph -/

/-- A node, on the slots of its inputs. -/
def evaluateNode (chunked : Bool) (nid : Nat) (nd : IrNode) (ins : List (Option V)) :
    Traced (Reading V) ε (Option V) :=
  match nd with
  | .stage _ members => E.evaluateStage chunked nid members ins
  | nd => some <$> Traced.quietly (E.evaluateSingle chunked nid nd ins)

/-- One node: a skipped one takes the value it is given, any other is evaluated on its inputs'
slots and drops those it is the last to read. -/
def nodeTurn (chunked : Bool) (skipped : Nat → Bool) (given : List (Nat × V))
    (release : List (Nat × List Nat)) (vals : List (Option V)) (nd : IrNode × Nat) :
    Traced (Reading V) ε (List (Option V)) :=
  if skipped nd.2 then pure (vals ++ [given.lookup nd.2])
  else do
    let ins := nd.1.inputs.map (vals.getD · none)
    Traced.tell ⟨(nd.2, none), ins⟩
    let v ← E.evaluateNode chunked nd.2 nd.1 ins
    pure (Liveness.drop (vals ++ [v]) ((release.lookup nd.2).getD []))

/-- What each node reads of the slots: nothing if it is skipped. -/
def slotReads (nodes : List IrNode) (skipped : Nat → Bool) : List (List Nat) :=
  nodes.zipIdx.map fun nd => if skipped nd.2 then [] else nd.1.inputs

/-- Evaluate all nodes but the skipped ones. -/
def evaluateSlots (nodes : List IrNode) (chunked : Bool) (skipped : Nat → Bool)
    (given : List (Nat × V)) (wanted : List Nat) : Traced (Reading V) ε (List (Option V)) :=
  nodes.zipIdx.foldlM
    (E.nodeTurn chunked skipped given (lastConsumers (slotReads nodes skipped) wanted)) []

/-- Evaluate a compiled graph: the slots of the wanted outputs, in order. Without explicit outputs
or given values every node is evaluated. -/
def evaluateIr (nodes : List IrNode) (marked : List Nat) (outputs : Option (List Nat))
    (given : Option (List (Nat × V))) (chunked : Bool) :
    Traced (Reading V) ε (List (Option V)) := do
  let wanted := outputs.getD marked
  let values := given.getD []
  let skipped nid := (outputs.isSome || given.isSome) &&
    (decide (nid ∉ irCone nodes wanted (values.map Prod.fst)) || (values.map Prod.fst).contains nid)
  let vals ← E.evaluateSlots nodes chunked skipped values wanted
  pure (wanted.map (vals.getD · none))

end Evaluator

end Graphed
