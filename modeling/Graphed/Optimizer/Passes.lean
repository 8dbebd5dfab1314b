import Graphed.Core.Store
import Graphed.Library.BottomUp
import Graphed.Library.Bytes
import Graphed.Library.PostOrder
import Graphed.Optimizer.Engine

/-!
# Plain passes

Structural keys orient the symmetric operators, dead code elimination copies what the outputs reach
in post-order, and CSE hash-conses. Each pass comes with what it computes: DCE is the post-order of
the arena, and CSE is a quotient of its graph.
-/

namespace Graphed

open FirstSeen

/-! ### Structural keys -/

/-- The commute rule applies to this node: no parameters, two inputs. -/
def isSymmetric : NodeKey → Bool
  | .op name params inputs =>
      inputs.length == 2 && params.isEmpty && symmetricOps.contains name
  | _ => false

def fnvOffset : BitVec 128 := 0x6c62272e07bb014262b821756295c58d#128

def fnvPrime : BitVec 128 := 0x0000000001000000000000000000013b#128

/-- FNV-1a over 128 bits. -/
def fnv1a (bytes : List UInt8) : BitVec 128 :=
  bytes.foldl (fun h b => (h ^^^ BitVec.ofNat 128 b.toNat) * fnvPrime) fnvOffset

/-- The bytes a key hashes: the token behind its length, and the input keys. -/
def keyBytes (token : String) (inputKeys : List (BitVec 128)) : List UInt8 :=
  Bytes.leBytes 8 token.utf8ByteSize ++ token.toByteArray.data.toList ++
    inputKeys.flatMap fun k => Bytes.leBytes 16 k.toNat

/-- A node's structural key from its inputs' keys. An identity operator has its input's key, and a
symmetric operator hashes its operand keys sorted. -/
def structuralKey (key : NodeKey) (token : String) (inputKeys : List (BitVec 128)) : BitVec 128 :=
  match inputKeys with
  | [only] =>
      if !key.isBoundary && identityTokens.contains token then only
      else fnv1a (keyBytes token inputKeys)
  | [a, b] =>
      if isSymmetric key then fnv1a (keyBytes token (if b < a then [b, a] else [a, b]))
      else fnv1a (keyBytes token inputKeys)
  | _ => fnv1a (keyBytes token inputKeys)

/-- `orient` would swap this node's two operands. -/
def swaps (key : NodeKey) (inputKeys : List (BitVec 128)) : Bool :=
  match inputKeys with
  | [ka, kb] => decide (kb < ka) && isSymmetric key
  | _ => false

/-- The key with a symmetric operator's operands in structural-key order. -/
def orient (key : NodeKey) (inputKeys : List (BitVec 128)) : NodeKey :=
  match key.inputs with
  | [a, b] => if swaps key inputKeys then key.withInputs [b, a] else key
  | _ => key

/-- The structural keys of an arena's nodes. -/
def structuralKeys (nodes : List NodeKey) : List (BitVec 128) :=
  BottomUp.results NodeKey.inputs (fun key ins => structuralKey key key.token ins) 0 nodes

/-- For each node, whether `orient` swaps its operands. -/
def symmetricSwaps (nodes : List NodeKey) : List Bool :=
  nodes.map fun key => swaps key (key.inputs.map ((structuralKeys nodes).getD · 0))

/-! ### Dead code elimination -/

def inputsAt (nodes : List NodeKey) (i : Nat) : List Nat := (nodes.getD i default).inputs

/-- The `k`-th operand to visit, a marked node's operands swapped. -/
def dceInput (nodes : List NodeKey) (swap : Option (List Bool)) (i k : Nat) : Option Nat :=
  let ins := inputsAt nodes i
  let k := if k < ins.length ∧ (swap.map (·.getD i false)).getD false = true then 1 - k else k
  ins[k]?

/-- The operands in the order the walk takes them. -/
def operands (nodes : List NodeKey) (swap : Option (List Bool)) (i : Nat) : List Nat :=
  (List.range (inputsAt nodes i).length).filterMap (dceInput nodes swap i)

/-- The pass's state. An entry of `remap` is `none` where the node is not kept. -/
structure Dce where
  remap : List (Option Nat)
  kept : List NodeKey
  stack : List (Nat × Nat)

namespace Dce

def position (remap : List (Option Nat)) (i : Nat) : Nat := (remap.getD i none).getD 0

/-- Keep a node whose operands were kept. -/
def emit (nodes : List NodeKey) (swap : Option (List Bool)) (s : Dce) (i : Nat) : Dce :=
  let remap := s.remap.set i (some s.kept.length)
  { remap
    kept := s.kept ++
      [(nodes.getD i default).withInputs ((operands nodes swap i).map (position remap))]
    stack := s.stack }

/-- One turn of the loop over the stack of nodes and next inputs. -/
def step (nodes : List NodeKey) (swap : Option (List Bool)) (s : Dce) : Dce :=
  match s.stack with
  | [] => s
  | (i, next) :: rest =>
      match dceInput nodes swap i next with
      | some inp =>
          if s.remap.getD inp none = none then { s with stack := (inp, 0) :: (i, next + 1) :: rest }
          else { s with stack := (i, next + 1) :: rest }
      | none => emit nodes swap { s with stack := rest } i

/-- Enough turns for every node to be kept once and every input to be visited once. -/
def fuel (nodes : List NodeKey) : Nat := (nodes.map fun key => key.inputs.length + 1).sum

/-- Push an output that was not kept, and loop until the stack is empty. -/
def visitOutput (nodes : List NodeKey) (swap : Option (List Bool)) (s : Dce) (o : Nat) : Dce :=
  (step nodes swap)^[fuel nodes]
    (if s.remap.getD o none = none then { s with stack := (o, 0) :: s.stack } else s)

end Dce

/-- The reachable nodes compacted, the remapped outputs, and the remap itself. -/
def deadCodeElimination (nodes : List NodeKey) (outputs : List Nat) (swap : Option (List Bool)) :
    List NodeKey × List Nat × List (Option Nat) :=
  let s := outputs.foldl (Dce.visitOutput nodes swap) ⟨List.replicate nodes.length none, [], []⟩
  (s.kept, outputs.map (Dce.position s.remap), s.remap)

def toEngineGraph (keys : List NodeKey) (outputs : List Nat) : EngineGraph :=
  ⟨keys.map fun k => ⟨k.token, k.isBoundary, k.inputs⟩, outputs⟩

/-! ### CSE -/

/-- The nodes kept so far are the `seen` table, keyed by token and inputs. -/
structure Cse where
  remap : List Nat
  nodes : List EngineNode

def Cse.step (s : Cse) (node : EngineNode) : Cse :=
  let inputs := node.inputs.map (s.remap.getD · 0)
  let idx := s.nodes.findIdx fun m => decide (m.token = node.token ∧ m.inputs = inputs)
  if idx < s.nodes.length then { s with remap := s.remap ++ [idx] }
  else { remap := s.remap ++ [idx], nodes := s.nodes ++ [⟨node.token, node.boundary, inputs⟩] }

/-- Hash-cons nodes with one token and one input list. -/
def cse (graph : EngineGraph) : EngineGraph × List Nat :=
  let s := graph.nodes.foldl Cse.step ⟨[], []⟩
  (⟨s.nodes, graph.outputs.map (s.remap.getD · 0)⟩, s.remap)

end Graphed
