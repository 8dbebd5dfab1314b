import Graphed.Library.Attempts
import Graphed.Library.Integers
import Graphed.Library.SortedJson
import Graphed.Library.SpacedJson

/-!
# Recorded method calls

A call of a behavior method is recorded as JSON: its arrays join the node's inputs and stand in the
text as their index, and a NumPy scalar stands as its dtype and its item.
-/

namespace Graphed.MethodCalls

open JsonText

/-! ### Arguments -/

mutual

/-- An argument; `other` is a value of a type that JSON has no place for. -/
inductive Arg (F A S : Type) where
  | array (a : A)
  | list (items : Args F A S)
  | tuple (items : Args F A S)
  | dict (entries : Entries F A S)
  | scalar (s : S)
  | none
  | bool (value : Bool)
  | int (value : Int)
  | float (x : F)
  | str (text : List Char)
  | other (typeName : String)

inductive Args (F A S : Type) where
  | nil
  | cons (item : Arg F A S) (rest : Args F A S)

/-- The items of a dict, whose keys are distinct texts. -/
inductive Entries (F A S : Type) where
  | nil
  | cons (key : List Char) (value : Arg F A S) (rest : Entries F A S)

end

variable {F A S V : Type}

def Entries.keys : Entries F A S → List (List Char)
  | .nil => []
  | .cons key _ rest => key :: rest.keys

def isWhole (n : Number) : Bool := n.text.all fun c => c.isDigit || c == '-'

/-- Python's finite floats: their text, what reads it, and what `int` makes of one. -/
structure Floats where
  Float : Type
  repr : Float → Number
  read : Number → Float
  trunc : Float → Int
  repr_real : ∀ x, isWhole (repr x) = false
  read_repr : ∀ x, read (repr x) = x

/-- NumPy's scalars: `item()`, `str(dtype)`, and `np.dtype(name).type(value)`. -/
structure NumpyScalars (P : Floats) where
  Scalar : Type
  item : Scalar → Arg P.Float Empty Empty
  dtype : Scalar → List Char
  typed : Value → Value → Option Scalar

/-! ### Dicts in the order of their keys -/

def Entries.insert (key : List Char) (value : Arg F A S) : Entries F A S → Entries F A S
  | .nil => .cons key value .nil
  | .cons k v rest =>
      if key ≤ k then .cons key value (.cons k v rest) else .cons k v (rest.insert key value)

mutual

/-- Every dict in the order of its keys. -/
def Arg.ordered : Arg F A S → Arg F A S
  | .list items => .list items.ordered
  | .tuple items => .tuple items.ordered
  | .dict entries => .dict entries.ordered
  | .array a => .array a
  | .scalar s => .scalar s
  | .none => .none
  | .bool value => .bool value
  | .int value => .int value
  | .float x => .float x
  | .str text => .str text
  | .other typeName => .other typeName

def Args.ordered : Args F A S → Args F A S
  | .nil => .nil
  | .cons item rest => .cons item.ordered rest.ordered

def Entries.ordered : Entries F A S → Entries F A S
  | .nil => .nil
  | .cons key value rest => rest.ordered.insert key value.ordered

end

/-! ### Recording -/

/-- Where an argument stands in a call. -/
inductive Place where
  | arg (i : Nat)
  | kwarg (key : List Char)
  | item (place : Place) (i : Nat)
  | entry (place : Place) (key : List Char)

/-- `GraphedTypeError`, by what it says of the argument. -/
inductive Refusal where
  | unsupported (place : Place) (typeName : String)
  | reserved (place : Place) (keys : List (List Char))

def refKey : List Char := ['$']

def dtypeKey : List Char := ['$', 'd', 't', 'y', 'p', 'e']

def valueKey : List Char := ['v']

/-- The shapes of an array's index and of a scalar. -/
def isReserved (keys : List (List Char)) : Bool :=
  keys.isPerm [refKey] || keys.isPerm [dtypeKey, valueKey]

section Encode

variable (repr : F → Number) (scalar : Place → S → Except Refusal Value)

mutual

/-- `encode`, of an argument whose dicts are in order, with the inputs so far. -/
def encode (place : Place) : Arg F A S → List A → Except Refusal (Value × List A)
  | .array a, inputs =>
      .ok (.obj (.cons refKey (.num (.ofInt inputs.length)) .nil), inputs ++ [a])
  | .list items, inputs => do
      let (values, inputs) ← encodeItems place.item 0 items inputs
      .ok (.arr values, inputs)
  | .tuple items, inputs => do
      let (values, inputs) ← encodeItems place.item 0 items inputs
      .ok (.arr values, inputs)
  | .dict entries, inputs =>
      if isReserved entries.keys then .error (.reserved place entries.keys)
      else do
        let (fields, inputs) ← encodeEntries place.entry entries inputs
        .ok (.obj fields, inputs)
  | .scalar s, inputs => (scalar place s).map fun value => (value, inputs)
  | .none, inputs => .ok (.word .null, inputs)
  | .bool value, inputs => .ok (.word (if value then .true else .false), inputs)
  | .int value, inputs => .ok (.num (.ofInt value), inputs)
  | .float x, inputs => .ok (.num (repr x), inputs)
  | .str text, inputs => .ok (.str text, inputs)
  | .other typeName, _ => .error (.unsupported place typeName)

def encodeItems (under : Nat → Place) (i : Nat) :
    Args F A S → List A → Except Refusal (Items × List A)
  | .nil, inputs => .ok (.nil, inputs)
  | .cons item rest, inputs => do
      let (value, inputs) ← encode (under i) item inputs
      let (values, inputs) ← encodeItems under (i + 1) rest inputs
      .ok (.cons value values, inputs)

def encodeEntries (under : List Char → Place) :
    Entries F A S → List A → Except Refusal (Fields × List A)
  | .nil, inputs => .ok (.nil, inputs)
  | .cons key item rest, inputs => do
      let (value, inputs) ← encode (under key) item inputs
      let (fields, inputs) ← encodeEntries under rest inputs
      .ok (.cons key value fields, inputs)

end

end Encode

variable {P : Floats} (N : NumpyScalars P)

/-- The item of a scalar, which holds no array. -/
def encodeItem (place : Place) (s : N.Scalar) : Except Refusal Value :=
  (encode P.repr (fun _ => Empty.elim) place (N.item s).ordered []).map (·.1)

/-- A scalar by its dtype and its item. -/
def encodeScalar (place : Place) (s : N.Scalar) : Except Refusal Value := do
  let item ← encodeItem N place s
  .ok (.obj (.cons dtypeKey (.str (N.dtype s)) (.cons valueKey item .nil)))

/-- The params of a `method` node. -/
structure Params where
  method : String
  args : List Char
  kwargs : List Char
deriving DecidableEq

/-- `_method_params`: the inputs, the receiver first, and the params. -/
def methodParams (receiver : A) (name : String) (args : Args P.Float A N.Scalar)
    (kwargs : Entries P.Float A N.Scalar) : Except Refusal (List A × Params) := do
  let (items, inputs) ← encodeItems P.repr (encodeScalar N) .arg 0 args.ordered [receiver]
  let (fields, inputs) ← encodeEntries P.repr (encodeScalar N) .kwarg kwargs.ordered inputs
  .ok (inputs, ⟨name, dumps (sortKeys (.arr items)), dumps (sortKeys (.obj fields))⟩)

/-! ### Evaluating -/

/-- `int(value)` of a value JSON gives. -/
def toInt (P : Floats) : Value → Option Int
  | .num n => if isWhole n then Integers.readInt n.text else some (P.trunc (P.read n))
  | .str text => Integers.readInt text
  | .word .true => some 1
  | .word .false => some 0
  | _ => none

/-- `items[i]`, from the end where `i` is negative. -/
def getItem (items : List V) (i : Int) : Option V :=
  if 0 ≤ i then items[i.toNat]?
  else if 0 ≤ items.length + i then items[(items.length + i).toNat]? else none

def wordArg : Word → Arg F A S
  | .null => .none
  | .true => .bool true
  | .false => .bool false
  | .nan => .other "float"
  | .infinity => .other "float"
  | .negInfinity => .other "float"

mutual

/-- `walk`. -/
def walk (operands : List V) : Value → Option (Arg P.Float V N.Scalar)
  | .word w => some (wordArg w)
  | .num n =>
      if isWhole n then (Integers.readInt n.text).map .int else some (.float (P.read n))
  | .str text => some (.str text)
  | .arr items => (walkItems operands items).map .list
  | .obj fields =>
      if fields.keys.isPerm [refKey] then
        ((fields.get refKey).bind (toInt P)).bind fun i => (getItem operands i).map .array
      else if fields.keys.isPerm [dtypeKey, valueKey] then
        (fields.get dtypeKey).bind fun dtype => (fields.get valueKey).bind fun value =>
          (N.typed dtype value).map .scalar
      else (walkFields operands fields).map .dict

def walkItems (operands : List V) : Items → Option (Args P.Float V N.Scalar)
  | .nil => some .nil
  | .cons value rest =>
      (walk operands value).bind fun item => (walkItems operands rest).map (.cons item)

def walkFields (operands : List V) : Fields → Option (Entries P.Float V N.Scalar)
  | .nil => some .nil
  | .cons key value rest =>
      (walk operands value).bind fun item => (walkFields operands rest).map (.cons key item)

end

/-- `_decode_call`. -/
def decodeCall (text : List Char) (operands : List V) : Option (Arg P.Float V N.Scalar) :=
  (loads text).bind (walk N operands)

/-! ### The call that was written -/

mutual

/-- An argument on evaluated arrays, with lists for tuples. -/
def Arg.asRead (eval : A → V) : Arg F A S → Arg F V S
  | .array a => .array (eval a)
  | .list items => .list (items.asRead eval)
  | .tuple items => .list (items.asRead eval)
  | .dict entries => .dict (entries.asRead eval)
  | .scalar s => .scalar s
  | .none => .none
  | .bool value => .bool value
  | .int value => .int value
  | .float x => .float x
  | .str text => .str text
  | .other typeName => .other typeName

def Args.asRead (eval : A → V) : Args F A S → Args F V S
  | .nil => .nil
  | .cons item rest => .cons (item.asRead eval) (rest.asRead eval)

def Entries.asRead (eval : A → V) : Entries F A S → Entries F V S
  | .nil => .nil
  | .cons key value rest => .cons key (value.asRead eval) (rest.asRead eval)

end

/-- NumPy makes the scalar again of its dtype and its item. -/
def NumpyScalars.Revives (s : N.Scalar) : Prop :=
  ∀ place item, encodeItem N place s = .ok item → N.typed (.str (N.dtype s)) item = some s

mutual

/-- NumPy makes every scalar of the argument again. -/
def Arg.Revives : Arg P.Float A N.Scalar → Prop
  | .list items => items.Revives
  | .tuple items => items.Revives
  | .dict entries => entries.Revives
  | .scalar s => N.Revives s
  | _ => True

def Args.Revives : Args P.Float A N.Scalar → Prop
  | .nil => True
  | .cons item rest => item.Revives ∧ rest.Revives

def Entries.Revives : Entries P.Float A N.Scalar → Prop
  | .nil => True
  | .cons _ value rest => value.Revives ∧ rest.Revives

end

end Graphed.MethodCalls
