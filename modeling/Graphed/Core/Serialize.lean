import Graphed.Core.Store
import Graphed.Library.Codec

/-!
# The durable form

A store is written as a magic number, its nodes in id order and an output table, every length and
stage index in a `u32` field and every node id in a `u64` one. Reading re-interns the nodes in the
order they are written, so a node may come back under an earlier id.
-/

namespace Graphed

open Bytes Codec

/-- Format magic and version: `GIR1`. -/
def magic : List UInt8 := [0x47, 0x49, 0x52, 0x31]

/-- A malformed or wrong-version byte string. -/
inductive DecodeError where
  | badMagic
  | truncated
  | badTag (what : String) (tag : UInt8)
  | badUtf8
  | badNodeRef (i : Nat)
deriving DecidableEq

/-- A length or index that does not fit the format's `u32` field. -/
structure EncodeError where
  n : Nat
deriving DecidableEq

/-! ### ByteWriter -/

def putU32 (n : Nat) : ByteWriter EncodeError Unit := append (leBytes 4 n)

def putU64 (n : Nat) : ByteWriter EncodeError Unit := append (leBytes 8 n)

def putLen (n : Nat) : ByteWriter EncodeError Unit :=
  if 2 ^ 32 ≤ n then throw ⟨n⟩ else putU32 n

def putStr (s : String) : ByteWriter EncodeError Unit := do
  putLen s.utf8ByteSize
  append s.toByteArray.data.toList

def putValue : ParamValue → ByteWriter EncodeError Unit
  | .int a => do
      append [0]
      putU64 a.toUInt64.toNat
  | .float bits => do
      append [1]
      -- raw bits: interning identifies NaNs, the codec does not
      putU64 bits.toNat
  | .bool a => do
      append [2]
      append [if a then 1 else 0]
  | .str a => do
      append [3]
      putStr a

def putParams (p : ParamMap) : ByteWriter EncodeError Unit := do
  putLen p.entries.length
  forM p.entries fun e => do
    putStr e.1
    putValue e.2

def putInputs (inputs : List Nat) : ByteWriter EncodeError Unit := do
  putLen inputs.length
  forM inputs putU64

def putPreprocessingRef : Option String → ByteWriter EncodeError Unit
  | some s => do
      append [1]
      putStr s
  | none => append [0]

def putRef : StageRef → ByteWriter EncodeError Unit
  | .input i => do
      append [0]
      putLen i
  | .member i => do
      append [1]
      putLen i

def putMember (m : StageOp) : ByteWriter EncodeError Unit := do
  putStr m.token
  putLen m.inputs.length
  forM m.inputs putRef

def putNode : NodeKey → ByteWriter EncodeError Unit
  | .source name params => do
      append [0]
      putStr name
      putParams params
  | .op name params inputs => do
      append [1]
      putStr name
      putParams params
      putInputs inputs
  | .reduction name params inputs => do
      append [2]
      putStr name
      putParams params
      putInputs inputs
  | .external d params inputs => do
      append [3]
      putStr d.kind
      putStr d.contentHash
      putStr d.framework
      putStr d.version
      putStr d.ioSchema
      putPreprocessingRef d.preprocessingRef
      putParams params
      putInputs inputs
  | .exchange scheme inputs => do
      append [5]
      putParams scheme
      putInputs inputs
  | .join scheme inputs => do
      append [6]
      putParams scheme
      putInputs inputs
  | .stage inputs members => do
      append [4]
      putInputs inputs
      putLen members.length
      forM members putMember

def putStore (s : GraphStore) (outputs : List Nat) : ByteWriter EncodeError Unit := do
  append magic
  putLen s.nodes.length
  forM s.nodes putNode
  putLen outputs.length
  forM outputs putU64

/-- The bytes of a store against an explicit output list. -/
def serializeWith (s : GraphStore) (outputs : List Nat) : Except EncodeError (List UInt8) :=
  (putStore s outputs []).map Prod.snd

/-- The bytes of a store with its marked outputs. -/
def serialize (s : GraphStore) : Except EncodeError (List UInt8) := serializeWith s s.outputs

/-! ### ByteReader -/

namespace Read

def u8 : ByteReader DecodeError UInt8 := byte .truncated

def u32 : ByteReader DecodeError Nat := number .truncated 4

def u64 : ByteReader DecodeError Nat := number .truncated 8

def string : ByteReader DecodeError String := do
  let n ← u32
  let b ← take .truncated n
  match String.fromUTF8? ⟨b.toArray⟩ with
  | some s => pure s
  | none => throw .badUtf8

def value : ByteReader DecodeError ParamValue := do
  let tag ← u8
  if tag = 0 then
    let n ← u64
    pure (.int (UInt64.ofNat n).toInt64)
  else if tag = 1 then
    let n ← u64
    pure (.float (UInt64.ofNat n))
  else if tag = 2 then
    let b ← u8
    pure (.bool (b != 0))
  else if tag = 3 then
    let s ← string
    pure (.str s)
  else throw (.badTag "param" tag)

def entry : ByteReader DecodeError (String × ParamValue) := do
  let k ← string
  let v ← value
  pure (k, v)

def params : ByteReader DecodeError ParamMap := do
  let n ← u32
  let entries ← collect n fun _ => entry
  pure (.new entries)

/-- A node id below `max`. -/
def nodeId (max : Nat) : ByteReader DecodeError Nat := do
  let i ← u64
  if max ≤ i then throw (.badNodeRef i) else pure i

def inputs (max : Nat) : ByteReader DecodeError (List Nat) := do
  let n ← u32
  collect n fun _ => nodeId max

def preprocessingRef : ByteReader DecodeError (Option String) := do
  let flag ← u8
  if flag ≠ 0 then
    let s ← string
    pure (some s)
  else pure none

/-- A reference of member `m`, to a slot or to an earlier member. -/
def stageRef (m : Nat) : ByteReader DecodeError StageRef := do
  let tag ← u8
  let v ← u32
  if tag = 0 then pure (.input v)
  else if tag = 1 then
    if m ≤ v then throw (.badNodeRef v) else pure (.member v)
  else throw (.badTag "stage-ref" tag)

def member (m : Nat) : ByteReader DecodeError StageOp := do
  let token ← string
  let n ← u32
  let refs ← collect n fun _ => stageRef m
  pure ⟨token, refs⟩

def stageMembers : ByteReader DecodeError (List StageOp) := do
  let n ← u32
  collect n member

/-- One node record, whose inputs refer to the `idx` records before it. -/
def node (idx : Nat) : ByteReader DecodeError NodeKey := do
  let tag ← u8
  if tag = 0 then
    let name ← string
    let params ← params
    pure (.source name params)
  else if tag = 1 then
    let name ← string
    let params ← params
    let inputs ← inputs idx
    pure (.op name params inputs)
  else if tag = 2 then
    let name ← string
    let params ← params
    let inputs ← inputs idx
    pure (.reduction name params inputs)
  else if tag = 3 then
    let kind ← string
    let contentHash ← string
    let framework ← string
    let version ← string
    let ioSchema ← string
    let preprocessingRef ← preprocessingRef
    let params ← params
    let inputs ← inputs idx
    pure (.external ⟨kind, contentHash, framework, version, ioSchema, preprocessingRef⟩ params
      inputs)
  else if tag = 5 then
    let scheme ← params
    let inputs ← inputs idx
    pure (.exchange scheme inputs)
  else if tag = 6 then
    let scheme ← params
    let inputs ← inputs idx
    pure (.join scheme inputs)
  else if tag = 4 then
    let inputs ← inputs idx
    let members ← stageMembers
    pure (.stage inputs members)
  else throw (.badTag "node" tag)

end Read

/-- Intern a node record. -/
def addRecord (s : GraphStore) (key : NodeKey) : Except DecodeError GraphStore :=
  match s.addKey key with
  | (.ok _, s) => .ok s
  | (.error e, _) => .error (.badNodeRef e.id)

/-- Mark an entry of the output table. -/
def markRecord (s : GraphStore) (o : Nat) : Except DecodeError GraphStore :=
  match s.markOutput o with
  | (.ok (), s) => .ok s
  | (.error e, _) => .error (.badNodeRef e.id)

def Read.store : ByteReader DecodeError GraphStore := do
  let m ← take .truncated 4
  if m ≠ magic then throw .badMagic
  else do
    let nNodes ← u32
    let s ← forEach node addRecord nNodes 0 .new
    let nOut ← u32
    forEach (fun _ => u64) markRecord nOut 0 s

/-- Rebuild a store from its bytes. Bytes after the output table are not looked at. -/
def deserialize (data : List UInt8) : Except DecodeError GraphStore :=
  (Read.store data).map Prod.fst

end Graphed
