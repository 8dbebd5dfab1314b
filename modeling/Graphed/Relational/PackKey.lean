import Graphed.Library.Dict
import Mathlib.Data.List.Nodup
import Mathlib.Data.Option.NAry
import Mathlib.Tactic.Ring

/-!
# Packed keys

A record block holds named columns of one length, of cells that may be null. `pack_key` adds to it a
column of one unsigned number a row, the key fields packed at twenty bits each, the first the most
significant. The numpy backend reads a column's data without its mask; the awkward one keeps nulls as
missing values.
-/

namespace Graphed

variable {α : Type}

/-! ### Blocks -/

/-- A cell of a masked column; a null keeps some data under its mask. -/
structure Cell (α : Type) where
  data : α
  null : Bool
deriving DecidableEq

def Cell.value (cell : Cell α) : Option α := if cell.null then none else some cell.data

structure Block (α : Type) where
  length : Nat
  columns : List (String × List (Cell α))
  lengths : ∀ column ∈ columns, column.2.length = length
  nodup : (columns.map Prod.fst).Nodup

/-- A column as the values its readers see. -/
def Block.values (record : Block α) (field : String) : Option (List (Option α)) :=
  (record.columns.lookup field).map fun cells => cells.map Cell.value

/-- What numpy does with its scalars: the cast to unsigned numbers, the comparisons, and the integer a
scalar is, where it is one the cast is defined for. -/
structure Scalars (α : Type) where
  astype : α → BitVec 64
  eq : α → α → Prop
  lt : α → α → Prop
  /-- Negative, or `2 ** 20` or more. -/
  wide : α → Prop
  int : α → Option Int
  int_range {a : α} {v : Int} : int a = some v → -(2 ^ 63) ≤ v ∧ v < 2 ^ 64
  astype_int {a : α} {v : Int} : int a = some v → astype a = BitVec.ofInt 64 v
  astype_eq {a b : α} : eq a b → astype a = astype b
  eq_int {a b : α} {v w : Int} : int a = some v → int b = some w → (eq a b ↔ v = w)
  lt_int {a b : α} {v w : Int} : int a = some v → int b = some w → (lt a b ↔ v < w)
  wide_int {a : α} {v : Int} : int a = some v → (wide a ↔ v < 0 ∨ 2 ^ 20 ≤ v)

/-- A column of a packed record: one of the block's, or the key's. -/
inductive PackedColumn (α : Type) where
  | kept (values : List (Option α))
  | key (values : List (Option (BitVec 64)))
deriving DecidableEq

abbrev PackedRecord (α : Type) := List (String × PackedColumn α)

inductive PackKeyError where
  | noField
  | tooMany (count : Nat)
  | absent (field : String)
  | overflow (field : String)
deriving DecidableEq

/-- The bits of a key field. -/
def packStride : Nat := 20

/-- Too wide for a key field. -/
def overflows (key : BitVec 64) : Bool := decide (2 ^ packStride ≤ key.toNat)

/-- A field shifted to the place it has among some fields. -/
def placed (count j : Nat) (c : BitVec 64) : BitVec 64 := c <<< (packStride * (count - 1 - j))

def columnOf {β : Type} (columns : List (String × β)) (field : String) : Except PackKeyError β :=
  match columns.lookup field with
  | some column => .ok column
  | none => .error (.absent field)

/-! ### The numpy backend -/

namespace Numpy

/-- Every column as an array of its data. -/
def asColumns (record : Block α) : List (String × List α) :=
  record.columns.map fun column => (column.1, column.2.map Cell.data)

/-- `(c0 << 20*(n-1)) | ... | c_{n-1}`, over the rows. -/
def packKeyColumn (S : Scalars α) (length : Nat) (columns : List (List α)) : List (BitVec 64) :=
  columns.zipIdx.foldl (fun key column =>
    List.zipWith (fun k c => k ||| placed columns.length column.2 (S.astype c)) key column.1)
    (List.replicate length 0)

/-- A field too wide for its place stops the packing, unless the key only routes. -/
def checkField (S : Scalars α) (cols : List (String × List α)) (route : Bool) (field : String) :
    Except PackKeyError Unit :=
  if route then .ok ()
  else do
    let column ← columnOf cols field
    if column.any fun c => overflows (S.astype c) then .error (.overflow field) else .ok ()

def packKey (S : Scalars α) (record : Block α) (on : List String) (route : Bool) :
    Except PackKeyError (PackedRecord α) :=
  let cols := asColumns record
  if 64 < on.length * packStride then .error (.tooMany on.length)
  else do
    let _ ← on.mapM (checkField S cols route)
    let columns ← on.mapM (columnOf cols)
    if columns.isEmpty then .error .noField
    else .ok (dictUpdate (cols.map fun column => (column.1, .kept (column.2.map some)))
      [("__joinkey__", .key ((packKeyColumn S record.length columns).map some))])

end Numpy

/-! ### The awkward backend -/

namespace Awkward

/-- `|` of values that may be missing. -/
def orKey (left right : Option (BitVec 64)) : Option (BitVec 64) :=
  Option.map₂ (· ||| ·) left right

/-- One field of the key, onto the key of the fields before it. -/
def packField (S : Scalars α) (record : Block α) (count : Nat) (route : Bool)
    (key : Option (List (Option (BitVec 64)))) (field : String × Nat) :
    Except PackKeyError (Option (List (Option (BitVec 64)))) := do
  let cells ← columnOf record.columns field.1
  let col := cells.map fun cell => cell.value.map S.astype
  if !route && col.any (fun c => c.any overflows) then .error (.overflow field.1)
  else
    let shifted := col.map fun c => c.map (placed count field.2)
    .ok (some (key.elim shifted fun key => List.zipWith orKey key shifted))

def packKey (S : Scalars α) (record : Block α) (on : List String) (route : Bool) :
    Except PackKeyError (PackedRecord α) :=
  if on.isEmpty then .error .noField
  else if 64 < on.length * packStride then .error (.tooMany on.length)
  else do
    let key ← on.zipIdx.foldlM (packField S record on.length route) none
    .ok (dictUpdate (record.columns.map fun column => (column.1, .kept (column.2.map Cell.value)))
      [("__joinkey__", .key (key.getD []))])

end Awkward

end Graphed
