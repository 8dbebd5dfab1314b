import Graphed.Core.Node
import Graphed.Execution.Skipping
import Mathlib.Algebra.Group.WithOne.Defs
import Mathlib.Data.Nat.Cast.Defs

/-!
# Default folds

A plan over whole-dataset reductions folds their chunk values: sums and counts add, `any` and `all`
join, `min` and `max` compare, and `None` is a chunk with nothing to reduce. Which fold an output
has is read off its recorded node.
-/

namespace Graphed

variable {α : Type}

/-! ### Values -/

/-- An exact number, or NaN. -/
inductive Num (α : Type) where
  | nan
  | num (x : α)
deriving DecidableEq

namespace Num

variable [LinearOrder α]

/-- `a < b`, false beside a NaN. -/
def lt : Num α → Num α → Bool
  | num a, num b => decide (a < b)
  | _, _ => false

/-- `a != b`: a NaN is unlike itself. -/
def ne : Num α → Num α → Bool
  | num a, num b => decide (a ≠ b)
  | _, _ => true

def add [Add α] : Num α → Num α → Num α
  | num a, num b => num (a + b)
  | _, _ => nan

def nonzero [Zero α] : Num α → Bool
  | num a => decide (a ≠ 0)
  | nan => true

end Num

/-- A chunk value that is not `None`. -/
inductive Datum (α : Type) where
  | number (x : Num α)
  | truth (b : Bool)
deriving DecidableEq

/-- A truth value counts as one or zero. -/
def Datum.toNum [Zero α] [One α] : Datum α → Num α
  | number x => x
  | truth b => .num (if b then 1 else 0)

section Operators

variable [LinearOrder α] [AddMonoidWithOne α]

/-- `operator.add`. -/
def operatorAdd (a b : Datum α) : Except Raised (Datum α) := .ok (.number (a.toNum.add b.toNum))

/-- `operator.or_`, on truth values. -/
def operatorOr : Datum α → Datum α → Except Raised (Datum α)
  | .truth a, .truth b => .ok (.truth (a || b))
  | _, _ => .error (typeError "unsupported operand type(s) for |")

/-- `operator.and_`, on truth values. -/
def operatorAnd : Datum α → Datum α → Except Raised (Datum α)
  | .truth a, .truth b => .ok (.truth (a && b))
  | _, _ => .error (typeError "unsupported operand type(s) for &")

/-- `max`, where NaN wins. -/
def pyMax (a b : Datum α) : Except Raised (Datum α) :=
  .ok (if b.toNum.ne b.toNum || a.toNum.lt b.toNum then b else a)

/-- `min`, where NaN wins. -/
def pyMin (a b : Datum α) : Except Raised (Datum α) :=
  .ok (if b.toNum.ne b.toNum || b.toNum.lt a.toNum then b else a)

end Operators

/-! ### The fold of a node -/

/-- How chunk values fold; `empty` is the value of no chunks. -/
structure Fold (α : Type) where
  combine : Datum α → Datum α → Except Raised (Datum α)
  empty : Option (Datum α)

/-- `None` leaves the other side as it is. -/
def Fold.call (f : Fold α) : Option (Datum α) → Option (Datum α) → Except Raised (Option (Datum α))
  | none, b => .ok b
  | some a, none => .ok (some a)
  | some a, some b => (f.combine a b).map some

/-- `_FOLDS`. -/
def folds [LinearOrder α] [AddMonoidWithOne α] : List (String × Fold α) :=
  [("sum", ⟨operatorAdd, some (.number (.num 0))⟩),
    ("count", ⟨operatorAdd, some (.number (.num 0))⟩),
    ("count_nonzero", ⟨operatorAdd, some (.number (.num 0))⟩),
    ("any", ⟨operatorOr, some (.truth false)⟩),
    ("all", ⟨operatorAnd, some (.truth true)⟩),
    ("max", ⟨pyMax, none⟩),
    ("min", ⟨pyMin, none⟩)]

/-- `_NOT_FOLDABLE`: why the chunk values of these do not fold. -/
def notFoldable : List (String × String) :=
  [("mean", "a mean of chunk means is not the dataset's mean"),
    ("var", "a variance of chunk variances is not the dataset's variance"),
    ("std", "a std of chunk stds is not the dataset's std")]

/-- Whether a parameter counts as true. -/
def ParamValue.truthy : ParamValue → Bool
  | int a => a != 0
  | float bits => bits &&& 0x7fffffffffffffff != 0
  | bool a => a
  | str a => a != ""

def ParamMap.get? (params : ParamMap) (key : String) : Option ParamValue := params.entries.lookup key

/-- What comes after the last dot. -/
def lastName (op : String) : String :=
  String.ofList (op.toList.reverse.takeWhile (· != '.')).reverse

/-- The kind a recorded node is listed with. -/
def NodeKey.kind : NodeKey → String
  | .source _ _ => "source"
  | .op _ _ _ => "op"
  | .reduction _ _ _ => "reduction"
  | .external _ _ _ => "external"
  | .stage _ _ => "stage"
  | .exchange _ _ => "exchange"
  | .join _ _ => "join"

/-- An axis other than none, or `keepdims`. -/
def keepsAxis (params : ParamMap) : Bool :=
  ((params.get? "axis").getD (.str "none") != .str "none") ||
    ((params.get? "keepdims").map ParamValue.truthy).getD false

def foldOf [LinearOrder α] [AddMonoidWithOne α] : NodeKey → Except Raised (Fold α)
  | .reduction op params _ =>
      match notFoldable.lookup (lastName op), folds.lookup (lastName op) with
      | some why, _ => .error (typeError ("is " ++ op ++ ": " ++ why))
      | none, none => .error (typeError ("is " ++ op ++ ", which has no known combine"))
      | none, some fold =>
          if keepsAxis params then
            .error (typeError
              ("is " ++ op ++ " with axis= or keepdims=, not one value for the dataset"))
          else if ((params.get? "mask_identity").map ParamValue.truthy).getD false then
            .ok { fold with empty := none }
          else .ok fold
  | key =>
      .error (typeError ("is " ++ (if key.kind = "op" then "per-event" else key.kind) ++
        ", not a reduction"))

/-! ### Several outputs -/

/-- One fold an output, read at its compiled slot. -/
structure Folded (α : Type) where
  slots : List Nat
  folds : List (Fold α)

/-- What a run holds: a value for each output, or the one output's value. -/
inductive FoldedValue (α : Type) where
  | tuple (values : List (Option (Datum α)))
  | value (v : Option (Datum α))
deriving DecidableEq

namespace Folded

def reduce (f : Folded α) (values : List (Option (Datum α))) : Except Raised (FoldedValue α) := do
  let read ← f.slots.mapM fun slot => (values[slot]?).elim (.error indexError) .ok
  .ok (.tuple read)

/-- The outputs of two sides, one by one. -/
def zipFolds : List (Fold α) → List (Option (Datum α)) → List (Option (Datum α)) →
    Except Raised (List (Option (Datum α)))
  | [], [], [] => .ok []
  | fold :: folds, x :: xs, y :: ys => do
      let v ← fold.call x y
      let rest ← zipFolds folds xs ys
      .ok (v :: rest)
  | _, _, _ => .error (valueError "zip() arguments have different lengths")

def combine (f : Folded α) : FoldedValue α → FoldedValue α → Except Raised (FoldedValue α)
  | .tuple a, .tuple b => do
      let values ← zipFolds f.folds a b
      .ok (.tuple values)
  | _, _ => .error (typeError "zip argument is not iterable")

def empty (f : Folded α) : FoldedValue α := .tuple (f.folds.map Fold.empty)

def finalize : FoldedValue α → Except Raised (FoldedValue α)
  | .tuple [v] => .ok (.value v)
  | v => .ok v

end Folded

/-- The default reduction of outputs: their nodes and slots, in order. -/
def folded [LinearOrder α] [AddMonoidWithOne α] (outputs : List (NodeKey × Nat)) :
    Except Raised (Folded α) := do
  let folds ← outputs.zipIdx.mapM fun entry =>
    match foldOf entry.1.1 with
    | .error err =>
        .error (typeError ("aggregate_plan: output " ++ toString entry.2 ++ " " ++ err.message ++
          "; pass reduce=, combine=, empty="))
    | .ok fold => .ok fold
  .ok ⟨outputs.map Prod.snd, folds⟩

/-- The plan over the tasks of a source: `values` are what the compiled graph evaluates to on a
chunk, slot by slot. -/
def Folded.plan (f : Folded α) (values : Partition → Except Raised (List (Option (Datum α))))
    (tasks : List Task) : Plan (FoldedValue α) (FoldedValue α) where
  process p := do
    let vs ← values p
    f.reduce vs
  combine := f.combine
  empty := .ok f.empty
  tasks := tasks
  hasNextTasks := false
  stop := none
  bound := .ok ()
  finalize := some Folded.finalize

/-- The value of a run that reduces its partials in this tree. -/
def Plan.valueBy {R : Type} (plan : Plan R R) (tree : Reduction) : Except Raised R := do
  let v ← tree.reduce plan
  match plan.finalize with
  | some finalize => finalize v
  | none => .ok v

end Graphed
