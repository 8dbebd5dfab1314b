import Graphed.Aggregate.Reference
import Graphed.Library.CombineTree
import Mathlib.Algebra.Order.Field.Basic
import Mathlib.Order.WithBot

/-!
# Tree-reducible reductions

A reduction of an array is a state of each chunk, a combination of states with an empty state, and
the value of a final state. Mean, variance and standard deviation carry moment sums. Beside each the
NumPy reduction of the whole array; numbers are exact, an array may contain NaN.
-/

namespace Graphed

namespace Num

variable {α β : Type}

def map (f : α → β) : Num α → Num β
  | nan => nan
  | num a => num (f a)

def mul [Mul α] : Num α → Num α → Num α
  | num a, num b => num (a * b)
  | _, _ => nan

def sub [Sub α] : Num α → Num α → Num α
  | num a, num b => num (a - b)
  | _, _ => nan

/-- The exact product; a NaN among the factors makes it one. -/
def product [One α] [Mul α] (xs : List (Num α)) : Num α := xs.foldr mul (num 1)

/-- `min(a, b)`: the first unless the second is less. -/
def min2 [LinearOrder α] (a b : Num α) : Num α := if b.lt a then b else a

/-- `max(a, b)`: the first unless the second is greater. -/
def max2 [LinearOrder α] (a b : Num α) : Num α := if a.lt b then b else a

end Num

/-- What a reduction ends with. -/
inductive Statistic (K : Type) where
  | float (x : Num K)
  | infinite (positive : Bool)
  | int (n : Nat)
  | truth (b : Bool)
deriving DecidableEq

/-- The kinds that reduce over a tree. -/
inductive Kind where
  | sum
  | prod
  | min
  | max
  | count
  | any
  | all
  | mean
  | var
  | std
deriving DecidableEq

/-- The kind of a name; a name of none is refused. -/
def Kind.named (kind : String) : Except Raised Kind :=
  ([("sum", .sum), ("prod", .prod), ("min", .min), ("max", .max), ("count", .count), ("any", .any),
    ("all", .all), ("mean", .mean), ("var", .var), ("std", .std)].lookup kind).elim
    (.error (valueError ("no tree-reducible monoid for '" ++ kind ++ "'"))) .ok

/-- Count, sum and sum of squares. -/
structure Moments (K : Type) where
  count : Nat
  total : Num K
  total2 : Num K

/-- The states of a kind. -/
def Kind.State (K : Type) : Kind → Type
  | .sum | .prod => Num K
  | .min => Num (WithTop K)
  | .max => Num (WithBot K)
  | .count => Nat
  | .any | .all => Bool
  | .mean | .var | .std => Moments K

structure ReductionMonoid (K S : Type) where
  chunk : List (Num K) → Except Raised S
  combine : S → S → S
  empty : S
  finalize : S → Except Raised (Statistic K)

namespace Reductions

variable {K : Type} [Field K] [LinearOrder K]

/-! ### Chunks, combinations and final values -/

def sumChunk (x : List (Num K)) : Except Raised (Num K) := .ok (Num.total x)

def prodChunk (x : List (Num K)) : Except Raised (Num K) := .ok (Num.product x)

omit [Field K] in
/-- `np.min`; an array of size zero has none. -/
def npMin (x : List (Num K)) : Except Raised (Num K) :=
  (extremeOf (· ≥ ·) x).elim (.error emptyExtremum) .ok

omit [Field K] in
/-- `np.max`; an array of size zero has none. -/
def npMax (x : List (Num K)) : Except Raised (Num K) :=
  (extremeOf (· ≤ ·) x).elim (.error emptyExtremum) .ok

omit [Field K] in
def minChunk (x : List (Num K)) : Except Raised (Num (WithTop K)) := (npMin x).map (Num.map (↑))

omit [Field K] in
def maxChunk (x : List (Num K)) : Except Raised (Num (WithBot K)) := (npMax x).map (Num.map (↑))

def anyChunk (x : List (Num K)) : Except Raised Bool := .ok (x.any Num.nonzero)

def allChunk (x : List (Num K)) : Except Raised Bool := .ok (x.all Num.nonzero)

omit [LinearOrder K] in
def moments (x : List (Num K)) : Moments K :=
  ⟨x.length, Num.total x, Num.total (x.map fun a => a.mul a)⟩

omit [LinearOrder K] in
def momentsCombine (a b : Moments K) : Moments K :=
  ⟨a.count + b.count, a.total.add b.total, a.total2.add b.total2⟩

omit [LinearOrder K] in
def momentsEmpty : Moments K := ⟨0, .num 0, .num 0⟩

omit [LinearOrder K] in
def meanFinalize (state : Moments K) : Num K :=
  if state.count ≠ 0 then state.total.map (· / (state.count : K)) else .nan

def zeroDivision : Raised := .exception ⟨"ZeroDivisionError", "float division by zero", none, none⟩

omit [LinearOrder K] in
/-- Dividing by a count of zero raises. -/
def varFinalize (ddof : Int) (state : Moments K) : Except Raised (Num K) :=
  if (state.count : Int) - ddof ≤ 0 then .ok .nan
  else if state.count = 0 then .error zeroDivision
  else
    .ok ((state.total2.sub ((state.total.mul state.total).map (· / (state.count : K)))).map
      (· / (((state.count : Int) - ddof : Int) : K)))

/-- `math.sqrt` on exact numbers. -/
def mathSqrt (sqrt : K → K) : Num K → Except Raised (Num K)
  | .nan => .ok .nan
  | .num x => if x < 0 then .error (valueError "math domain error") else .ok (.num (sqrt x))

def stdFinalize (sqrt : K → K) (ddof : Int) (state : Moments K) : Except Raised (Num K) :=
  varFinalize ddof state >>= mathSqrt sqrt

/-- A float that may be the identity of `min`. -/
def topStatistic : Num (WithTop K) → Statistic K
  | .nan => .float .nan
  | .num ⊤ => .infinite true
  | .num (x : K) => .float (.num x)

/-- A float that may be the identity of `max`. -/
def botStatistic : Num (WithBot K) → Statistic K
  | .nan => .float .nan
  | .num ⊥ => .infinite false
  | .num (x : K) => .float (.num x)

/-- The monoid of a kind. -/
def monoid (sqrt : K → K) (ddof : Int) : (kind : Kind) → ReductionMonoid K (kind.State K)
  | .sum => ⟨sumChunk, Num.add, .num 0, fun s => .ok (.float s)⟩
  | .prod => ⟨prodChunk, Num.mul, .num 1, fun s => .ok (.float s)⟩
  | .min => ⟨minChunk, Num.min2, .num ⊤, fun s => .ok (topStatistic s)⟩
  | .max => ⟨maxChunk, Num.max2, .num ⊥, fun s => .ok (botStatistic s)⟩
  | .count => ⟨fun x => .ok x.length, fun a b => Nat.add a b, (0 : Nat), fun s => .ok (.int s)⟩
  | .any => ⟨anyChunk, fun a b => Bool.or a b, false, fun s => .ok (.truth s)⟩
  | .all => ⟨allChunk, fun a b => Bool.and a b, true, fun s => .ok (.truth s)⟩
  | .mean => ⟨fun x => .ok (moments x), momentsCombine, momentsEmpty,
      fun s => .ok (.float (meanFinalize s))⟩
  | .var => ⟨fun x => .ok (moments x), momentsCombine, momentsEmpty,
      fun s => (varFinalize ddof s).map .float⟩
  | .std => ⟨fun x => .ok (moments x), momentsCombine, momentsEmpty,
      fun s => (stdFinalize sqrt ddof s).map .float⟩

/-! ### The whole array -/

/-- `np.mean`: zero over zero is NaN. -/
def npMean (x : List (Num K)) : Num K :=
  if x.length = 0 then .nan else (Num.total x).map (· / (x.length : K))

/-- An IEEE division by a number that is not negative. -/
def npDivide (a : Num K) (b : Nat) : Statistic K :=
  match a with
  | .nan => .float .nan
  | .num a =>
      if b ≠ 0 then .float (.num (a / (b : K)))
      else if a = 0 then .float .nan
      else .infinite (decide (0 < a))

/-- `np.var`: the squared deviations from the mean over the degrees of freedom, none below zero. -/
def npVar (ddof : Int) (x : List (Num K)) : Statistic K :=
  npDivide (Num.total (x.map fun a => (a.sub (npMean x)).mul (a.sub (npMean x))))
    ((x.length : Int) - ddof).toNat

/-- `np.sqrt`: NaN of a negative number. -/
def npSqrt (sqrt : K → K) : Statistic K → Statistic K
  | .float (.num x) => if x < 0 then .float .nan else .float (.num (sqrt x))
  | .infinite false => .float .nan
  | v => v

/-- The NumPy reduction of the whole array. -/
def npReduction (sqrt : K → K) (ddof : Int) (kind : Kind) (x : List (Num K)) :
    Except Raised (Statistic K) :=
  match kind with
  | .sum => .ok (.float (Num.total x))
  | .prod => .ok (.float (Num.product x))
  | .min => (npMin x).map .float
  | .max => (npMax x).map .float
  | .count => .ok (.int x.length)
  | .any => .ok (.truth (x.any Num.nonzero))
  | .all => .ok (.truth (x.all Num.nonzero))
  | .mean => .ok (.float (npMean x))
  | .var => .ok (npVar ddof x)
  | .std => .ok (npSqrt sqrt (npVar ddof x))

/-! ### Trees of chunks -/

/-- The final value of a tree of chunks. -/
def reduceTree (sqrt : K → K) (ddof : Int) (kind : Kind) (t : CombineTree (List (Num K))) :
    Except Raised (Statistic K) :=
  let m := monoid sqrt ddof kind
  t.run m.chunk m.combine m.empty >>= m.finalize

end Reductions

end Graphed
