import Graphed.Aggregate.Folds
import Mathlib.Data.List.ReduceOption

/-!
# Reductions of arrays

What the two backends call for a recorded reduction over the whole of an array. The reducers
themselves belong to NumPy and Awkward Array: they are parameters, and what is documented of them is
stated beside them.
-/

namespace Graphed

variable {α : Type}

/-! ### Arrays -/

/-- The least and the greatest value of a dtype. -/
structure Dtype (α : Type) where
  low : α
  high : α

/-- An array of a dtype; a missing entry is `none`. -/
structure Column [LE α] (d : Dtype α) where
  entries : List (Option (Num α))
  within : ∀ x, some (.num x) ∈ entries → d.low ≤ x ∧ x ≤ d.high

namespace Column

variable [LE α] {d : Dtype α}

/-- The entries that are not missing. -/
def present (c : Column d) : List (Num α) := c.entries.reduceOption

/-- The array that is cut into these chunks. -/
def concat (chunks : List (Column d)) : Column d where
  entries := chunks.flatMap entries
  within x hx := by
    obtain ⟨c, -, hmem⟩ := List.mem_flatMap.mp hx
    exact c.within x hmem

theorem present_concat (chunks : List (Column d)) :
    (concat chunks).present = chunks.flatMap present := by
  induction chunks with
  | nil => rfl
  | cons c rest ih =>
      rw [List.flatMap_cons, ← ih]
      exact List.reduceOption_append c.entries _

theorem concat_singleton (c : Column d) : concat [c] = c := by
  cases c
  simp [concat]

end Column

/-! ### The calls -/

/-- NumPy's and Awkward Array's reducers over all of an array; for the latter with `mask_identity`
and `initial` where they are given. -/
structure Reducers (α : Type) [LE α] where
  numpy : (d : Dtype α) → String → Column d → Except Raised (Option (Datum α))
  awkward : (d : Dtype α) → String → Option Bool → Option (Num α) → Column d →
    Except Raised (Option (Datum α))

/-- The backend a session records with. -/
inductive ArrayBackend where
  | numpy
  | awkward
deriving DecidableEq

/-- The reductions a backend evaluates. -/
def ArrayBackend.reducers : ArrayBackend → List String
  | numpy =>
      ["sum", "prod", "mean", "std", "var", "min", "max", "any", "all", "argmin", "argmax",
        "nansum", "nanprod", "nanmean", "nanstd", "nanvar", "nanmin", "nanmax", "nanargmin",
        "nanargmax"]
  | awkward =>
      ["ak.sum", "ak.any", "ak.all", "ak.count", "ak.count_nonzero", "ak.min", "ak.max", "ak.prod",
        "ak.mean", "ak.ptp"]

def unsupportedOp (op : String) : Raised := typeError ("unsupported op '" ++ op ++ "'")

namespace Reducers

variable [LE α] {d : Dtype α} (r : Reducers α)

def maskIdentity (params : ParamMap) : Option Bool :=
  (params.get? "mask_identity").map ParamValue.truthy

/-- The `initial` a node records; `scalar` reads the recorded number in its dtype. -/
def initial (scalar : ParamMap → Num α) (params : ParamMap) : Option (Num α) :=
  (params.get? "initial").map fun _ => scalar params

/-- `_reducer` at no axis: a plain extremum is called as it is. -/
def reducer (scalar : ParamMap → Num α) (op : String) (params : ParamMap) (c : Column d) :
    Except Raised (Option (Datum α)) :=
  if (op = "ak.min" ∨ op = "ak.max" ∨ op = "ak.ptp") ∧
      ∀ key ∈ ["mask_identity", "initial", "keepdims"], params.get? key = none then
    r.awkward d op none none c
  else r.awkward d op (maskIdentity params) (initial scalar params) c

/-- Evaluate a reduction at no axis. -/
def eval (backend : ArrayBackend) (scalar : ParamMap → Num α) (op : String) (params : ParamMap)
    (c : Column d) : Except Raised (Option (Datum α)) :=
  if op ∈ backend.reducers then
    match backend with
    | .numpy => r.numpy d op c
    | .awkward => r.reducer scalar op params c
  else .error (unsupportedOp op)

end Reducers

/-! ### What the reducers give -/

/-- The exact sum; a NaN among the terms makes it one. -/
def Num.total [Zero α] [Add α] (xs : List (Num α)) : Num α := xs.foldr Num.add (.num 0)

/-- The reductions with an identity, of the entries present. -/
def totals [LinearOrder α] [AddMonoidWithOne α] : List (String × (List (Num α) → Datum α)) :=
  [("sum", fun xs => .number (Num.total xs)),
    ("count", fun xs => .number (.num (xs.length : α))),
    ("count_nonzero", fun xs => .number (.num ((xs.countP Num.nonzero : Nat) : α))),
    ("any", fun xs => .truth (xs.any Num.nonzero)),
    ("all", fun xs => .truth (xs.all Num.nonzero))]

/-- NaN if there is one, else the entry every other is `le` to. -/
def Num.Extreme (le : α → α → Prop) (xs : List (Num α)) (v : Num α) : Prop :=
  (.nan ∈ xs ∧ v = .nan) ∨
    (.nan ∉ xs ∧ ∃ x, v = .num x ∧ .num x ∈ xs ∧ ∀ y, .num y ∈ xs → le y x)

/-- What is documented of the reducers. -/
structure Documented [LinearOrder α] [AddMonoidWithOne α] (r : Reducers α) : Prop where
  awkward_total : ∀ {d : Dtype α} {name total}, totals.lookup name = some total →
    ∀ (mask : Option Bool) (c : Column d), r.awkward d ("ak." ++ name) mask none c =
      .ok (if mask.getD false = true ∧ c.present = [] then none else some (total c.present))
  awkward_max : ∀ {d : Dtype α} (mask : Option Bool) (initial : Option (Num α)) (c : Column d),
    if mask.getD true = true ∧ c.present = [] then r.awkward d "ak.max" mask initial c = .ok none
    else ∃ v, r.awkward d "ak.max" mask initial c = .ok (some (.number v)) ∧
      Num.Extreme (· ≤ ·) (initial.getD (.num d.low) :: c.present) v
  awkward_min : ∀ {d : Dtype α} (mask : Option Bool) (initial : Option (Num α)) (c : Column d),
    if mask.getD true = true ∧ c.present = [] then r.awkward d "ak.min" mask initial c = .ok none
    else ∃ v, r.awkward d "ak.min" mask initial c = .ok (some (.number v)) ∧
      Num.Extreme (· ≥ ·) (initial.getD (.num d.high) :: c.present) v
  numpy_total : ∀ {d : Dtype α} {name total}, name ∈ ["sum", "any", "all"] →
    totals.lookup name = some total → ∀ c : Column d, none ∉ c.entries →
      r.numpy d name c = .ok (some (total c.present))
  numpy_max : ∀ {d : Dtype α} (c : Column d), none ∉ c.entries →
    if c.present = [] then ∃ e, r.numpy d "max" c = .error e
    else ∃ v, r.numpy d "max" c = .ok (some (.number v)) ∧ Num.Extreme (· ≤ ·) c.present v
  numpy_min : ∀ {d : Dtype α} (c : Column d), none ∉ c.entries →
    if c.present = [] then ∃ e, r.numpy d "min" c = .error e
    else ∃ v, r.numpy d "min" c = .ok (some (.number v)) ∧ Num.Extreme (· ≥ ·) c.present v

end Graphed
