import Graphed.Library.FirstSeen
import Graphed.Systematics.Points

/-!
# Varied containers

A container holds one member for each of its labels, and a nominal one. A label it does not carry is
answered by the member whose point is what is left of the label's point on the container's axes, and
by the nominal member when there is none. An operation on containers runs once for each label of
their union, with every operand narrowed to the label.
-/

namespace Graphed

open FirstSeen

/-- The points of the labels a Session has registered. -/
abbrev PointRegistry := List (String × Point)

/-- Members by label. -/
structure Varied (α : Type) where
  members : List (String × α)
  nominal : α
  nominal_mem : members.lookup "nominal" = some nominal

namespace Varied

variable {α β : Type} (registry : PointRegistry) (c : Varied α)

def labels : List String := c.members.map Prod.fst

/-- The registered points of the labels the container carries. -/
def registeredPoints : List (String × Point) :=
  c.labels.filterMap fun label => (registry.lookup label).map (label, ·)

/-- The axes the container knows. -/
def axes : List String := (c.registeredPoints registry).flatMap (·.2.nuisances)

/-- The label a label's point is projected to. -/
def projectedKey (label : String) : String :=
  match registry.lookup label with
  | none => "nominal"
  | some point =>
      let wanted := point.restrict (c.axes registry)
      if wanted = Point.origin then "nominal"
      else
        match (c.registeredPoints registry).find? (·.2 = wanted) with
        | some own => own.1
        | none => "nominal"

/-- The key of the member a label resolves to. -/
def keyFor (label : String) : String :=
  if (c.members.lookup label).isSome then label else c.projectedKey registry label

/-- The member a label resolves to. -/
def memberFor (label : String) : α :=
  (c.members.lookup (c.keyFor registry label)).getD c.nominal

end Varied

/-- An operand: a plain one, or a container. -/
inductive Operand (α : Type) where
  | plain (member : α)
  | varied (container : Varied α)

namespace Operand

variable {α : Type}

def isVaried : Operand α → Bool
  | plain _ => false
  | varied _ => true

/-- The labels an operand carries. -/
def labels : Operand α → List String
  | plain _ => []
  | varied c => c.labels

/-- The universe an operand contributes for a label. -/
def memberOf (registry : PointRegistry) : Operand α → String → α
  | plain member, _ => member
  | varied c, label => c.memberFor registry label

end Operand

/-- The labels of some operands, `nominal` first, then each in the order it is first met. -/
def unionLabels {α : Type} (operands : List (Operand α)) : List String :=
  firsts ("nominal" :: operands.flatMap Operand.labels)

end Graphed
