import Graphed.Library.Dict
import Graphed.Systematics.Varied

/-!
# The ambient composition

The ambient at a label is the product of every registered factor's member for it. One walk builds
it: a balanced product tree over the nominal members, a complement pushdown that hands each factor
the product of the others, and a walk of the largest subtrees for a label two or more factors vary
at. An overlay among the entries replaces the running product where it spans the label. The walk
runs over arrays and over forms.
-/

namespace Graphed

/-! ### Entries -/

/-- What is registered: an array, by its node, or a container whose members may vary themselves. -/
inductive Entry where
  | plain (node : Nat)
  | varied (container : Varied (Operand Nat))

namespace Entry

def labels : Entry → List String
  | plain _ => []
  | varied c => c.labels

/-- The member for a label, and where that one varies its own member for the label. -/
def twoLevel (registry : PointRegistry) : Entry → String → Nat
  | plain node, _ => node
  | varied c, label => (c.memberFor registry label).memberOf registry label

/-- Whether `label` is a universe another family placed at this coordinate: no coordinate of its
point names it. -/
def placedElsewhere (registry : PointRegistry) (overlay : Entry) (label : String) : Bool :=
  if label ∈ overlay.labels then false
  else
    match registry.lookup label with
    | none => false
    | some point =>
        !point.pairs.any fun pair =>
          label == pair.1 ++ "_" ++ pair.2 || (pair.1 ++ "_" ++ pair.2 ++ "__").isPrefixOf label

end Entry

/-- An entry as an object: overlays are told apart by their `id`. -/
structure Registered where
  id : Nat
  entry : Entry

/-- The object ids of the entries whose slot is marked. -/
def marks (entries : List Registered) (slots marked : List Nat) : List Nat :=
  ((entries.zip slots).filter fun pair => decide (pair.2 ∈ marked)).map (·.1.id)

/-! ### The walk -/

inductive WalkError (E : Type) where
  | missing (lo hi : Nat)
  | noParts
  | raised (e : E)

/-- A step of the walk, over what its multiply keeps from one product to the next. -/
abbrev WalkM (σ E X : Type) := StateT σ (Except (WalkError E)) X

def fail {σ E X : Type} (e : WalkError E) : WalkM σ E X := fun _ => .error e

/-- What the walk multiplies: how a member's node enters it, and a product that may raise, at a
label. -/
structure Walk (V E σ : Type) where
  project : Nat → V
  mul : V → V → String → StateT σ (Except E) V

/-- `(lo, hi)` to the product of the nominal members from `lo` up to `hi`. -/
abbrev ProductTree (V : Type) := List ((Nat × Nat) × V)

variable {V E σ : Type}

def ProductTree.read (tree : ProductTree V) (lo hi : Nat) : WalkM σ E V :=
  match tree.lookup (lo, hi) with
  | some v => pure v
  | none => fail (.missing lo hi)

namespace Walk

variable (w : Walk V E σ)

def times (a b : V) (label : String) : WalkM σ E V := fun s =>
  match w.mul a b label s with
  | .ok out => .ok out
  | .error e => .error (.raised e)

/-- The parts multiplied from the left. -/
def product (parts : List V) (label : String) : WalkM σ E V :=
  match parts with
  | [] => fail .noParts
  | part :: rest => rest.foldlM (fun acc part => w.times acc part label) part

/-- The product of `centrals[lo:hi]`, split at the midpoint, and the tree below it. -/
def build (centrals : List V) (lo hi : Nat) : WalkM σ E (V × ProductTree V) :=
  if 1 < hi - lo then do
    let (left, below) ← build centrals lo ((lo + hi) / 2)
    let (right, below') ← build centrals ((lo + hi) / 2) hi
    let v ← w.times left right "nominal"
    pure (v, below ++ below' ++ [((lo, hi), v)])
  else
    match centrals[lo]? with
    | some v => pure (v, [((lo, hi), v)])
    | none => fail (.missing lo hi)
termination_by hi - lo

def productTree (centrals : List V) : WalkM σ E (ProductTree V) :=
  if centrals = [] then pure [] else do
    let (_, tree) ← w.build centrals 0 centrals.length
    pure tree

/-- One more factor on what there may be already. -/
def onto (outside : Option V) (v : V) : WalkM σ E V :=
  match outside with
  | none => pure v
  | some o => w.times o v "nominal"

/-- Hand each index from `lo` up to `hi` the product of all the others. -/
def push (tree : ProductTree V) (lo hi : Nat) (outside : Option V) : WalkM σ E (List (Option V)) :=
  if hi - lo ≤ 1 then pure [outside]
  else do
    let left ← tree.read lo ((lo + hi) / 2)
    let right ← tree.read ((lo + hi) / 2) hi
    let outsideLeft ← w.onto outside right
    let outs ← push tree lo ((lo + hi) / 2) (some outsideLeft)
    let outsideRight ← w.onto outside left
    let outs' ← push tree ((lo + hi) / 2) hi (some outsideRight)
    pure (outs ++ outs')
termination_by hi - lo

/-- The product of every nominal member but one, for each. -/
def complements (tree : ProductTree V) (count : Nat) : WalkM σ E (List (Option V)) :=
  if count = 0 then pure [] else w.push tree 0 count none

/-- The largest subtrees holding none of the varying indices. -/
def outsideParts (tree : ProductTree V) (varying : List Nat) (lo hi : Nat) :
    WalkM σ E (List V) :=
  if ¬varying.any (fun i => decide (lo ≤ i ∧ i < hi)) then do
    let v ← tree.read lo hi
    pure [v]
  else if 1 < hi - lo then do
    let parts ← outsideParts tree varying lo ((lo + hi) / 2)
    let parts' ← outsideParts tree varying ((lo + hi) / 2) hi
    pure (parts ++ parts')
  else pure []
termination_by hi - lo

/-- Their product; none when the varying indices cover every leaf. -/
def outside (tree : ProductTree V) (count : Nat) (varying : List Nat) :
    WalkM σ E (Option V) := do
  let parts ← outsideParts tree varying 0 count
  if parts = [] then pure none
  else do
    let v ← w.product parts "nominal"
    pure (some v)

/-- What the members that do not vary multiply to. -/
def rest (tree : ProductTree V) (complements : List (Option V)) (count : Nat)
    (varying : List Nat) : WalkM σ E (Option V) :=
  match varying with
  | [] => do
      let v ← tree.read 0 count
      pure (some v)
  | [i] =>
      match complements[i]? with
      | some rest => pure rest
      | none => fail .noParts
  | _ => w.outside tree count varying

/-- The product at one label, given its members there and the nominal ones. -/
def productAt (tree : ProductTree V) (complements : List (Option V)) (centrals applied : List Nat)
    (label : String) : WalkM σ E V := do
  let varying := (List.range centrals.length).filter fun i => applied[i]? != centrals[i]?
  let rest ← w.rest tree complements centrals.length varying
  w.product (rest.toList ++ varying.filterMap fun i => applied[i]?.map w.project) label

/-- The balanced product of the factors at every label; none at all of no factor. -/
def productOver (registry : PointRegistry) (factors : List Registered) (labels : List String) :
    WalkM σ E (List (String × V)) :=
  if factors = [] then pure []
  else do
    let centrals := factors.map fun f => f.entry.twoLevel registry "nominal"
    let tree ← w.productTree (centrals.map w.project)
    let complements ← w.complements tree centrals.length
    labels.foldlM (fun composed label => do
      let applied := factors.map fun f => f.entry.twoLevel registry label
      let v ← w.productAt tree complements centrals applied label
      pure (dictUpdate composed [(label, v)])) []

/-- The run of factors before the first overlay, and each overlay with the run after it. -/
def splitRuns (overlays : List Nat) :
    List Registered → List Registered × List (Registered × List Registered)
  | [] => ([], [])
  | f :: rest =>
      let (run, marked) := splitRuns overlays rest
      if f.id ∈ overlays then ([], (f, run) :: marked) else (f :: run, marked)

/-- Whether an overlay replaces the running value at a label. -/
def spans (registry : PointRegistry) (fixed : List Nat) (overlay : Registered) (label : String) :
    Bool :=
  decide (overlay.id ∈ fixed) ||
    (overlay.entry.twoLevel registry label != overlay.entry.twoLevel registry "nominal" &&
      !overlay.entry.placedElsewhere registry label)

/-- One overlay and the product of the run after it. -/
def overlayStep (registry : PointRegistry) (fixed : List Nat) (label : String)
    (running : Option V) (mark : Registered × List (String × V)) : WalkM σ E (Option V) :=
  let running :=
    if running.isNone || spans registry fixed mark.1 label then
      some (w.project (mark.1.entry.twoLevel registry label))
    else running
  match mark.2.lookup label, running with
  | none, _ => pure running
  | some part, none => pure (some part)
  | some part, some v => do
      let next ← w.times v part label
      pure (some next)

def composeOrdered (registry : PointRegistry) (factors : List Registered) (labels : List String)
    (overlays fixed : List Nat) : WalkM σ E (List (String × Option V)) := do
  let (run, marked) := splitRuns overlays factors
  let first ← w.productOver registry run labels
  let rest ← marked.mapM fun mark => do
    let products ← w.productOver registry mark.2 labels
    pure (mark.1, products)
  labels.foldlM (fun composed label => do
    let running ← rest.foldlM (w.overlayStep registry fixed label) (first.lookup label)
    pure (dictUpdate composed [(label, running)])) []

/-- The ambient at every label. -/
def compose (registry : PointRegistry) (factors : List Registered) (labels : List String)
    (overlays fixed : List Nat) : WalkM σ E (List (String × Option V)) :=
  if overlays = [] then do
    let composed ← w.productOver registry factors labels
    pure (composed.map fun item => (item.1, some item.2))
  else w.composeOrdered registry factors labels overlays fixed

end Walk

end Graphed
