import Graphed.Execution.Plan
import Graphed.Library.Rows

/-!
# Cutting files into ranges

A blind partition knows its step and resolves it against its file's number of entries; an eager one has
its range. Files are cut by even steps, into ranges of a fixed length, or by events per task, and read
front to back up to a number of entries.
-/

namespace Graphed

/-! ### Partitions -/

namespace Partition

/-- `Partition.blind`; a step outside its number of steps is refused. -/
def blind (uri tree : String) (step nSteps : Int) : Option Partition :=
  if nSteps < 1 ∨ ¬(0 ≤ step ∧ step < nSteps) then none
  else some ⟨uri, tree, 0, 0, some step, some nSteps, none⟩

/-- The range of a blind step over so many entries, within the limit. -/
def resolve (p : Partition) (numEntries : Int) : Partition :=
  match p.blindStep, p.blindNSteps with
  | some step, some nSteps =>
      let start := Int.fdiv (step * numEntries) nSteps
      let stop := Int.fdiv ((step + 1) * numEntries) nSteps
      let stop := p.blindLimit.elim stop fun limit => min stop (start + limit)
      ⟨p.uri, p.tree, start, stop, none, none, none⟩
  | _, _ => p

def first (p : Partition) (n : Int) : Partition :=
  if p.blindStep.isSome then { p with blindLimit := some (p.blindLimit.elim n (min n)) }
  else { p with entryStop := min p.entryStop (p.entryStart + n) }

/-- The rows of a partition's range. -/
def range (p : Partition) : List Int := rows p.entryStart p.entryStop

/-- A partition as its constructors give it: blind with a step among its steps and no range, or with a
range alone. -/
inductive Built : Partition → Prop
  | ranged (uri tree : String) (entryStart entryStop : Int) :
      Built ⟨uri, tree, entryStart, entryStop, none, none, none⟩
  | blind {uri tree : String} {step nSteps : Int} {p : Partition}
      (h : blind uri tree step nSteps = some p) : Built p
  | first {p : Partition} (h : Built p) (n : Int) : Built (p.first n)

end Partition

/-! ### Even steps -/

/-- The entry where a step starts. -/
def stepStart (n steps s : Int) : Int := Int.fdiv (s * n) steps

def eagerRanges (n steps : Int) : List (Int × Int) :=
  let ranges := (List.range steps.toNat).map fun (s : Nat) =>
    (stepStart n steps s, stepStart n steps (s + 1))
  let kept := ranges.filter fun r => decide (r.1 < r.2)
  if kept.isEmpty then ranges.take 1 else kept

/-- Some steps a file: blind, or with the even ranges over its rows. -/
def makePartitions (numRows : String → Int) (paths : List String) (steps : Int)
    (openFiles : Bool) : Except Raised (List Partition) :=
  if steps < 1 then
    .error (.exception ⟨"ValueError", "steps_per_file must be >= 1, got " ++ steps.repr, none, none⟩)
  else .ok (paths.flatMap fun path =>
    if openFiles then
      (eagerRanges (numRows path) steps).map fun r => ⟨path, "", r.1, r.2, none, none, none⟩
    else (List.range steps.toNat).filterMap fun (s : Nat) => Partition.blind path "" s steps)

/-! ### Ranges of a fixed length -/

structure Dataset where
  uri : String
  nEvents : Int
  tree : String
  name : String

def chunksFrom (dataset : Dataset) (size : Int) (hsize : 0 < size) (start : Int) : List Partition :=
  if start < dataset.nEvents then
    let stop := min (start + size) dataset.nEvents
    ⟨dataset.uri, dataset.tree, start, stop, none, none, none⟩ ::
      chunksFrom dataset size hsize stop
  else []
termination_by (dataset.nEvents - start).toNat
decreasing_by omega

def partitionDataset (dataset : Dataset) (chunkSize : Int) : Except Raised (List Partition) :=
  if h : chunkSize ≤ 0 then
    .error (.exception ⟨"ValueError", "chunk_size must be positive", none, none⟩)
  else .ok (chunksFrom dataset chunkSize (Int.not_le.mp h) 0)

def partitionDatasets (datasets : List Dataset) (chunkSize : Int) :
    Except Raised (List Partition) := do
  let parts ← datasets.mapM fun dataset => partitionDataset dataset chunkSize
  .ok parts.flatten

/-- `range(lo, hi, k)`. -/
def steppedRange (lo hi k : Int) : List Int :=
  (List.range (Int.fdiv (hi - lo + k - 1) k).toNat).map fun (i : Nat) => lo + i * k

/-- A partition's ranges of some events each; an empty one keeps one task. -/
def eventRanges (eventsPerTask : Int) (file : Partition) : List Partition :=
  (steppedRange file.entryStart (max file.entryStop (file.entryStart + 1)) eventsPerTask).map
    fun a => ⟨file.uri, file.tree, a, min (a + eventsPerTask) file.entryStop, none, none, none⟩

/-- A file as it is cut: a blind one only where its source counts its entries. -/
def countedFile (sourceType : String) (count : Option (Partition → Int)) (file : Partition) :
    Except Raised Partition :=
  if file.blindStep.isSome then
    match count with
    | some count => .ok (file.resolve (count file))
    | none => .error (.exception ⟨"TypeError", sourceType ++
        " cannot count its entries, so events_per_task= cannot chunk it; " ++
        "pass steps_per_file= instead", none, none⟩)
  else .ok file

/-- The files of a source, in one partition each, cut by events. -/
def eventPartitions (sourceType : String) (count : Option (Partition → Int))
    (files : List Partition) (eventsPerTask : Int) : Except Raised (List Partition) :=
  if eventsPerTask < 1 then
    .error (.exception ⟨"ValueError", "events_per_task must be >= 1, got " ++ eventsPerTask.repr,
      none, none⟩)
  else do
    let files ← files.mapM (countedFile sourceType count)
    .ok (files.flatMap (eventRanges eventsPerTask))

/-! ### Reading from the front -/

/-- Partitions read in order until so many rows are read; each read gives some rows. -/
def readFirst {Row : Type} (readPartition : Partition → List Row) (entries : Int) :
    List Partition → Int → List (List Row)
  | [], _ => []
  | p :: ps, read =>
      let wanted := entries - read
      let chunk := (readPartition (p.first wanted)).take wanted.toNat
      chunk :: if read + chunk.length = entries then [] else
        readFirst readPartition entries ps (read + chunk.length)

/-! ### Row groups -/

/-- A walk over a file's row groups: its row, the groups kept and the row the first starts at. -/
structure GroupWalk where
  row : Int
  groups : List Nat
  first : Int
deriving DecidableEq

def walkGroup (start stop : Int) (walk : GroupWalk) (group : Nat × Nat) : GroupWalk :=
  let stopRow := walk.row + group.1
  if walk.row < stop ∧ start < stopRow then
    ⟨stopRow, walk.groups ++ [group.2], if walk.groups.isEmpty then walk.row else walk.first⟩
  else { walk with row := stopRow }

/-- The groups of a file of these sizes with rows of a range, and the row the first starts at. -/
def rowGroupsFor (sizes : List Nat) (start stop : Int) : List Nat × Int :=
  let walk := sizes.zipIdx.foldl (walkGroup start stop) ⟨0, [], 0⟩
  (walk.groups, walk.first)

end Graphed
