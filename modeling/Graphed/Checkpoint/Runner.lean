import Graphed.Checkpoint.Store

/-!
# The resumable runners

A run reads the journal once, and then for each task either takes the result the journal names or
does the work and records it. A plan of one stage folds its partials in plan order; a plan of several
stages hands each stage the payloads of the stages it reads.
-/

namespace Graphed

open Effects JsonText

structure ResumeReport where
  executed : Nat
  skipped : Nat
  dead : Nat
  stopped : Option StopReason
  deadLetters : List DeadLetter

namespace ResumeReport

def new : ResumeReport := ⟨0, 0, 0, none, []⟩

def execute (r : ResumeReport) : ResumeReport := { r with executed := r.executed + 1 }

def skip (r : ResumeReport) : ResumeReport := { r with skipped := r.skipped + 1 }

/-- One more partition is dead; more of them than the budget stop the run. -/
def die (r : ResumeReport) (budget : Option Int) : ResumeReport :=
  { r with
    dead := r.dead + 1
    stopped := if budget.any (· < (r.dead + 1 : Int)) then some .errorBudget else r.stopped }

end ResumeReport

def partitionTag (p : Partition) : String :=
  p.uri ++ "@" ++ toString p.entryStart ++ ":" ++ toString p.entryStop

/-! ### Plans of one stage -/

/-- How partials become bytes; what is encoded is decoded. -/
structure PartialCodec (V : Type) where
  encode : V → BlobData
  decode : BlobData → Except Raised V
  faithful : ∀ v, decode (encode v) = .ok v

/-- How a failed partition is recovered, given the process and the combine. -/
abbrev RetryPolicy (V : Type) :=
  (Partition → Except Raised V) → (V → V → Except Raised V) → Partition → Raised → Except Raised V

/-- A call of the runner: the plan and its settings, the journal it writes and its environment. -/
structure ResumableRun (V : Type) where
  plan : DurablePlan V
  codec : PartialCodec V
  retry : Option (RetryPolicy V)
  errorBudget : Option Int
  node : Option String
  environment : BlobData

structure ResumeResult (V : Type) where
  value : V
  report : ResumeReport

/-- What is folded so far, none before the first partial, and the report. -/
structure Progress (V : Type) where
  acc : Option V
  report : ResumeReport

namespace ResumableRun

variable {V : Type}

def budget (run : ResumableRun V) : Option Int := run.errorBudget.or run.plan.errorBudget

def process (run : ResumableRun V) : Partition → Except Raised V := run.plan.process.callable

def combine (run : ResumableRun V) : V → V → Except Raised V := run.plan.combine.callable

/-- The partial of a partition: its process, and after an exception the retry policy. -/
def runOne (run : ResumableRun V) (part : Partition) : Except Raised V :=
  match run.process part with
  | .ok value => .ok value
  | .error e =>
      if e.isException = true then
        match run.retry with
        | none => .error e
        | some recover => recover run.process run.combine part e
      else .error e

def fold (run : ResumableRun V) (acc : Option V) (value : V) : Except Raised V :=
  match acc with
  | none => .ok value
  | some acc => run.combine acc value

/-- The partial a journal entry committed, none when there is none to use. -/
def storedPartial (run : ResumableRun V) :
    Option JournalEntry → StoreScript Partition V (Option V)
  | none => pure none
  | some entry => Prog.query (StoreQuery.get entry.blob) >>= fun
      | none => pure none
      | some blob => Prog.ofExcept (run.codec.decode blob) >>= fun value => pure (some value)

/-- A partial goes into the store, and then into the journal. -/
def commit (run : ResumableRun V) (taskId : String) (part : Partition) (value : V) :
    StoreScript Partition V Unit := do
  let digest ← Prog.query (StoreQuery.put (run.codec.encode value))
  Prog.query (StoreQuery.recordDone run.node ⟨taskId, partitionTag part, digest, "", []⟩)

/-- A partition with no committed partial is run. -/
def execute (run : ResumableRun V) (taskId : String) (part : Partition) (progress : Progress V) :
    StoreScript Partition V (Progress V) :=
  Prog.query (StoreQuery.call part) >>= fun
    | .ok value => do
        run.commit taskId part value
        let acc ← Prog.ofExcept (run.fold progress.acc value)
        pure ⟨some acc, progress.report.execute⟩
    | .error e =>
        if e.isException = true then do
          Prog.query (StoreQuery.recordDead (deadLetterDescriptor taskId part e))
          pure ⟨progress.acc, progress.report.die run.budget⟩
        else Prog.raise e

def runPartition (sha : BlobData → String) (run : ResumableRun V) (done : Completed)
    (progress : Progress V) (part : Partition) : StoreScript Partition V (Progress V) := do
  let taskId ← Prog.ofExcept (run.plan.taskId sha part)
  run.storedPartial (done.get taskId) >>= fun
    | some value => do
        let acc ← Prog.ofExcept (run.fold progress.acc value)
        pure ⟨some acc, progress.report.skip⟩
    | none => run.execute taskId part progress

def runPartitions (sha : BlobData → String) (run : ResumableRun V) (done : Completed) :
    List Partition → Progress V → StoreScript Partition V (Progress V)
  | [], progress => pure progress
  | part :: rest, progress => run.runPartition sha done progress part >>= fun progress =>
      if progress.report.stopped.isSome = true then pure progress
      else run.runPartitions sha done rest progress

/-- The value in its final form: what was folded, or the empty value. -/
def finalValue (run : ResumableRun V) (acc : Option V) : Except Raised V := do
  let value ←
    match acc with
    | some value => .ok value
    | none => run.plan.empty.callable
  match run.plan.finalize with
  | some spec => spec.callable value
  | none => .ok value

/-- The run from where it has read the journal. -/
def resume (sha : BlobData → String) (run : ResumableRun V) (done : Completed) :
    StoreScript Partition V (ResumeResult V) := do
  let accepted ← Prog.query (StoreQuery.checkEnvironment run.environment)
  Prog.ofExcept accepted
  let progress ← run.runPartitions sha done run.plan.partitions ⟨none, .new⟩
  let letters ← Prog.query StoreQuery.deadLetters
  let value ← Prog.ofExcept (run.finalValue progress.acc)
  pure ⟨value, { progress.report with deadLetters := letters }⟩

def runResumable (sha : BlobData → String) (run : ResumableRun V) :
    StoreScript Partition V (ResumeResult V) :=
  Prog.query StoreQuery.completed >>= fun done => run.resume sha done

def job (sha : BlobData → String) (run : ResumableRun V) : Job where
  result := run.runOne
  script := run.runResumable sha

end ResumableRun

/-! ### Plans of several stages -/

/-- One task of a stage and the payloads it is handed. -/
structure StageCall where
  process : StageProcess
  task : Task
  inputs : List BlobData

def StageCall.result (call : StageCall) : Except Raised BlobData := call.process call.task call.inputs

structure ShuffleRun where
  plan : DurablePlanV2
  node : Option String
  environment : BlobData

structure ShuffleResumeResult where
  value : List String
  report : ResumeReport

/-- A stage so far: its payloads and their hashes, and what its records name as upstream once the
first of them is made. -/
structure StageProgress where
  payloads : List BlobData
  hashes : List String
  deps : Option (List String)
  report : ResumeReport

namespace StageProgress

def add (progress : StageProgress) (payload : BlobData) (hash : String) : StageProgress :=
  { progress with
    payloads := progress.payloads ++ [payload]
    hashes := progress.hashes ++ [hash] }

end StageProgress

/-- The payloads and hashes of the stages done. -/
structure ShuffleProgress where
  payloads : List (List BlobData)
  hashes : List (List String)
  report : ResumeReport

/-- The blob that lists upstream hashes. -/
def listing (hashes : List String) : BlobData :=
  utf8 (String.ofList (dump (.arr (textItems hashes))))

namespace ShuffleRun

/-- The block a journal entry names, with its hash. -/
def storedBlock : Option JournalEntry → StoreScript StageCall BlobData (Option (BlobData × String))
  | none => pure none
  | some entry => Prog.query (StoreQuery.get entry.blob) >>= fun blob =>
      pure (blob.map fun payload => (payload, entry.blob))

/-- What the records of a stage name as upstream: one blob that lists it, put once. -/
def upstreamDeps (upstream : List String) :
    Option (List String) → StoreScript StageCall BlobData (List String)
  | some deps => pure deps
  | none =>
      if upstream = [] then pure []
      else Prog.query (StoreQuery.put (listing upstream)) >>= fun digest => pure [digest]

def execute (run : ShuffleRun) (stage : StageSpec) (inputs : List BlobData) (upstream : List String)
    (taskId : String) (task : Task) (progress : StageProgress) :
    StoreScript StageCall BlobData StageProgress :=
  Prog.query (StoreQuery.call ⟨stage.process.callable, task, inputs⟩) >>= fun
    | .error e => Prog.raise e
    | .ok payload => do
        let hash ← Prog.query (StoreQuery.put payload)
        let deps ← upstreamDeps upstream progress.deps
        Prog.query (StoreQuery.recordDone run.node
          ⟨taskId, partitionTag task.partition, hash, stage.kind, deps⟩)
        pure { progress.add payload hash with
          deps := some deps
          report := progress.report.execute }

def runTask (sha : BlobData → String) (run : ShuffleRun) (done : Completed) (index : Nat)
    (stage : StageSpec) (inputs : List BlobData) (upstream : List String) (progress : StageProgress)
    (task : Task) : StoreScript StageCall BlobData StageProgress := do
  let taskId ← Prog.ofExcept (run.plan.taskId sha index stage task)
  storedBlock (done.get taskId) >>= fun
    | some (payload, hash) =>
        pure { progress.add payload hash with report := progress.report.skip }
    | none => run.execute stage inputs upstream taskId task progress

def runStage (sha : BlobData → String) (run : ShuffleRun) (done : Completed) (index : Nat)
    (stage : StageSpec) (progress : ShuffleProgress) :
    StoreScript StageCall BlobData ShuffleProgress := do
  let inputs ← Prog.ofExcept (gatherInputs progress.payloads stage.inputs)
  let upstream ← Prog.ofExcept (gatherInputs progress.hashes stage.inputs)
  let finished ← stage.tasks.foldlM (run.runTask sha done index stage inputs upstream)
    ⟨[], [], none, progress.report⟩
  pure ⟨progress.payloads ++ [finished.payloads], progress.hashes ++ [finished.hashes],
    finished.report⟩

def runStagesFrom (sha : BlobData → String) (run : ShuffleRun) (done : Completed) :
    Nat → List StageSpec → ShuffleProgress → StoreScript StageCall BlobData ShuffleProgress
  | _, [], progress => pure progress
  | index, stage :: stages, progress => run.runStage sha done index stage progress >>= fun progress =>
      run.runStagesFrom sha done (index + 1) stages progress

def runShuffleResumable (sha : BlobData → String) (run : ShuffleRun) :
    StoreScript StageCall BlobData ShuffleResumeResult := do
  let done ← Prog.query StoreQuery.completed
  let accepted ← Prog.query (StoreQuery.checkEnvironment run.environment)
  Prog.ofExcept accepted
  let progress ← run.runStagesFrom sha done 0 run.plan.stages ⟨[], [], .new⟩
  match progress.hashes.getLast? with
  | some value => pure ⟨value, progress.report⟩
  | none => Prog.raise (keyError "-1")

def job (sha : BlobData → String) (run : ShuffleRun) : Job where
  result := StageCall.result
  script := run.runShuffleResumable sha

end ShuffleRun

end Graphed
