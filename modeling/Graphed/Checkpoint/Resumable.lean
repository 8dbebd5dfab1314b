import Graphed.Checkpoint.Keys

/-!
# Resumable plans

The driver keys every task, reads the journal once, and tags each task with its key and the blob the
journal names for it. A worker then serves the blob, or runs the process and records what it gives.
The runner runs the tagged plan as it would run any other.
-/

namespace Graphed

open Effects

/-! ### Tagged tasks -/

/-- A task with its key and, when the store held it at plan time, its blob. -/
structure KeyedTask where
  task : Task
  taskId : String
  blob : String

def tagged (done : Completed) (task : Task) (taskId : String) : KeyedTask where
  task := task
  taskId := taskId
  blob :=
    match done.get taskId with
    | none => ""
    | some entry => entry.blob

/-- The journal of a worker: its process's token and its thread. -/
structure Worker where
  token : String
  thread : Nat

def Worker.node (worker : Worker) : Option String :=
  some (worker.token ++ "-" ++ worker.thread.repr)

/-- What a caller hands over besides the plan, and where it runs. -/
structure ResumeArgs (O : Type) where
  codec : O
  salt : String
  behaviors : List BlobData
  environment : BlobData
  worker : Worker
  skipFailed : Int

variable {O V R ω β : Type}

/-! ### The worker's side -/

/-- The stored bytes of a done task, else those of its run, recorded, and what the run set beside
them. -/
def servedOrRun {κ : Type} (node : Option String) (stage : String) (t : KeyedTask)
    (run : StoreScript ω β (BlobData × κ)) : StoreScript ω β (BlobData × Option κ) := do
  let stored ← if t.blob = "" then pure none else Prog.query (StoreQuery.get t.blob)
  match stored with
  | some data => pure (data, none)
  | none => do
      let (data, beside) ← run
      let digest ← Prog.query (StoreQuery.put data)
      Prog.query (StoreQuery.recordDone node
        ⟨t.taskId, partitionTag t.task.partition, digest, stage, []⟩)
      pure (data, some beside)

/-- The process of a resumable plan of one stage. A store holds only plain partials. -/
def callResumable (py : Objects O V) (args : ResumeArgs O) (t : KeyedTask) :
    StoreScript KeyedTask (Carried V) (Carried V) := do
  let (data, beside) ← servedOrRun args.worker.node "" t do
    let outcome ← Prog.query (StoreQuery.call t)
    let c ← Prog.ofExcept outcome
    pure ((py.codec args.codec).encode c.value, c.caught)
  let value ← Prog.ofExcept ((py.codec args.codec).decode data)
  pure ⟨value, beside.join⟩

/-- One task of a stage, and the payloads it is handed. -/
structure StageWork (O : Type) where
  process : O
  keyed : KeyedTask
  inputs : List BlobData

/-- The process of a stage: payloads are stored as they are. -/
def callResumableStage (args : ResumeArgs O) (stage : ObjectStage O) (inputs : List BlobData)
    (t : KeyedTask) : StoreScript (StageWork O) BlobData BlobData := do
  let (data, _) ← servedOrRun args.worker.node stage.kind t do
    let outcome ← Prog.query (StoreQuery.call ⟨stage.process, t, inputs⟩)
    let data ← Prog.ofExcept outcome
    pure (data, ())
  pure data

/-! ### The runner's side -/

/-- A skipping plan's process, given how the call of the process it wraps ended. -/
def SkipPlan.settled (sp : SkipPlan R) (p : Partition) (outcome : Except Raised (Plain R)) :
    Except Raised (Partial R) :=
  ({ sp with base := { sp.base with process := fun _ => outcome } } : SkipPlan R).process p

/-- The sequential runner over tagged tasks. -/
def runTasksWith {W : Type} [Partials W R] (plan : Plan W R)
    (call : KeyedTask → StoreScript ω β W) (tasks : List KeyedTask) :
    StoreScript ω β (ExecResult R) := do
  let value ← Prog.ofExcept plan.empty
  let value ← (tasks.insertionSort fun a b => a.task.key ≤ b.task.key).foldlM (fun value t => do
    let part ← call t
    Prog.ofExcept (plan.combine value part)) value
  Prog.ofExcept (finalizeResult plan ⟨value, tasks.length, tasks.length - 1, none, []⟩)

def runWith (plan : Plan (Plain R) R) (skipFailed : Int)
    (call : KeyedTask → StoreScript ω β (Plain R)) (tasks : List KeyedTask) :
    StoreScript ω β (ExecResult R) := do
  Prog.ofExcept plan.bound
  match ← Prog.ofExcept (skipping (.plain plan) skipFailed) with
  | .plain base => runTasksWith base call tasks
  | .skip sp => runTasksWith sp.plan (fun t => do
      let outcome ← (call t).attempt
      Prog.ofExcept (sp.settled t.task.partition outcome)) tasks

/-- A stage and its tasks, tagged. -/
structure KeyedStage (O : Type) where
  stage : ObjectStage O
  tasks : List KeyedTask

def runStageWith (call : ObjectStage O → List BlobData → KeyedTask → StoreScript ω β BlobData)
    (payloads : List (List BlobData)) (s : KeyedStage O) :
    StoreScript ω β (List (List BlobData)) := do
  let upstream ← Prog.ofExcept (stageInputs payloads s.stage.inputs)
  let out ← s.tasks.foldlM (fun out t => do
    let data ← call s.stage upstream t
    pure (out ++ [data])) []
  pure (payloads ++ [out])

/-! ### The transform -/

def missingCheckpointable (name : String) : String :=
  "this plan has services and its process " ++ name ++ " does not declare checkpointable, so its "
    ++ "results may stand for server state a store cannot hold; a process whose result is "
    ++ "self-contained may set checkpointable = True"

/-- The refusals that precede any pickling. -/
def refuse (py : Objects O V) (hasServices : Bool) (process : O) : Except Raised Unit :=
  if py.isResumable process = true then .error (typeError "this plan is already resumable")
  else if hasServices = true ∧ py.checkpointable process = false then
    .error (typeError (missingCheckpointable (py.qualname process)))
  else .ok ()

/-- A plan `resumable` takes. -/
inductive AnyObjectPlan (O V : Type) where
  | runtime (plan : ObjectPlan O V)
  | durable (plan : ObjectDurable O V)
  | staged (plan : ObjectStaged O V)

/-- The keys of a plan's tasks, stage by stage. -/
def AnyObjectPlan.taskIds (D : Digest) (P : Pickling O) (py : Objects O V) (args : ResumeArgs O) :
    AnyObjectPlan O V → Except Raised (List (List String))
  | .runtime plan => do
      if plan.hasNextTasks = true then
        .error (typeError
          "resumable needs a fixed task set; this plan pulls tasks from next_tasks")
      else do
        refuse py plan.hasServices plan.process
        let ids ← chunkIds D P none plan.process args.codec args.behaviors args.salt
          (plan.tasks.map (·.partition))
        .ok [ids]
  | .durable plan => do
      refuse py plan.hasServices plan.process
      let ids ← chunkIds D P (some plan.ir) plan.process args.codec args.behaviors args.salt
        plan.partitions
      .ok [ids]
  | .staged plan => do
      plan.stages.forM fun stage => refuse py plan.hasServices stage.process
      stagedIds D P plan.ir args.behaviors args.salt plan.stages

/-- What the driver asks before it hands out the tagged plan. -/
def checkAccepted (args : ResumeArgs O) : StoreScript ω β Unit := do
  let accepted ← Prog.query (StoreQuery.checkEnvironment args.environment)
  Prog.ofExcept accepted

/-- The tasks of a plan of one stage, tagged. -/
def taggedTasks (done : Completed) (tasks : List Task) (ids : List (List String)) :
    List KeyedTask :=
  List.zipWith (tagged done) tasks ids.flatten

def taggedStages (done : Completed) (stages : List (ObjectStage O)) (ids : List (List String)) :
    List (KeyedStage O) :=
  List.zipWith (fun stage ids => ⟨stage, List.zipWith (tagged done) stage.tasks ids⟩) stages ids

/-- The tagged plan of one stage on the sequential runner. -/
def runResumableTasks (py : Objects O V) (args : ResumeArgs O) (plan : ObjectPlan O V)
    (tasks : List KeyedTask) : StoreScript KeyedTask (Carried V) (ExecResult (Carried V)) :=
  runWith (plan.plan py args.behaviors) args.skipFailed
    (fun t => callResumable py args t >>= fun c => pure ⟨c⟩) tasks

/-- The tagged plan of several stages on the sequential runner. -/
def runResumableStages (py : Objects O V) (args : ResumeArgs O) (plan : ObjectStaged O V)
    (stages : List (KeyedStage O)) : StoreScript (StageWork O) BlobData (ExecResult V) := do
  Prog.ofExcept plan.bound
  if args.skipFailed ≠ 0 then
    Prog.raise (typeError "skip_failed needs a Plan; a DurablePlanV2 has no chunk to leave out")
  else do
    let payloads ← stages.foldlM (runStageWith (callResumableStage args)) []
    Prog.ofExcept (plan.result py payloads)

/-- What the process of a tagged task gives: it sees the plain partition. -/
def taskResult (py : Objects O V) (args : ResumeArgs O) (process : O) (t : KeyedTask) :
    Except Raised (Carried V) :=
  py.call process args.behaviors t.task.partition

def stageResult (py : Objects O V) (args : ResumeArgs O) (w : StageWork O) :
    Except Raised BlobData :=
  py.callStage w.process args.behaviors w.keyed.task w.inputs

/-! ### Whole calls -/

/-- A plan made resumable and run. -/
structure ResumableCall (O V : Type) where
  plan : AnyObjectPlan O V
  args : ResumeArgs O

def resumableTasks (D : Digest) (P : Pickling O) (py : Objects O V) (args : ResumeArgs O)
    (plan : AnyObjectPlan O V) (base : ObjectPlan O V) :
    StoreScript KeyedTask (Carried V) (ExecResult (Carried V)) := do
  let ids ← Prog.ofExcept (plan.taskIds D P py args)
  let done ← Prog.query StoreQuery.completed
  checkAccepted args
  runResumableTasks py args base (taggedTasks done base.tasks ids)

def resumableStages (D : Digest) (P : Pickling O) (py : Objects O V) (args : ResumeArgs O)
    (plan : ObjectStaged O V) : StoreScript (StageWork O) BlobData (ExecResult V) := do
  let ids ← Prog.ofExcept ((AnyObjectPlan.staged plan).taskIds D P py args)
  let done ← Prog.query StoreQuery.completed
  checkAccepted args
  runResumableStages py args plan (taggedStages done plan.stages ids)

def ResumableCall.job (D : Digest) (P : Pickling O) (py : Objects O V) (call : ResumableCall O V) :
    Job :=
  match call.plan with
  | .runtime plan => ⟨taskResult py call.args plan.process,
      resumableTasks D P py call.args call.plan plan⟩
  | .durable plan => ⟨taskResult py call.args plan.process,
      resumableTasks D P py call.args call.plan plan.toPlan⟩
  | .staged plan => ⟨stageResult py call.args, resumableStages D P py call.args plan⟩

end Graphed
