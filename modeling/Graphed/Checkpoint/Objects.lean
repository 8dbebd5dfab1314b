import Graphed.Checkpoint.Resume
import Graphed.Execution.Skipping

/-!
# Plans of objects

A plan holds its process, and a caller its codec, as objects: a key is taken of the object, and a
runner calls it. What a call gives may be `Warned`: it then carries the warnings of its chunk, and a
combine and a finalize made for that look through it.
-/

namespace Graphed

open Effects

/-! ### Values that carry warnings -/

structure WarningKey where
  category : String
  message : String
deriving DecidableEq

/-- Where a warning was first raised. -/
structure WarningPlace where
  filename : String
  lineno : Int
  chunk : String
deriving DecidableEq

abbrev Caught := List (WarningKey × WarningPlace)

/-- A value, as it is or `Warned`. -/
structure Carried (V : Type) where
  value : V
  caught : Option Caught
deriving DecidableEq

/-- One dict after the other; of a key both have, the second's item. -/
def mergeCaught (right left : Caught) : Caught :=
  right.map (fun item => (item.1, (left.lookup item.1).getD item.2)) ++
    left.filter fun item => (right.lookup item.1).isNone

variable {O V R : Type}

/-- Combine two partials, and what they carry. -/
def warnedCombine (fn : V → V → Except Raised V) (a b : Carried V) : Except Raised (Carried V) :=
  let caught := mergeCaught (b.caught.getD []) (a.caught.getD [])
  (fn a.value b.value).map fun value => ⟨value, if caught = [] then none else some caught⟩

/-- Finalize the plain value; what it carries is issued and left behind. -/
def warnedFinalize (fn : Option (V → Except Raised V)) (a : Carried V) :
    Except Raised (Carried V) :=
  match fn with
  | none => .ok ⟨a.value, none⟩
  | some fn => (fn a.value).map fun value => ⟨value, none⟩

/-! ### Objects -/

/-- What objects do when they are called. `behaviors` are the digests of the global behaviors, which
a process may read. -/
structure Objects (O V : Type) where
  call : O → List BlobData → Partition → Except Raised (Carried V)
  callStage : O → List BlobData → StageProcess
  codec : O → PartialCodec V
  loads : BlobData → Except Raised V
  tuple : List V → V
  isResumable : O → Bool
  checkpointable : O → Bool
  qualname : O → String

/-- A plan whose process is an object. -/
structure ObjectPlan (O V : Type) where
  process : O
  combine : Carried V → Carried V → Except Raised (Carried V)
  empty : Except Raised (Carried V)
  tasks : List Task
  hasNextTasks : Bool
  stop : Option StopCondition
  hasServices : Bool
  bound : Except Raised Unit
  finalize : Option (Carried V → Except Raised (Carried V))

/-- The plan a runner runs. -/
def ObjectPlan.plan (py : Objects O V) (behaviors : List BlobData) (plan : ObjectPlan O V) :
    Plan (Plain (Carried V)) (Carried V) where
  process p := (py.call plan.process behaviors p).map Plain.mk
  combine a b := (plan.combine a.value b.value).map Plain.mk
  empty := plan.empty.map Plain.mk
  tasks := plan.tasks
  hasNextTasks := plan.hasNextTasks
  stop := plan.stop
  bound := plan.bound
  finalize := plan.finalize

/-- A durable plan of one stage, its specs resolved. -/
structure ObjectDurable (O V : Type) where
  ir : BlobData
  process : O
  combine : V → V → Except Raised V
  empty : Except Raised V
  partitions : List Partition
  hasServices : Bool
  bound : Except Raised Unit
  finalize : Option (V → Except Raised V)

/-- The runtime form: its tasks are numbered, and its partials may carry warnings. -/
def ObjectDurable.toPlan (plan : ObjectDurable O V) : ObjectPlan O V where
  process := plan.process
  combine := warnedCombine plan.combine
  empty := plan.empty.map fun value => ⟨value, none⟩
  tasks := plan.partitions.mapIdx fun i p => ⟨i, p⟩
  hasNextTasks := false
  stop := none
  hasServices := plan.hasServices
  bound := plan.bound
  finalize := some (warnedFinalize plan.finalize)

structure ObjectStage (O : Type) where
  kind : String
  inputs : List Nat
  process : O
  routing : JsonText.Fields
  tasks : List Task

/-- A durable plan of several stages, its specs resolved. -/
structure ObjectStaged (O V : Type) where
  ir : BlobData
  stages : List (ObjectStage O)
  hasServices : Bool
  bound : Except Raised Unit
  finalize : Option (V → Except Raised V)

/-- What only unpacks a list of one. -/
def onlyOne (values : List V) : Except Raised V :=
  match values with
  | [only] => .ok only
  | [] => .error (valueError "not enough values to unpack (expected 1, got 0)")
  | _ => .error (valueError "too many values to unpack (expected 1)")

/-- A run's value from its last stage's payloads: the one of a last stage that reduces. -/
def ObjectStaged.value (py : Objects O V) (plan : ObjectStaged O V) (payloads : List BlobData) :
    Except Raised V := do
  let decoded ← payloads.mapM py.loads
  if plan.stages.getLast?.any (·.kind = "reduce") then onlyOne decoded
  else .ok (py.tuple decoded)

/-- The payloads a stage reads. -/
def stageInputs {α : Type} (blocks : List (List α)) (inputs : List Nat) :
    Except Raised (List α) :=
  match gatherInputs blocks inputs with
  | .ok upstream => .ok upstream
  | .error _ => .error indexError

/-! ### Running one after the other -/

/-- What the sequential runner makes of a plan, with no monitor and no control. -/
def sequentialTasks {W : Type} [Partials W R] (plan : Plan W R) : Except Raised (ExecResult R) := do
  let value ← plan.folded plan.ordered
  finalizeResult plan ⟨value, plan.tasks.length, plan.tasks.length - 1, none, []⟩

def sequential (plan : Plan (Plain R) R) (skipFailed : Int) : Except Raised (ExecResult R) := do
  plan.bound
  match ← skipping (.plain plan) skipFailed with
  | .plain base => sequentialTasks base
  | .skip sp => sequentialTasks sp.plan

section Quiet

variable {W : Type} [Partials W R] {plan : Plan W R} {value : W} {l : List Asked}

/-- The sequential runner with no monitor and no control. -/
def quiet : Runner := ⟨none, false⟩

theorem quiet_turn (task : Task) : quiet.turn plan value task = startTask task >>= fun _ =>
    Prog.ofExcept ((plan.process task.partition >>= fun part => plan.combine value part) >>=
      fun merged => .ok (some merged)) := by
  change (startTask task >>= fun _ => quiet.processed plan task >>= fun part =>
    Prog.ofExcept (plan.combine value part) >>= fun merged => pure (some merged)) = _
  congr 1
  funext _
  unfold Runner.processed
  cases plan.process task.partition with
  | error e =>
      dsimp only
      split <;> rfl
  | ok part =>
      change Prog.bind (Prog.ofExcept (plan.combine value part)) _ =
        Prog.ofExcept (plan.combine value part >>= _)
      cases plan.combine value part <;> rfl

theorem quiet_loop {tasks : List Task} {n : Nat} {o : Except Raised (W × Nat × Option StopReason)}
    (h : Trace (quiet.loop plan tasks value n) l o) :
    o = (plan.foldFrom value tasks).map fun v => (v, n + tasks.length, none) := by
  induction tasks generalizing value n l with
  | nil => exact (trace_ret.mp h).2
  | cons task rest ih =>
      have hfold : plan.foldFrom value (task :: rest) =
          (plan.process task.partition >>= fun part => plan.combine value part) >>= fun merged =>
            plan.foldFrom merged rest := List.foldlM_cons
      rw [hfold]
      rw [Runner.loop, quiet_turn] at h
      rcases trace_bind.mp h with ⟨a, l₁, l₂, hturn, hrest, rfl⟩ | ⟨e, rfl, hturn⟩
      · rcases trace_bind.mp hturn with ⟨u, l₃, l₄, -, hx, rfl⟩ | ⟨e, he, -⟩
        · obtain ⟨merged, hmerged, hsome⟩ := bind_ok_iff.mp (trace_ofExcept.mp hx).2.symm
          obtain rfl := Except.ok.inj hsome
          rw [hmerged, ih hrest, List.length_cons, Nat.add_comm rest.length, ← Nat.add_assoc]
          rfl
        · cases he
      · rcases trace_bind.mp hturn with ⟨u, l₃, l₄, -, hx, rfl⟩ | ⟨e', he, hstart⟩
        · have herror := (trace_ofExcept.mp hx).2
          cases hmerged : (plan.process task.partition >>= fun part => plan.combine value part) with
          | error e' =>
              rw [hmerged] at herror
              exact congrArg Except.error (Except.error.inj herror)
          | ok merged =>
              rw [hmerged] at herror
              cases herror
        · obtain ⟨_, -, hok⟩ := trace_query.mp hstart
          cases hok

theorem quiet_tasksBody {o : Except Raised (ExecResult W)}
    (h : Trace (quiet.tasksBody plan) l o) : o = (plan.folded plan.ordered).map fun v =>
      ⟨v, plan.tasks.length, plan.tasks.length - 1, none, []⟩ := by
  have hlength : plan.ordered.length = plan.tasks.length :=
    List.length_insertionSort (fun a b : Task => a.key ≤ b.key) plan.tasks
  have hsubmit : ∀ tasks : List Task, quiet.submitAll tasks = pure () := by
    intro tasks
    induction tasks with
    | nil => rfl
    | cons task tasks ih => exact ih
  rcases trace_bind.mp h with ⟨value, l₁, l₂, hempty, hrest, rfl⟩ | ⟨e, rfl, hempty⟩
  · obtain ⟨rfl, hvalue⟩ := trace_ofExcept.mp hempty
    change Trace (quiet.submitAll plan.ordered >>= fun _ =>
      quiet.loop plan plan.ordered value 0 >>= fun x => pure ⟨x.1, x.2.1, x.2.1 - 1, x.2.2, []⟩)
      l₂ o at hrest
    rw [hsubmit] at hrest
    obtain ⟨o', hloop, rfl⟩ := trace_bind_pure.mp hrest
    rw [quiet_loop hloop, Plan.folded, ← hvalue, hlength, Nat.zero_add]
    change _ = Except.map _ (plan.foldFrom value plan.ordered)
    cases plan.foldFrom value plan.ordered <;> rfl
  · rw [Plan.folded, ← (trace_ofExcept.mp hempty).2]
    rfl

/-- A cleanup that does nothing. -/
theorem trace_ensure_pure {α : Type} {p : Script α} {o : Except Raised α}
    (h : Trace (p.ensure (pure ())) l o) : Trace p l o := by
  obtain ⟨o₁, l₁, c, l₂, hp, hclean, rfl, rfl⟩ := trace_ensure.mp h
  obtain ⟨rfl, rfl⟩ := trace_ret.mp hclean
  rwa [List.append_nil]

theorem quiet_runPlan {o : Except Raised (ExecResult R)} (h : Trace (quiet.runPlan plan) l o) :
    o = sequentialTasks plan := by
  have hbody : ∀ {l : List Asked} {o : Except Raised (ExecResult W)},
      Trace (quiet.observedRun plan.tasks.length (quiet.runTasks plan)) l o →
        (o >>= finalizeResult plan) = sequentialTasks plan := by
    intro l o hobserved
    obtain rfl := quiet_tasksBody (trace_ensure_pure (trace_ensure_pure hobserved))
    unfold sequentialTasks
    cases plan.folded plan.ordered <;> rfl
  rcases trace_bind.mp h with ⟨result, l₁, l₂, hresult, hfinal, rfl⟩ | ⟨e, rfl, hresult⟩
  · rw [← hbody hresult, (trace_ofExcept.mp hfinal).2]
    rfl
  · rw [← hbody hresult]
    rfl

/-- **What the runner returns**: with no monitor and no control, it is decided by the plan. -/
theorem quiet_run {plan : Plan (Plain R) R} {skipFailed : Int} {o : Except Raised (ExecResult R)}
    (h : Trace (quiet.run (.plain plan) skipFailed) l o) : o = sequential plan skipFailed := by
  unfold sequential
  rcases trace_bind.mp h with ⟨u, l₁, l₂, hbound, hrest, rfl⟩ | ⟨e, rfl, hbound⟩
  · have hok : plan.bound = .ok u := (trace_ofExcept.mp hbound).2.symm
    rw [hok]
    rcases trace_bind.mp hrest with ⟨skipped, l₃, l₄, hskip, hrun, rfl⟩ | ⟨e, rfl, hskip⟩
    · have hskipped : skipping (.plain plan) skipFailed = .ok skipped :=
        (trace_ofExcept.mp hskip).2.symm
      rw [hskipped]
      cases skipped with
      | plain base => exact quiet_runPlan hrun
      | skip sp => exact quiet_runPlan hrun
    · have hrefused : skipping (.plain plan) skipFailed = .error e :=
        (trace_ofExcept.mp hskip).2.symm
      rw [hrefused]
      rfl
  · have hrefused : plan.bound = .error e := (trace_ofExcept.mp hbound).2.symm
    rw [hrefused]
    rfl

end Quiet

/-- The tasks of stages with no inputs, and those of the others. -/
def stageCounts (stages : List (ObjectStage O)) : Nat × Nat :=
  (((stages.filter (·.inputs = [])).map (·.tasks.length)).sum,
    ((stages.filter (·.inputs ≠ [])).map (·.tasks.length)).sum)

/-- The result of a staged run, from every stage's payloads. -/
def ObjectStaged.result (py : Objects O V) (plan : ObjectStaged O V)
    (payloads : List (List BlobData)) : Except Raised (ExecResult V) := do
  let last ←
    match payloads.getLast? with
    | some last => .ok last
    | none => .error indexError
  let value ← plan.value py last
  let value ←
    match plan.finalize with
    | none => .ok value
    | some fn => fn value
  .ok ⟨value, (stageCounts plan.stages).1, (stageCounts plan.stages).2, none, []⟩

/-- The payloads of every stage, each task handed those of the stages its own reads. -/
def stagePayloads (py : Objects O V) (behaviors : List BlobData) (stages : List (ObjectStage O)) :
    Except Raised (List (List BlobData)) :=
  stages.foldlM (fun payloads stage => do
    let upstream ← stageInputs payloads stage.inputs
    let out ← stage.tasks.mapM fun task => py.callStage stage.process behaviors task upstream
    .ok (payloads ++ [out])) []

def sequentialStages (py : Objects O V) (behaviors : List BlobData) (plan : ObjectStaged O V)
    (skipFailed : Int) : Except Raised (ExecResult V) := do
  plan.bound
  if skipFailed ≠ 0 then
    .error (typeError "skip_failed needs a Plan; a DurablePlanV2 has no chunk to leave out")
  else do
    let payloads ← stagePayloads py behaviors plan.stages
    plan.result py payloads

end Graphed
