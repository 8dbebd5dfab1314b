import Graphed.Checkpoint.Runner

/-!
# Resuming a shuffle

What a task of a stage gives is decided by its process, the task, and what the tasks upstream give:
its work. The id a block is journaled under tells the stage and the task, but nothing upstream. While
tasks that share an id do the same work, a resumed shuffle serves only its own plan's blocks.
-/

namespace Graphed

open Effects

/-! ### Work -/

/-- What a task runs, and what the tasks it reads run. -/
inductive Work where
  | node (process : StageProcess) (task : Task) (upstream : List Work)

mutual

/-- The payload work gives. -/
def Work.payload : Work → Except Raised BlobData
  | .node process task upstream => do
      let inputs ← payloadsOf upstream
      process task inputs

def payloadsOf : List Work → Except Raised (List BlobData)
  | [] => .ok []
  | work :: rest => do
      let payload ← work.payload
      let payloads ← payloadsOf rest
      .ok (payload :: payloads)

end

/-- The work upstream of a stage, given that of the stages before it. -/
def upstreamWork (before : List (List Work)) (stage : StageSpec) : List Work :=
  stage.inputs.flatMap fun dep => before.getD dep []

def stageWork (before : List (List Work)) (stage : StageSpec) : List Work :=
  stage.tasks.map fun task => .node stage.process.callable task (upstreamWork before stage)

/-- The work of every stage. -/
def works (stages : List StageSpec) : List (List Work) :=
  stages.foldl (fun before stage => before ++ [stageWork before stage]) []

/-- The work of one task of the stage at an index. -/
def DurablePlanV2.taskWork (plan : DurablePlanV2) (index : Nat) (stage : StageSpec) (task : Task) :
    Work :=
  .node stage.process.callable task (upstreamWork (works (plan.stages.take index)) stage)

theorem works_append (stages : List StageSpec) (stage : StageSpec) :
    works (stages ++ [stage]) = works stages ++ [stageWork (works stages) stage] := by
  unfold works
  rw [List.foldl_append]
  rfl

theorem payloadsOf_cons {work : Work} {rest : List Work} {ps : List BlobData} :
    payloadsOf (work :: rest) = .ok ps ↔
      ∃ p qs, work.payload = .ok p ∧ payloadsOf rest = .ok qs ∧ ps = p :: qs := by
  simp only [payloadsOf, bind_ok_iff, Except.ok.injEq, exists_and_left, @eq_comm _ ps]

theorem payloadsOf_append {xs ys : List Work} {ps qs : List BlobData}
    (hxs : payloadsOf xs = .ok ps) (hys : payloadsOf ys = .ok qs) :
    payloadsOf (xs ++ ys) = .ok (ps ++ qs) := by
  induction xs generalizing ps with
  | nil =>
      obtain rfl := Except.ok.inj hxs
      exact hys
  | cons x xs ih =>
      obtain ⟨p, rest, hx, hrest, rfl⟩ := payloadsOf_cons.mp hxs
      exact payloadsOf_cons.mpr ⟨p, rest ++ qs, hx, ih hrest, rfl⟩

/-- The payloads of stages are those their work gives. -/
def PayloadsOf (before : List (List Work)) (payloads : List (List BlobData)) : Prop :=
  List.Forall₂ (fun works payloads => payloadsOf works = .ok payloads) before payloads

theorem gatherInputs_cons {α : Type} {blocks : List (List α)} {dep : Nat} {deps : List Nat}
    {upstream : List α} : gatherInputs blocks (dep :: deps) = .ok upstream ↔
      ∃ block rest, blocks[dep]? = some block ∧ gatherInputs blocks deps = .ok rest ∧
        upstream = block ++ rest := by
  rw [gatherInputs]
  cases blocks[dep]? with
  | none => simp
  | some block => simp [map_ok_iff, @eq_comm _ upstream]

theorem gatherInputs_works {before : List (List Work)} {payloads : List (List BlobData)}
    (h : PayloadsOf before payloads) {inputs : List Nat} {upstream : List BlobData}
    (hgather : gatherInputs payloads inputs = .ok upstream) :
    payloadsOf (inputs.flatMap fun dep => before.getD dep []) = .ok upstream := by
  induction inputs generalizing upstream with
  | nil => exact hgather
  | cons dep deps ih =>
      obtain ⟨block, rest, hblock, hrest, rfl⟩ := gatherInputs_cons.mp hgather
      obtain ⟨hlt, rfl⟩ := List.getElem?_eq_some_iff.mp hblock
      have hlt' : dep < before.length := by rw [h.length_eq]; exact hlt
      have hdep : payloadsOf (before.getD dep []) = .ok payloads[dep] := by
        rw [List.getD_eq_getElem?_getD, List.getElem?_eq_getElem hlt']
        exact h.get hlt' hlt
      rw [List.flatMap_cons]
      exact payloadsOf_append hdep (ih hrest)

theorem gatherInputs_map {α β : Type} (f : α → β) (blocks : List (List α)) (inputs : List Nat) :
    gatherInputs (blocks.map fun block => block.map f) inputs =
      (gatherInputs blocks inputs).map fun upstream => upstream.map f := by
  induction inputs with
  | nil => rfl
  | cons dep deps ih =>
      rw [gatherInputs, gatherInputs, List.getElem?_map]
      cases blocks[dep]? with
      | none => rfl
      | some block =>
          simp only [Option.map_some, ih]
          cases gatherInputs blocks deps with
          | error e => rfl
          | ok rest => simp [Except.map]

/-! ### A plain run gives what the work gives -/

theorem mapM_payload {stage : StageSpec} {upstream : List BlobData} {before : List (List Work)}
    (hupstream : payloadsOf (upstreamWork before stage) = .ok upstream) (tasks : List Task) :
    tasks.mapM (fun task => stage.process.callable task upstream) =
      payloadsOf (tasks.map fun task =>
        .node stage.process.callable task (upstreamWork before stage)) := by
  induction tasks with
  | nil => rfl
  | cons task tasks ih =>
      rw [List.mapM_cons, List.map_cons, payloadsOf, Work.payload, hupstream, ih]
      rfl

theorem runStages_append (pre stages : List StageSpec) (payloads : List (List BlobData)) :
    runStages (pre ++ stages) payloads = runStages pre payloads >>= runStages stages := by
  induction pre generalizing payloads with
  | nil => rfl
  | cons stage pre ih =>
      rw [List.cons_append, runStages, runStages]
      simp only [bind_assoc, ih]

/-- One more stage of a plain run. -/
theorem runStages_snoc {pre : List StageSpec} {stage : StageSpec}
    {payloads : List (List BlobData)} {upstream out : List BlobData}
    (hpre : runStages pre [] = .ok payloads)
    (hupstream : gatherInputs payloads stage.inputs = .ok upstream)
    (hout : stage.tasks.mapM (fun task => stage.process.callable task upstream) = .ok out) :
    runStages (pre ++ [stage]) [] = .ok (payloads ++ [out]) := by
  rw [runStages_append, hpre]
  change runStages [stage] payloads = _
  rw [runStages, hupstream]
  change (stage.tasks.mapM (fun task => stage.process.callable task upstream) >>= fun out =>
    runStages [] (payloads ++ [out])) = _
  rw [hout]
  rfl

/-! ### What the journal may say -/

/-- Tasks of these plans that share an id do the same work. -/
def SameWork (sha : BlobData → String) (plans : List DurablePlanV2) : Prop :=
  ∀ plan ∈ plans, ∀ plan' ∈ plans, ∀ i stage task j stage' task' taskId,
    plan.stages[i]? = some stage → task ∈ stage.tasks →
    plan'.stages[j]? = some stage' → task' ∈ stage'.tasks →
    plan.taskId sha i stage task = .ok taskId → plan'.taskId sha j stage' task' = .ok taskId →
    plan.taskWork i stage task = plan'.taskWork j stage' task'

/-- Runs of one plan agree, its partitions being whole. -/
theorem sameWork_of_eq {sha : BlobData → String} (hsha : Function.Injective sha)
    (plan : DurablePlanV2) {plans : List DurablePlanV2} (hplans : ∀ p ∈ plans, p = plan)
    (hwhole : ∀ stage ∈ plan.stages, ∀ task ∈ stage.tasks, task.partition.WholeStep) :
    SameWork sha plans := by
  intro p hp p' hp' i stage task j stage' task' taskId hi htask hj htask' hid hid'
  obtain rfl := hplans p hp
  obtain rfl := hplans p' hp'
  obtain ⟨-, rfl, -, -, -, hpartition, hkey⟩ := DurablePlanV2.taskId_inj hsha hid hid'
  obtain rfl := Option.some.inj (hi.symm.trans hj)
  have hstage := List.mem_of_getElem? hi
  have hsame := Partition.eq_of_jsonKey (hwhole _ hstage _ htask) (hwhole _ hstage _ htask')
    hpartition
  have htasks : task = task' := by
    cases task
    cases task'
    simp_all
  rw [htasks]

/-- The blob is the payload that every task of these plans under the id gives. -/
def GivesBlob (sha : BlobData → String) (plans : List DurablePlanV2) (taskId blob : String) : Prop :=
  ∀ plan ∈ plans, ∀ i stage task, plan.stages[i]? = some stage → task ∈ stage.tasks →
    plan.taskId sha i stage task = .ok taskId →
    ∃ payload, (plan.taskWork i stage task).payload = .ok payload ∧ blob = sha payload

/-- The stages before this one have run as a plain run runs them. -/
structure RanTo (sha : BlobData → String) (pre : List StageSpec) (progress : ShuffleProgress) :
    Prop where
  plain : runStages pre [] = .ok progress.payloads
  works : PayloadsOf (works pre) progress.payloads
  hashes : progress.hashes = progress.payloads.map fun block => block.map sha

section Run

variable {sha : BlobData → String} {plans : List DurablePlanV2} {run : ShuffleRun}
  {done : Completed} {pre post : List StageSpec} {stage : StageSpec} {inputs : List BlobData}
  {upstream : List String}

/-- A task's own work gives what its process gives of what the stages upstream gave. -/
theorem taskWork_payload (hstages : run.plan.stages = pre ++ stage :: post)
    (hinputs : payloadsOf (upstreamWork (works pre) stage) = .ok inputs) (task : Task) :
    (run.plan.taskWork pre.length stage task).payload = stage.process.callable task inputs := by
  unfold DurablePlanV2.taskWork
  rw [hstages, List.take_left, Work.payload, hinputs]
  rfl

theorem stage_getElem? (hstages : run.plan.stages = pre ++ stage :: post) :
    run.plan.stages[pre.length]? = some stage := by
  rw [hstages, List.getElem?_append_right le_rfl, Nat.sub_self]
  rfl

/-- What a task of a plan records is what every task under its id gives. -/
theorem givesBlob_of_sameWork (hsame : SameWork sha plans) (hrun : run.plan ∈ plans)
    (hstages : run.plan.stages = pre ++ stage :: post)
    (hinputs : payloadsOf (upstreamWork (works pre) stage) = .ok inputs) {task : Task}
    (htask : task ∈ stage.tasks) {taskId : String}
    (hid : run.plan.taskId sha pre.length stage task = .ok taskId) {payload : BlobData}
    (hpayload : stage.process.callable task inputs = .ok payload) :
    GivesBlob sha plans taskId (sha payload) := by
  intro plan' hplan' j stage' task' hj htask' hid'
  have hwork := hsame _ hrun _ hplan' _ _ _ _ _ _ _ (stage_getElem? hstages) htask hj htask'
    hid hid'
  refine ⟨payload, ?_, rfl⟩
  rw [← hwork, taskWork_payload hstages hinputs, hpayload]

theorem keeps_storedBlock {L : String → String → Prop} {entry : Option JournalEntry} :
    Keeps sha StageCall.result L (ShuffleRun.storedBlock entry)
      fun block => ∀ payload hash, block = some (payload, hash) →
        ∃ e, entry = some e ∧ hash = e.blob ∧ sha payload = e.blob := by
  cases entry with
  | none =>
      refine keeps_pure ?_
      intro payload hash h
      cases h
  | some entry =>
      refine keeps_bind keeps_get ?_
      intro blob hblob
      refine keeps_pure ?_
      intro payload hash h
      obtain ⟨data, rfl, heq⟩ := Option.map_eq_some_iff.mp h
      obtain ⟨rfl, rfl⟩ := Prod.mk.inj heq
      exact ⟨entry, rfl, rfl, hblob data rfl⟩

theorem keeps_upstreamDeps {L : String → String → Prop} (deps : Option (List String)) :
    Keeps sha StageCall.result L (ShuffleRun.upstreamDeps upstream deps) fun _ => True := by
  cases deps with
  | some deps => exact keeps_pure trivial
  | none =>
      unfold ShuffleRun.upstreamDeps
      dsimp only
      split_ifs
      · exact keeps_pure trivial
      · exact keeps_bind keeps_put fun _ _ => keeps_pure trivial

/-- One task: its block is the one a plain run makes, whether it is served or run. -/
theorem keeps_runTask (hsha : Function.Injective sha) (hsame : SameWork sha plans)
    (hrun : run.plan ∈ plans) (hstages : run.plan.stages = pre ++ stage :: post)
    (hinputs : payloadsOf (upstreamWork (works pre) stage) = .ok inputs)
    (hdone : ∀ taskId entry, done.get taskId = some entry → GivesBlob sha plans taskId entry.blob)
    {task : Task} (htask : task ∈ stage.tasks) (progress : StageProgress) :
    Keeps sha StageCall.result (GivesBlob sha plans)
      (run.runTask sha done pre.length stage inputs upstream progress task)
      fun progress' => ∃ payload, stage.process.callable task inputs = .ok payload ∧
        progress'.payloads = progress.payloads ++ [payload] ∧
        progress'.hashes = progress.hashes ++ [sha payload] := by
  unfold ShuffleRun.runTask
  refine keeps_bind (keeps_ofExcept fun taskId hid => hid) ?_
  intro taskId hid
  refine keeps_bind keeps_storedBlock ?_
  intro block hblock
  cases block with
  | some block =>
      obtain ⟨payload, hash⟩ := block
      obtain ⟨entry, hentry, rfl, hhash⟩ := hblock payload hash rfl
      obtain ⟨payload', hpayload', hblob⟩ := hdone taskId entry hentry _ hrun _ _ _
        (stage_getElem? hstages) htask hid
      obtain rfl : payload = payload' := hsha (hhash.trans hblob)
      refine keeps_pure ⟨payload, ?_, rfl, ?_⟩
      · rw [← taskWork_payload hstages hinputs, hpayload']
      · rw [hhash]
        rfl
  | none =>
      refine keeps_bind keeps_call ?_
      intro outcome houtcome
      cases outcome with
      | error e => exact keeps_raise
      | ok payload =>
          have hpayload : stage.process.callable task inputs = .ok payload := houtcome.symm
          refine keeps_bind keeps_put ?_
          rintro hash rfl
          refine keeps_bind (keeps_upstreamDeps progress.deps) ?_
          intro deps _
          refine keeps_bind (ψ := fun _ => True) (keeps_query ?_ fun _ _ _ _ _ => trivial) ?_
          · exact givesBlob_of_sameWork hsame hrun hstages hinputs htask hid hpayload
          · intro _ _
            exact keeps_pure ⟨payload, hpayload, rfl, rfl⟩

/-- All tasks of a stage, by induction on those left. -/
theorem keeps_tasks (hsha : Function.Injective sha) (hsame : SameWork sha plans)
    (hrun : run.plan ∈ plans) (hstages : run.plan.stages = pre ++ stage :: post)
    (hinputs : payloadsOf (upstreamWork (works pre) stage) = .ok inputs)
    (hdone : ∀ taskId entry, done.get taskId = some entry → GivesBlob sha plans taskId entry.blob)
    {tasks : List Task} (htasks : ∀ task ∈ tasks, task ∈ stage.tasks) (progress : StageProgress) :
    Keeps sha StageCall.result (GivesBlob sha plans)
      (tasks.foldlM (run.runTask sha done pre.length stage inputs upstream) progress)
      fun progress' => ∃ out, tasks.mapM (fun task => stage.process.callable task inputs) = .ok out ∧
        progress'.payloads = progress.payloads ++ out ∧
        progress'.hashes = progress.hashes ++ out.map sha := by
  induction tasks generalizing progress with
  | nil =>
      exact keeps_pure ⟨[], rfl, (List.append_nil _).symm, (List.append_nil _).symm⟩
  | cons task tasks ih =>
      rw [List.foldlM_cons]
      refine keeps_bind (keeps_runTask hsha hsame hrun hstages hinputs hdone
        (htasks task List.mem_cons_self) progress) ?_
      rintro progress' ⟨payload, hpayload, hpayloads, hhashes⟩
      refine (ih (fun t ht => htasks t (List.mem_cons_of_mem _ ht)) progress').weaken ?_
      rintro progress'' ⟨out, hout, hpayloads', hhashes'⟩
      refine ⟨payload :: out, ?_, ?_, ?_⟩
      · rw [List.mapM_cons, hpayload, hout]
        rfl
      · rw [hpayloads', hpayloads, List.append_assoc]
        rfl
      · rw [hhashes', hhashes, List.append_assoc]
        rfl

theorem keeps_runStage (hsha : Function.Injective sha) (hsame : SameWork sha plans)
    (hrun : run.plan ∈ plans) (hstages : run.plan.stages = pre ++ stage :: post)
    (hdone : ∀ taskId entry, done.get taskId = some entry → GivesBlob sha plans taskId entry.blob)
    {progress : ShuffleProgress} (hran : RanTo sha pre progress) :
    Keeps sha StageCall.result (GivesBlob sha plans)
      (run.runStage sha done pre.length stage progress) (RanTo sha (pre ++ [stage])) := by
  unfold ShuffleRun.runStage
  refine keeps_bind (keeps_ofExcept fun inputs hgather => hgather) ?_
  intro inputs hgather
  have hinputs := gatherInputs_works hran.works hgather
  refine keeps_bind (ψ := fun _ => True) (keeps_ofExcept fun _ _ => trivial) ?_
  intro upstream _
  refine keeps_bind (keeps_tasks hsha hsame hrun hstages hinputs hdone (fun _ h => h) _) ?_
  rintro finished ⟨out, hout, hpayloads, hhashes⟩
  rw [List.nil_append] at hpayloads hhashes
  refine keeps_pure ⟨?_, ?_, ?_⟩
  · rw [hpayloads]
    exact runStages_snoc hran.plain hgather hout
  · rw [works_append, hpayloads]
    refine List.rel_append hran.works (List.Forall₂.cons ?_ List.Forall₂.nil)
    rw [stageWork, ← mapM_payload hinputs, hout]
  · rw [hpayloads, hhashes, hran.hashes, List.map_append]
    rfl

theorem keeps_runStagesFrom (hsha : Function.Injective sha) (hsame : SameWork sha plans)
    (hrun : run.plan ∈ plans)
    (hdone : ∀ taskId entry, done.get taskId = some entry → GivesBlob sha plans taskId entry.blob)
    {stages : List StageSpec} (hstages : run.plan.stages = pre ++ stages)
    {progress : ShuffleProgress} (hran : RanTo sha pre progress) :
    Keeps sha StageCall.result (GivesBlob sha plans)
      (run.runStagesFrom sha done pre.length stages progress) (RanTo sha run.plan.stages) := by
  induction stages generalizing pre progress with
  | nil =>
      rw [hstages, List.append_nil]
      exact keeps_pure hran
  | cons stage stages ih =>
      refine keeps_bind (keeps_runStage hsha hsame hrun hstages hdone hran) ?_
      intro progress' hran'
      have hlength : pre.length + 1 = (pre ++ [stage]).length := by simp
      rw [hlength]
      exact ih (by rw [hstages, List.append_assoc]; rfl) hran'

/-- The hashes returned are those of the payloads a plain run passes for its value. -/
theorem keeps_runShuffleResumable (hsha : Function.Injective sha) (hsame : SameWork sha plans)
    (hrun : run.plan ∈ plans) :
    Keeps sha StageCall.result (GivesBlob sha plans) (run.runShuffleResumable sha)
      fun result => (lastPayloads run.plan).map (fun last => last.map sha) = .ok result.value := by
  unfold ShuffleRun.runShuffleResumable
  refine keeps_bind keeps_completed ?_
  intro done hdone
  refine keeps_bind (ψ := fun _ => True) (keeps_query trivial fun _ _ _ _ _ => trivial) ?_
  intro accepted _
  refine keeps_bind (ψ := fun _ => True) (keeps_ofExcept fun _ _ => trivial) ?_
  intro _ _
  have hstart : RanTo sha [] ⟨[], [], .new⟩ := ⟨rfl, List.Forall₂.nil, rfl⟩
  have hstages : run.plan.stages = [] ++ run.plan.stages := rfl
  refine keeps_bind (keeps_runStagesFrom hsha hsame hrun hdone hstages hstart) ?_
  intro progress hran
  unfold lastPayloads
  rw [hran.plain]
  cases hlast : progress.hashes.getLast? with
  | none => exact keeps_raise
  | some value =>
      refine keeps_pure ?_
      rw [hran.hashes, List.getLast?_map, Option.map_eq_some_iff] at hlast
      obtain ⟨last, hlast, rfl⟩ := hlast
      simp only [bind, Except.bind, hlast]
      rfl

/-! ### Any records -/

/-- Where every blob is allowed for the ids of its tasks, a run may record what it likes. -/
theorem obeys_of_ids {L : String → String → Prop} (hL : ∀ index stage task taskId blob,
    run.plan.taskId sha index stage task = .ok taskId → L taskId blob) :
    (run.job sha).Obeys sha L := by
  have htask : ∀ done index stage inputs upstream progress task,
      Keeps sha StageCall.result L
        (run.runTask sha done index stage inputs upstream progress task) fun _ => True := by
    intro done index stage inputs upstream progress task
    refine keeps_bind (keeps_ofExcept fun taskId hid => hid) ?_
    intro taskId hid
    refine keeps_bind keeps_storedBlock ?_
    intro block _
    cases block with
    | some block => exact keeps_pure trivial
    | none =>
        refine keeps_bind keeps_call ?_
        intro outcome _
        cases outcome with
        | error e => exact keeps_raise
        | ok payload =>
            refine keeps_bind keeps_put fun hash _ => ?_
            refine keeps_bind (keeps_upstreamDeps progress.deps) fun deps _ => ?_
            refine keeps_bind (ψ := fun _ => True) ?_ fun _ _ => keeps_pure trivial
            exact keeps_query (hL index stage task taskId hash hid) fun _ _ _ _ _ => trivial
  have htasks : ∀ done index stage inputs upstream (tasks : List Task) progress,
      Keeps sha StageCall.result L
        (tasks.foldlM (run.runTask sha done index stage inputs upstream) progress)
        fun _ => True := by
    intro done index stage inputs upstream tasks
    induction tasks with
    | nil => exact fun progress => keeps_pure trivial
    | cons task tasks ih =>
        intro progress
        rw [List.foldlM_cons]
        exact keeps_bind (htask _ _ _ _ _ _ _) fun progress' _ => ih progress'
  have hstages : ∀ done (stages : List StageSpec) index progress,
      Keeps sha StageCall.result L (run.runStagesFrom sha done index stages progress)
        fun _ => True := by
    intro done stages
    induction stages with
    | nil => exact fun index progress => keeps_pure trivial
    | cons stage stages ih =>
        intro index progress
        refine keeps_bind (ψ := fun _ => True) ?_ fun progress' _ => ih (index + 1) progress'
        refine keeps_bind (ψ := fun _ => True) (keeps_ofExcept fun _ _ => trivial) fun _ _ => ?_
        refine keeps_bind (ψ := fun _ => True) (keeps_ofExcept fun _ _ => trivial) fun _ _ => ?_
        exact keeps_bind (htasks _ _ _ _ _ _ _) fun _ _ => keeps_pure trivial
  refine ⟨_, keeps_bind (φ := fun _ => True) keeps_completed fun done _ => ?_⟩
  refine keeps_bind (ψ := fun _ => True) (keeps_query trivial fun _ _ _ _ _ => trivial) fun _ _ => ?_
  refine keeps_bind (ψ := fun _ => True) (keeps_ofExcept fun _ _ => trivial) fun _ _ => ?_
  refine keeps_bind (hstages _ _ _ _) fun progress _ => ?_
  cases progress.hashes.getLast? with
  | none => exact keeps_raise
  | some value => exact keeps_pure trivial

end Run

end Graphed
