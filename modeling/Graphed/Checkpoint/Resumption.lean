import Graphed.Checkpoint.History
import Graphed.Checkpoint.Reruns

/-!
# Resumable plans resume

On a store that runs of resumable plans left, a resumable plan returns what the plain plan returns,
does no work whose result it is named and the store still holds, and leaves a second run nothing to
do but what raises.
-/

namespace Graphed

open Effects

variable {O V : Type} {D : Digest} {P : Pickling O} {py : Objects O V}

/-! ### Tagged tasks and the journal -/

/-- A task tagged once may be tagged again. -/
theorem mem_tagged {done : Completed} {tasks : List Task} {ids : List String} {t : KeyedTask}
    (h : t ∈ List.zipWith (tagged done) tasks ids) (done' : Completed) :
    t = tagged done t.task t.taskId ∧
      tagged done' t.task t.taskId ∈ List.zipWith (tagged done') tasks ids := by
  induction tasks generalizing ids with
  | nil => cases h
  | cons task tasks ih =>
      cases ids with
      | nil => cases h
      | cons id ids =>
          rcases List.mem_cons.mp h with rfl | h
          · exact ⟨rfl, List.mem_cons_self⟩
          · obtain ⟨heq, hmem⟩ := ih h
            exact ⟨heq, List.mem_cons_of_mem _ hmem⟩

theorem mem_taggedStages {done : Completed} {stages : List (ObjectStage O)}
    {ids : List (List String)} {s : KeyedStage O} {t : KeyedTask}
    (hs : s ∈ taggedStages done stages ids) (ht : t ∈ s.tasks) (done' : Completed) :
    t = tagged done t.task t.taskId ∧
      tagged done' t.task t.taskId ∈ (taggedStages done' stages ids).flatMap (·.tasks) := by
  induction stages generalizing ids with
  | nil => cases hs
  | cons stage stages ih =>
      cases ids with
      | nil => cases hs
      | cons out rest =>
          rcases List.mem_cons.mp hs with rfl | hs
          · obtain ⟨heq, hmem⟩ := mem_tagged ht done'
            exact ⟨heq, List.mem_append_left _ hmem⟩
          · obtain ⟨heq, hmem⟩ := ih hs
            exact ⟨heq, List.mem_append_right _ hmem⟩

section Stored

variable {d : Disk} {taskId : String} {entry : JournalEntry}

theorem entry_blob_ne_empty (h : Truthful (FromRecipe D P py) d)
    (hget : d.completed.get taskId = some entry) : entry.blob ≠ "" := by
  obtain ⟨hmem, -, hstage, -⟩ := Disk.completed_get hget
  obtain ⟨_, _, _, data, _, hblob⟩ := h entry hmem hstage
  rw [hblob]
  exact D.hex_ne_empty data

theorem stored_of_has (hsound : d.Sound D.hex) (h : d.Has taskId) : d.Stored D.hex taskId := by
  obtain ⟨e, he, rfl, hstage, hblob⟩ := h
  obtain ⟨entry, hentry⟩ := Option.isSome_iff_exists.mp
    (Disk.completed_get_isSome he hstage hblob)
  obtain ⟨-, -, -, hthere⟩ := Disk.completed_get hentry
  obtain ⟨data, hdata⟩ := Option.isSome_iff_exists.mp hthere
  exact ⟨entry, hentry, data, hdata, hsound _ _ hdata⟩

theorem intact_answers {ω β : Type} {sha : BlobData → String} {result : ω → Except Raised β}
    {q : StoreQuery ω} {a : StoreAnswer ω β q} {d' : Disk} {digest : String}
    (h : d.Intact sha digest) (hanswer : storeAnswers sha result d q a d') :
    d'.Intact sha digest := by
  have hput : ∀ data, (d.put sha data).2.Intact sha digest := by
    intro data
    obtain ⟨old, hold, hname⟩ := h
    unfold Disk.put
    split_ifs
    · by_cases heq : digest = sha data
      · exact ⟨data, by simp [Disk.setObject, heq], heq.symm⟩
      · exact ⟨old, by simpa [Disk.setObject, heq] using hold, hname⟩
    · exact ⟨old, hold, hname⟩
  cases q with
  | completed =>
      obtain ⟨-, rfl⟩ := hanswer
      exact h
  | checkEnvironment mine =>
      rcases hanswer with ⟨bad, rfl⟩ | ⟨-, id, rfl⟩
      · exact h
      · exact hput mine
  | get name =>
      obtain ⟨-, rfl⟩ : a = (d.get sha name).1 ∧ d' = (d.get sha name).2 := Prod.mk.inj hanswer
      unfold Disk.Intact
      rw [Disk.objects_get]
      exact h
  | put data =>
      obtain ⟨-, rfl⟩ : a = (d.put sha data).1 ∧ d' = (d.put sha data).2 := Prod.mk.inj hanswer
      exact hput data
  | recordDone n entry =>
      obtain rfl := hanswer
      exact h
  | recordDead letter =>
      obtain rfl := hanswer
      exact h
  | deadLetters =>
      obtain ⟨-, rfl⟩ := hanswer
      exact h
  | call work =>
      obtain ⟨-, rfl⟩ := hanswer
      exact h

end Stored

/-! ### What the driver leaves -/

section Driver

variable {ω β : Type} {result : ω → Except Raised β} {args : ResumeArgs O} {d d₁ : Disk}

theorem check_untouched (h : Arrives (driftWorld D.hex result untouched)
    (checkAccepted args : StoreScript ω β Unit) d (.ret ()) d₁) :
    ∃ a, storeAnswers D.hex result d (.checkEnvironment args.environment) a d₁ := by
  have htriple : Triple (driftWorld D.hex result untouched) (fun _ _ => True) (· = d)
      (checkAccepted args : StoreScript ω β Unit) fun _ d₁ =>
        ∃ a, storeAnswers D.hex result d (.checkEnvironment args.environment) a d₁ := by
    refine triple_ask (S := fun a d₁ =>
      storeAnswers D.hex result d (.checkEnvironment args.environment) a d₁)
      (fun _ _ _ _ hmove => hmove.elim) (fun _ _ => trivial) ?_ ?_
    · rintro _ a d' rfl hanswer
      exact hanswer
    · intro a
      exact triple_ofExcept (fun _ _ _ _ hmove => hmove.elim) fun d₁ hd₁ => ⟨a, hd₁⟩
  exact htriple d rfl _ _ h

/-- The driver keeps the tasks' records and the worker's journal. -/
theorem filed_of_check (hleft : LeftWell D P py d)
    (hended : (d.log (journalName args.worker.node)).tail = .ended)
    (h : Arrives (driftWorld D.hex result untouched)
      (checkAccepted args : StoreScript ω β Unit) d (.ret ()) d₁) :
    LeftWell D P py d₁ ∧ Filed D.hex args.worker.node d (fun _ => False) d₁ := by
  have hnode := journalName_worker args.worker
  obtain ⟨a, hanswer⟩ := check_untouched h
  have hleft₁ : LeftWell D P py d₁ :=
    LeftWell.answers (q := .checkEnvironment args.environment) hleft hnode ⟨trivial, trivial⟩
      hanswer
  refine ⟨hleft₁, hleft₁.sound, ?_, ?_, fun _ hid => hid.elim⟩
  · rcases hanswer with ⟨bad, rfl⟩ | ⟨-, taskId, rfl⟩
    · exact hended
    · rw [Disk.record, Disk.log_setJournal, if_neg hnode, Disk.log_put]
      exact hended
  · intro e he hstage
    rcases hanswer with ⟨bad, rfl⟩ | ⟨-, taskId, rfl⟩
    · exact he
    · obtain ⟨n, hn⟩ := Disk.mem_entries.mp he
      refine Disk.mem_entries.mpr ⟨n, ?_⟩
      have hother : n ≠ environmentJournal := by
        rintro rfl
        exact hstage (hleft.environment e hn)
      rw [Disk.record, Disk.log_setJournal, if_neg hother, Disk.log_put]
      exact hn

end Driver

/-! ### Resuming -/

section Resuming

variable {ω β α : Type} {result : ω → Except Raised β} {args : ResumeArgs O} {d : Disk}
  {taskOf : ω → KeyedTask} {script : Worker → Completed → StoreScript ω β α}
  {plain : Except Raised α} {replayed : Prop} {tasks : Completed → List KeyedTask}
  {good : KeyedTask → Prop}

/-- What a script must satisfy to resume: its tasks are tagged from the journal, it mirrors the
plain run, and it asks for work only where there is no blob to serve. -/
structure Resuming (D : Digest) (P : Pickling O) (py : Objects O V) (args : ResumeArgs O)
    (result : ω → Except Raised β) (taskOf : ω → KeyedTask)
    (script : Worker → Completed → StoreScript ω β α) (plain : Except Raised α) (replayed : Prop)
    (tasks : Completed → List KeyedTask) (good : KeyedTask → Prop) : Prop where
  retagged : ∀ done done' t, t ∈ tasks done →
    t = tagged done t.task t.taskId ∧ tagged done' t.task t.taskId ∈ tasks done'
  byTask : ∀ t t', t.task = t'.task → good t → good t'
  mirrors : ∀ mv calm losses still, (calm → replayed) →
    ∀ d₀ ids, Truthful (FromRecipe D P py) d₀ →
    Mirrors (workerSetting D P py args.worker mv calm losses still) result
      (Filed D.hex args.worker.node d₀ ids)
      (Filed D.hex args.worker.node d₀ (withTasks ids (tasks d₀.completed) good))
      (script args.worker d₀.completed) (· = ·) plain
  safe : ∀ mv G (K : Disk → Prop) worker done, Keeping D.hex result mv G K →
    (∀ w, taskOf w ∈ tasks done → ∀ d, K d →
      (taskOf w).blob = "" ∨ ¬ d.Intact D.hex (taskOf w).blob → G d (.call w)) →
    Safe D.hex result mv G K (script worker done)
  fails : ∀ w, ¬ good (taskOf w) → ∃ e, result w = .error e

/-- No work is asked for whose result the journal names and the store still holds. -/
def Unheld (D : Digest) (done : Completed) (taskOf : ω → KeyedTask) (d : Disk) :
    StoreQuery ω → Prop
  | .call w => ∀ entry, done.get (taskOf w).taskId = some entry → ¬ d.Intact D.hex entry.blob
  | _ => True

/-- Only work is asked for whose process gives no result. -/
def OnlyFailing (good : KeyedTask → Prop) (taskOf : ω → KeyedTask) (_ : Disk) :
    StoreQuery ω → Prop
  | .call w => ¬ good (taskOf w)
  | _ => True

theorem Resuming.value (h : Resuming D P py args result taskOf script plain replayed tasks good)
    (hd : Truthful (FromRecipe D P py) d) {d₁ d' : Disk} {o : Except Raised α}
    (hcheck : Arrives (storeWorld D.hex result) (checkAccepted args : StoreScript ω β Unit) d
      (.ret ()) d₁)
    (hrun : Arrives (storeWorld D.hex result) (script args.worker d.completed) d₁ (.ofExcept o)
      d') : o = plain := by
  let W := workerSetting D P py args.worker (lost D.hex) False (fun _ _ _ hlost => hlost) False.elim
  have hd₁ : Truthful (FromRecipe D P py) d₁ :=
    checkAccepted_obeys (W := W) d hd _ _ hcheck
  have hmirrors := h.mirrors (lost D.hex) False (fun _ _ _ hlost => hlost) False.elim False.elim d
    (fun _ => False) hd
  have hend := hmirrors d₁ ⟨hd₁, False.elim⟩ _ d' hrun
  cases o with
  | ok a => exact matches_eq.mp hend.1
  | error e => exact matches_eq.mp hend.1

theorem Resuming.served (h : Resuming D P py args result taskOf script plain replayed tasks good)
    (hd : Truthful (FromRecipe D P py) d) {d₁ d' : Disk} {w : ω} {next : Except Raised β →
      StoreScript ω β α}
    (hrun : Arrives (storeWorld D.hex result) (script args.worker d.completed) d₁
      (.ask (.call w) next) d') : Unheld D d.completed taskOf d' (.call w) := by
  have hkeep : Keeping D.hex result (lost D.hex) (Unheld D d.completed taskOf) fun _ => True := by
    refine ⟨fun _ _ _ hlost => hlost, fun _ _ _ _ _ => trivial, fun _ _ _ _ _ _ => trivial, ?_⟩
    intro d q _ hq
    cases q with
    | call w => exact absurd rfl (hq w)
    | _ => trivial
  refine h.safe (lost D.hex) _ _ args.worker d.completed hkeep ?_ d₁ trivial _ d' hrun
  intro w hw d' _ hunheld entry hentry hintact
  obtain ⟨htag, -⟩ := h.retagged _ d.completed _ hw
  have hblob : (taskOf w).blob = entry.blob := by
    rw [htag]
    unfold tagged
    dsimp only
    rw [hentry]
  rw [hblob] at hunheld
  rcases hunheld with hempty | hnot
  · exact entry_blob_ne_empty hd hentry hempty
  · exact hnot hintact

theorem Resuming.recorded (h : Resuming D P py args result taskOf script plain replayed tasks good)
    (hleft : LeftWell D P py d) (hreplayed : replayed)
    (hended : (d.log (journalName args.worker.node)).tail = .ended) {d₁ d₂ d₃ d₄ : Disk} {a : α}
    (hcheck : Arrives (driftWorld D.hex result untouched)
      (checkAccepted args : StoreScript ω β Unit) d (.ret ()) d₁)
    (hrun : Arrives (driftWorld D.hex result untouched) (script args.worker d.completed) d₁
      (.ret a) d₂) {worker : Worker}
    (hcheck' : Arrives (driftWorld D.hex result untouched)
      (checkAccepted args : StoreScript ω β Unit) d₂ (.ret ()) d₃)
    {w : ω} {next : Except Raised β → StoreScript ω β α}
    (hrun' : Arrives (driftWorld D.hex result untouched) (script worker d₂.completed) d₃
      (.ask (.call w) next) d₄) : ∃ e, result w = .error e := by
  obtain ⟨hleft₁, hfiled₁⟩ := filed_of_check hleft hended hcheck
  have hend := h.mirrors untouched True (fun _ _ _ hmove => hmove.elim) (fun _ _ _ _ => id)
    (fun _ => hreplayed) d (fun _ => False) hleft.truthful d₁ ⟨hleft₁.truthful, fun _ => hfiled₁⟩ _
    d₂ hrun
  obtain ⟨-, -, hfiled⟩ := hend
  have hfiled₂ := hfiled trivial a rfl
  -- every task that gives a result is held when the second run starts
  have hheld : ∀ t ∈ tasks d₂.completed, good t →
      t.blob ≠ "" ∧ d₂.Intact D.hex t.blob := by
    intro t ht hgood
    obtain ⟨htag, hmem⟩ := h.retagged _ d.completed t ht
    have hhas : d₂.Has t.taskId := by
      refine hfiled₂.has t.taskId (Or.inr ⟨_, hmem, rfl, ?_⟩)
      exact h.byTask t _ rfl hgood
    obtain ⟨entry, hentry, data, hdata, hname⟩ := stored_of_has hfiled₂.sound hhas
    have hblob : t.blob = entry.blob := by
      rw [htag]
      unfold tagged
      dsimp only
      rw [hentry]
    rw [hblob]
    exact ⟨by rw [← hname]; exact D.hex_ne_empty data, data, hdata, hname⟩
  obtain ⟨answer, hanswer⟩ := check_untouched hcheck'
  have hkeep : Keeping D.hex result untouched (OnlyFailing good taskOf) fun d =>
      ∀ t ∈ tasks d₂.completed, good t → t.blob ≠ "" ∧ d.Intact D.hex t.blob := by
    refine ⟨fun _ _ _ hmove => hmove.elim, fun _ _ _ _ hmove => hmove.elim, ?_, ?_⟩
    · intro d q a d' hd hq t ht hgood
      exact ⟨(hd t ht hgood).1, intact_answers (hd t ht hgood).2 hq⟩
    · intro d q _ hq
      cases q with
      | call w => exact absurd rfl (hq w)
      | _ => trivial
  refine h.fails w (h.safe untouched _ _ worker d₂.completed hkeep ?_ d₃ ?_ _ d₄ hrun')
  · intro w hw d hd hunheld hgood
    obtain ⟨hne, hintact⟩ := hd _ hw hgood
    rcases hunheld with hempty | hnot
    · exact hne hempty
    · exact hnot hintact
  · intro t ht hgood
    exact ⟨(hheld t ht hgood).1, intact_answers (q := .checkEnvironment args.environment)
      (hheld t ht hgood).2 hanswer⟩

theorem Resuming.resumes (h : Resuming D P py args result taskOf script plain replayed tasks good)
    (hleft : LeftWell D P py d) : Resumes D args result taskOf script plain replayed d where
  value _ _ _ hcheck hrun := h.value hleft.truthful hcheck hrun
  served _ _ _ _ entry _ hrun hentry := h.served hleft.truthful hrun entry hentry
  recorded hreplayed hended _ _ _ hcheck hrun _ _ _ _ _ hcheck' hrun' :=
    h.recorded hleft hreplayed hended hcheck hrun hcheck' hrun'

end Resuming

/-! ### Resumable plans -/

section Plans

variable {d : Disk} {args : ResumeArgs O} {ids : List (List String)}

/-- A plan of one stage. -/
theorem Chunked.resuming {plan : ObjectPlan O V} {ir : Option BlobData} {replayed : Prop}
    (h : Chunked D P args plan ids ir) (haside : plan.SetsAside py args.behaviors) :
    Resuming D P py args (taskResult py args plan.process) (fun t => t)
      (fun worker done => runResumableTasks py (args.at worker) plan
        (taggedTasks done plan.tasks ids))
      (sequential (plan.plan py args.behaviors) args.skipFailed) replayed
      (fun done => taggedTasks done plan.tasks ids)
      fun t => ∃ c, taskResult py args plan.process t = .ok c where
  retagged _ done' _ ht := mem_tagged ht done'
  byTask t t' htask := by
    unfold taskResult
    rw [htask]
    exact id
  mirrors mv calm losses still _ d₀ _ hd₀ := by
    have hsize : ids.flatten.length = plan.tasks.length := by
      rw [← h.keys.length_eq]
      exact List.length_map _
    exact mirrors_runResumableTasks (W := workerSetting D P py args.worker mv calm losses still) rfl
      haside (map_task_tagged hsize) (h.tagged rfl hd₀)
  safe mv G K worker done hkeep hcall := by
    -- the process runs alike on every worker
    change Keeping D.hex (taskResult py (args.at worker) plan.process) mv G K at hkeep
    change Safe D.hex (taskResult py (args.at worker) plan.process) mv G K _
    refine safe_runResumableTasks hkeep.lasts fun t ht => ?_
    exact safe_callResumable hkeep (hcall t ht)
  fails t hnot := by
    cases hresult : taskResult py args plan.process t with
    | error e => exact ⟨e, rfl⟩
    | ok c => exact absurd ⟨c, hresult⟩ hnot

/-- A plan of several stages. -/
theorem staged_resuming {plan : ObjectStaged O V}
    (hids : (AnyObjectPlan.staged plan).taskIds D P py args = .ok ids)
    (hwhole : (AnyObjectPlan.staged plan).Whole) :
    Resuming D P py args (stageResult py args) (fun w => w.keyed)
      (fun worker done => runResumableStages py (args.at worker) plan
        (taggedStages done plan.stages ids))
      (sequentialStages py args.behaviors plan args.skipFailed)
      (AnyObjectPlan.staged plan).Replayed
      (fun done => (taggedStages done plan.stages ids).flatMap (·.tasks)) fun _ => True where
  retagged _ done' t ht := by
    obtain ⟨s, hs, ht⟩ := List.mem_flatMap.mp ht
    exact mem_taggedStages hs ht done'
  byTask _ _ _ := id
  mirrors mv calm losses still hcalm d₀ _ hd₀ := by
    obtain ⟨hstages, hkeyed⟩ := taggedStages_keyed d₀ hids
    exact mirrors_runResumableStages (W := workerSetting D P py args.worker mv calm losses still) rfl
      hd₀ rfl hstages hkeyed hwhole hcalm
  safe mv G K worker done hkeep hcall := by
    change Keeping D.hex (stageResult py (args.at worker)) mv G K at hkeep
    change Safe D.hex (stageResult py (args.at worker)) mv G K _
    refine safe_runResumableStages hkeep ?_
    intro s hs t ht inputs
    exact hcall ⟨s.stage.process, t, inputs⟩ (List.mem_flatMap.mpr ⟨s, hs, ht⟩)
  fails _ hnot := absurd trivial hnot

theorem resumed_of_leftWell {call : ResumableCall O V} (hwhole : call.plan.Whole)
    (haside : call.plan.SetsAside py call.args.behaviors)
    (hids : call.plan.taskIds D P py call.args = .ok ids) (hleft : LeftWell D P py d) :
    call.Resumed D py ids d := by
  obtain ⟨plan, args⟩ := call
  cases plan with
  | runtime plan =>
      intro l o hrun
      obtain rfl := quiet_run hrun
      exact ((chunked_runtime hids hwhole).resuming haside).resumes hleft
  | durable plan =>
      intro l o hrun
      obtain rfl := quiet_run hrun
      have haside : plan.toPlan.SetsAside py args.behaviors :=
        Or.inr ⟨⟨plan.combine, rfl⟩, plan.finalize, rfl⟩
      exact ((chunked_durable hids hwhole).resuming haside).resumes hleft
  | staged plan => exact (staged_resuming hids hwhole).resumes hleft

end Plans

/-! ### A blind step without its number -/

/-- A digest that puts a byte before its data. -/
def marked : Digest where
  raw data := 0 :: data
  injective := List.cons_injective
  nonempty _ := List.cons_ne_nil _ _

/-- One object, pickled with no behaviors. -/
def onePickle : Pickling Unit where
  pickle
    | .chunk _ _ [] => .ok [0x80]
    | .stage _ [] => .ok [0x80, 0]
    | _ => .error (typeError "cannot pickle")
  injective {x y bs} hx hy := by
    rcases x with ⟨_, _, _ | ⟨_, _⟩⟩ | ⟨_, _ | ⟨_, _⟩⟩ <;>
      rcases y with ⟨_, _, _ | ⟨_, _⟩⟩ | ⟨_, _ | ⟨_, _⟩⟩ <;> cases hx <;> cases hy <;> rfl
  header {x bs} hx := by
    rcases x with ⟨_, _, _ | ⟨_, _⟩⟩ | ⟨_, _ | ⟨_, _⟩⟩ <;> cases hx <;> rfl
  size {x bs} hx := by
    rcases x with ⟨_, _, _ | ⟨_, _⟩⟩ | ⟨_, _ | ⟨_, _⟩⟩ <;> cases hx <;> decide

/-- A process that tells whether its partition has a blind step. -/
def tellsBlind : Objects Unit UInt8 where
  call _ _ p := .ok ⟨if p.blindStep.isSome then 1 else 0, none⟩
  callStage _ _ _ inputs := .ok inputs.flatten
  codec _ := byteCodec
  loads := byteCodec.decode
  tuple values := values.headD 0
  isResumable _ := false
  checkpointable _ := true
  qualname _ := "m.tells"

/-- It, summed over one partition. -/
def tellingPlan (p : Partition) : ObjectPlan Unit UInt8 where
  process := ()
  combine a b := .ok ⟨a.value + b.value, none⟩
  empty := .ok ⟨0, none⟩
  tasks := [⟨0, p⟩]
  hasNextTasks := false
  stop := none
  hasServices := false
  bound := .ok ()
  finalize := none

def telling (p : Partition) : ResumableCall Unit UInt8 where
  plan := .runtime (tellingPlan p)
  args := ⟨(), "", [], [], ⟨"w", 0⟩, 0⟩

theorem telling_setsAside (p : Partition) :
    (telling p).plan.SetsAside tellsBlind (telling p).args.behaviors := by
  refine Or.inl ?_
  intro t _ c hc
  obtain rfl := Except.ok.inj hc
  rfl

/-- The file with a blind step, of no number of steps. -/
def halfSet : Partition := { wholeFile with blindStep := some 0 }

def tellingResult (t : KeyedTask) : Except Raised (Carried UInt8) :=
  taskResult tellsBlind (telling wholeFile).args () t

/-- The whole file is summed. -/
def afterWhole : Except Raised (ExecResult (Carried UInt8)) × Disk :=
  exec (storeStep marked.hex tellingResult)
    (resumableTasks marked onePickle tellsBlind (telling wholeFile).args (telling wholeFile).plan
      (tellingPlan wholeFile)) Disk.empty

/-- Then the half-set one. -/
def halfSetRun (ids : List (List String)) : Except Raised (ExecResult (Carried UInt8)) × Disk :=
  exec (storeStep marked.hex tellingResult)
    (runResumableTasks tellsBlind (telling halfSet).args (tellingPlan halfSet)
      (taggedTasks afterWhole.2.completed [⟨0, halfSet⟩] ids)) afterWhole.2

end Graphed
