import Graphed.Checkpoint.Transparent

/-!
# Runs of resumable plans on one store

Runs of any resumable plans follow one another on a store, each cut off anywhere, while blobs
vanish. What a store then records of a task is what the task's recipe gives. So a run serves only
what its own tasks would give; and of tasks with one key, all depend on the same.
-/

namespace Graphed

open Effects

variable {O V : Type} {D : Digest} {P : Pickling O} {py : Objects O V}

/-! ### Histories -/

/-- Blobs may vanish. -/
def vanishing (d : Disk) (m : Loss) (d' : Disk) : Prop :=
  ∃ digest, m = .vanish digest ∧ d' = d.setObject digest none

/-- Nothing else touches the store. -/
def untouched (_ : Disk) (_ : Loss) (_ : Disk) : Prop := False

/-- What a store holds after runs of resumable plans, each stopped anywhere or finished, with blobs
gone meanwhile. A store may be opened anew, and then knows of other bad blobs. -/
inductive LeftByCalls (D : Digest) (P : Pickling O) (py : Objects O V) :
    List (ResumableCall O V) → Disk → Prop
  | fresh : LeftByCalls D P py [] Disk.empty
  | run {calls : List (ResumableCall O V)} {call : ResumableCall O V} {d d' : Disk} :
      LeftByCalls D P py calls d →
      Stops (driftWorld D.hex (call.job D P py).result vanishing) (storeCut D.hex)
        (call.job D P py).script d d' → LeftByCalls D P py (calls ++ [call]) d'
  | opened {calls : List (ResumableCall O V)} {d : Disk} {bad : List String} :
      LeftByCalls D P py calls d → LeftByCalls D P py calls { d with bad := bad }
  | vanished {calls : List (ResumableCall O V)} {d d' : Disk} {m : Loss} :
      LeftByCalls D P py calls d → vanishing d m d' → LeftByCalls D P py calls d'

/-! ### What is asked of a plan -/

namespace AnyObjectPlan

/-- Every partition's blind step is set with its number of steps, or neither. -/
def Whole : AnyObjectPlan O V → Prop
  | .runtime plan => ∀ t ∈ plan.tasks, t.partition.WholeStep
  | .durable plan => ∀ p ∈ plan.partitions, p.WholeStep
  | .staged plan => ∀ s ∈ plan.stages, ∀ t ∈ s.tasks, t.partition.WholeStep

/-- A runtime plan's partials carry no warnings, or its combine and finalize look through them. -/
def SetsAside (py : Objects O V) (behaviors : List BlobData) : AnyObjectPlan O V → Prop
  | .runtime plan => plan.SetsAside py behaviors
  | _ => True

/-- No stage has the kind of the environment's records. -/
def Replayed : AnyObjectPlan O V → Prop
  | .staged plan => ∀ s ∈ plan.stages, s.kind ≠ "environment"
  | _ => True

/-- The recipes of its tasks, stage by stage. -/
def recipes (args : ResumeArgs O) : AnyObjectPlan O V → List (List (Recipe O))
  | .runtime plan => [plan.tasks.map fun t =>
      .chunk none plan.process args.codec args.behaviors args.salt t.partition]
  | .durable plan => [plan.partitions.map fun p =>
      .chunk (some plan.ir) plan.process args.codec args.behaviors args.salt p]
  | .staged plan => stagedRecipes plan.ir args.behaviors args.salt plan.stages

end AnyObjectPlan

/-- What a resumable plan does, given its script from the journal it has read, and what the plain
plan gives. -/
structure Resumes {ω β α : Type} (D : Digest) (args : ResumeArgs O)
    (result : ω → Except Raised β) (taskOf : ω → KeyedTask)
    (script : Worker → Completed → StoreScript ω β α) (plain : Except Raised α) (replayed : Prop)
    (d : Disk) : Prop where
  value : ∀ d₁ o d', Arrives (storeWorld D.hex result)
      (checkAccepted args : StoreScript ω β Unit) d (.ret ()) d₁ →
    Arrives (storeWorld D.hex result) (script args.worker d.completed) d₁ (.ofExcept o) d' →
    o = plain
  served : ∀ d₁ w next d' entry, Arrives (storeWorld D.hex result)
      (checkAccepted args : StoreScript ω β Unit) d (.ret ()) d₁ →
    Arrives (storeWorld D.hex result) (script args.worker d.completed) d₁ (.ask (.call w) next)
      d' →
    d.completed.get (taskOf w).taskId = some entry → ¬ d'.Intact D.hex entry.blob
  recorded : replayed → (d.log (journalName args.worker.node)).tail = .ended →
    ∀ d₁ a d₂, Arrives (driftWorld D.hex result untouched)
      (checkAccepted args : StoreScript ω β Unit) d (.ret ()) d₁ →
    Arrives (driftWorld D.hex result untouched) (script args.worker d.completed) d₁ (.ret a) d₂ →
    ∀ worker d₃ w next d₄, Arrives (driftWorld D.hex result untouched)
      (checkAccepted args : StoreScript ω β Unit) d₂ (.ret ()) d₃ →
    Arrives (driftWorld D.hex result untouched) (script worker d₂.completed) d₃
      (.ask (.call w) next) d₄ → ∃ e, result w = .error e

/-- The same call on another worker. -/
def ResumeArgs.at (args : ResumeArgs O) (worker : Worker) : ResumeArgs O :=
  { args with worker := worker }

/-- A call's plan resumes on this store as the sequential runner runs the plan itself. -/
def ResumableCall.Resumed (D : Digest) (py : Objects O V) (call : ResumableCall O V)
    (ids : List (List String)) (d : Disk) : Prop :=
  let chunked (plan : ObjectPlan O V) := ∀ l o, Trace (quiet.run
      (.plain (plan.plan py call.args.behaviors)) call.args.skipFailed) l o →
    Resumes D call.args (taskResult py call.args plan.process) (fun t => t)
      (fun worker done => runResumableTasks py (call.args.at worker) plan
        (taggedTasks done plan.tasks ids)) o call.plan.Replayed d
  match call.plan with
  | .runtime plan => chunked plan
  | .durable plan => chunked plan.toPlan
  | .staged plan =>
      Resumes D call.args (stageResult py call.args) (fun w => w.keyed)
        (fun worker done => runResumableStages py (call.args.at worker) plan
          (taggedStages done plan.stages ids))
        (sequentialStages py call.args.behaviors plan call.args.skipFailed) call.plan.Replayed d

/-- Tasks of plans with one key are made of the same. -/
def KeysApart (D : Digest) (P : Pickling O) (py : Objects O V) (plans : AnyObjectPlan O V → Prop) :
    Prop :=
  ∀ (call call' : ResumableCall O V) (ids ids' : List (List String)), plans call.plan →
    plans call'.plan → call.plan.taskIds D P py call.args = .ok ids →
    call'.plan.taskIds D P py call'.args = .ok ids' →
    ∀ x ∈ (call.plan.recipes call.args).flatten.zip ids.flatten,
    ∀ y ∈ (call'.plan.recipes call'.args).flatten.zip ids'.flatten, x.2 = y.2 → x.1 = y.1

/-! ### Keys of tagged plans -/

section Keys

variable {args : ResumeArgs O} {d₀ : Disk}

theorem map_task_tagged {done : Completed} {tasks : List Task} {ids : List String}
    (h : ids.length = tasks.length) :
    (List.zipWith (tagged done) tasks ids).map (·.task) = tasks := by
  induction tasks generalizing ids with
  | nil => rfl
  | cons task tasks ih =>
      cases ids with
      | nil => cases h
      | cons id ids => exact congrArg (task :: ·) (ih (Nat.succ.inj h))

/-- Each tagged task has its recipe's key, and the blob the journal names for it. -/
theorem tagged_keys {f : Task → Recipe O} {tasks : List Task} {ids : List String}
    (h : List.Forall₂ (fun r id => r.key D P = .ok id) (tasks.map f) ids) :
    List.Forall₂ (fun t r => r.key D P = .ok t.taskId ∧ FromJournal d₀ t)
      (List.zipWith (tagged d₀.completed) tasks ids) (tasks.map f) := by
  induction tasks generalizing ids with
  | nil =>
      obtain rfl := List.forall₂_nil_left_iff.mp h
      exact List.Forall₂.nil
  | cons task tasks ih =>
      cases h with
      | cons hkey hrest => exact List.Forall₂.cons ⟨hkey, fromJournal_tagged _ _⟩ (ih hrest)

/-- The stages of a staged plan, tagged, by induction on those left. -/
theorem keyedFrom_tagged (d₀ : Disk) {ir : BlobData} {stages : List (ObjectStage O)}
    {before : List (List (Recipe O))} {ids₀ ids : List (List String)}
    (hbefore : List.Forall₂ (List.Forall₂ fun r id => r.key D P = .ok id) before ids₀)
    (h : stages.foldlM (fun ids stage => do
      let stage ← stageIds D P ir args.behaviors args.salt ids stage
      .ok (ids ++ [stage])) ids₀ = .ok ids) :
    ∃ rest, ids = ids₀ ++ rest ∧ rest.length = stages.length ∧
      KeyedFrom D P ir args d₀ before (taggedStages d₀.completed stages rest) ∧
      List.Forall₂ (List.Forall₂ fun r id => r.key D P = .ok id)
        (stages.foldl (fun before stage =>
          before ++ [stageRecipes ir args.behaviors args.salt before stage]) before) ids := by
  induction stages generalizing before ids₀ with
  | nil =>
      obtain rfl := Except.ok.inj h
      exact ⟨[], (List.append_nil _).symm, rfl, trivial, hbefore⟩
  | cons stage stages ih =>
      rw [List.foldlM_cons] at h
      obtain ⟨more, hmore, h⟩ := bind_ok_iff.mp h
      obtain ⟨out, hout, hmore⟩ := bind_ok_iff.mp hmore
      obtain rfl := Except.ok.inj hmore
      have hkeys := stageIds_recipes hbefore hout
      obtain ⟨rest, rfl, hlength, hkeyed, hall⟩ := ih
        (List.rel_append hbefore (List.Forall₂.cons hkeys List.Forall₂.nil)) h
      have hsize : out.length = stage.tasks.length := by
        rw [← hkeys.length_eq]
        exact List.length_map _
      refine ⟨out :: rest, by rw [List.append_assoc]; rfl, congrArg (· + 1) hlength, ?_, hall⟩
      exact ⟨map_task_tagged hsize, tagged_keys hkeys, hkeyed⟩

theorem map_stage_tagged {done : Completed} {stages : List (ObjectStage O)}
    {ids : List (List String)} (h : ids.length = stages.length) :
    (taggedStages done stages ids).map (·.stage) = stages := by
  induction stages generalizing ids with
  | nil => rfl
  | cons stage stages ih =>
      cases ids with
      | nil => cases h
      | cons out rest => exact congrArg (stage :: ·) (ih (Nat.succ.inj h))

theorem taggedStages_keyed (d₀ : Disk) {plan : ObjectStaged O V} {ids : List (List String)}
    (h : (AnyObjectPlan.staged plan).taskIds D P py args = .ok ids) :
    (taggedStages d₀.completed plan.stages ids).map (·.stage) = plan.stages ∧
      KeyedFrom D P plan.ir args d₀ [] (taggedStages d₀.completed plan.stages ids) := by
  obtain ⟨_, -, h⟩ := bind_ok_iff.mp h
  obtain ⟨rest, rfl, hlength, hkeyed, -⟩ := keyedFrom_tagged d₀ List.Forall₂.nil h
  exact ⟨map_stage_tagged hlength, hkeyed⟩

/-- The keys of a plan are those of its recipes. -/
theorem taskIds_recipes {plan : AnyObjectPlan O V} {ids : List (List String)}
    (h : plan.taskIds D P py args = .ok ids) :
    List.Forall₂ (List.Forall₂ fun r id => r.key D P = .ok id) (plan.recipes args) ids := by
  cases plan with
  | runtime plan =>
      unfold AnyObjectPlan.taskIds at h
      dsimp only at h
      split_ifs at h
      obtain ⟨_, -, h⟩ := bind_ok_iff.mp h
      obtain ⟨out, hout, h⟩ := bind_ok_iff.mp h
      obtain rfl := Except.ok.inj h
      refine List.Forall₂.cons ?_ List.Forall₂.nil
      have hkeys := chunkIds_recipes hout
      rw [List.forall₂_map_left_iff] at hkeys ⊢
      exact hkeys
  | durable plan =>
      obtain ⟨_, -, h⟩ := bind_ok_iff.mp h
      obtain ⟨out, hout, h⟩ := bind_ok_iff.mp h
      obtain rfl := Except.ok.inj h
      refine List.Forall₂.cons ?_ List.Forall₂.nil
      rw [List.forall₂_map_left_iff]
      exact chunkIds_recipes hout
  | staged plan =>
      obtain ⟨_, -, h⟩ := bind_ok_iff.mp h
      obtain ⟨rest, rfl, -, -, hall⟩ := keyedFrom_tagged Disk.empty List.Forall₂.nil h
      exact hall

theorem stagedRecipes_whole {ir : BlobData} {stages : List (ObjectStage O)}
    {before : List (List (Recipe O))} (hbefore : ∀ rs ∈ before, ∀ r ∈ rs, Recipe.Whole r)
    (hwhole : ∀ s ∈ stages, ∀ t ∈ s.tasks, t.partition.WholeStep) :
    ∀ rs ∈ stages.foldl (fun before stage =>
      before ++ [stageRecipes ir args.behaviors args.salt before stage]) before,
      ∀ r ∈ rs, Recipe.Whole r := by
  induction stages generalizing before with
  | nil => exact hbefore
  | cons s stages ih =>
      refine ih ?_ fun s' hs' => hwhole s' (List.mem_cons_of_mem _ hs')
      intro rs hrs
      rcases List.mem_append.mp hrs with hrs | hrs
      · exact hbefore rs hrs
      · obtain rfl := List.mem_singleton.mp hrs
        exact stageRecipes_whole hbefore (hwhole s List.mem_cons_self)

/-- The recipes of a whole plan are whole. -/
theorem recipes_whole {plan : AnyObjectPlan O V} (h : plan.Whole) :
    ∀ rs ∈ plan.recipes args, ∀ r ∈ rs, Recipe.Whole r := by
  cases plan with
  | runtime plan =>
      intro rs hrs r hr
      obtain rfl := List.mem_singleton.mp hrs
      obtain ⟨t, ht, rfl⟩ := List.mem_map.mp hr
      exact h t ht
  | durable plan =>
      intro rs hrs r hr
      obtain rfl := List.mem_singleton.mp hrs
      obtain ⟨p, hp, rfl⟩ := List.mem_map.mp hr
      exact h p hp
  | staged plan => exact stagedRecipes_whole (fun rs hrs => by cases hrs) h

/-- **Tasks that differ in anything their results depend on share no key.** -/
theorem keysApart : KeysApart D P py AnyObjectPlan.Whole := by
  have hpair : ∀ {call : ResumableCall O V} {ids : List (List String)}, call.plan.Whole →
      call.plan.taskIds D P py call.args = .ok ids →
      ∀ x ∈ (call.plan.recipes call.args).flatten.zip ids.flatten,
        x.1.Whole ∧ x.1.key D P = .ok x.2 := by
    intro call ids hwhole hids x hx
    have hkeys : List.Forall₂ (fun r id => r.key D P = .ok id)
        (call.plan.recipes call.args).flatten ids.flatten :=
      List.rel_flatten (taskIds_recipes hids)
    refine ⟨?_, List.forall₂_zip hkeys hx⟩
    obtain ⟨rs, hrs, hr⟩ := List.mem_flatten.mp (List.of_mem_zip hx).1
    exact recipes_whole hwhole rs hrs x.1 hr
  intro call call' ids ids' hwhole hwhole' hids hids' x hx y hy hsame
  obtain ⟨hxw, hxkey⟩ := hpair hwhole hids x hx
  obtain ⟨hyw, hykey⟩ := hpair hwhole' hids' y hy
  rw [← hsame] at hykey
  exact Recipe.key_inj hxw hyw hxkey hykey

/-- A tagged task of a plan of one stage has the key of its chunk. -/
theorem mem_taggedTasks {f : Task → Recipe O} {tasks : List Task} {ids : List (List String)}
    (h : List.Forall₂ (fun r id => r.key D P = .ok id) (tasks.map f) ids.flatten) {t : KeyedTask}
    (ht : t ∈ taggedTasks d₀.completed tasks ids) :
    t.task ∈ tasks ∧ (f t.task).key D P = .ok t.taskId ∧ FromJournal d₀ t := by
  unfold taggedTasks at ht
  generalize ids.flatten = out at h ht
  induction tasks generalizing out with
  | nil => cases ht
  | cons task tasks ih =>
      cases h with
      | cons hkey hrest =>
          rcases List.mem_cons.mp ht with rfl | ht
          · exact ⟨List.mem_cons_self, hkey, fromJournal_tagged _ _⟩
          · obtain ⟨hmem, hrest⟩ := ih _ hrest ht
            exact ⟨List.mem_cons_of_mem _ hmem, hrest⟩

end Keys

/-! ### What histories keep -/

/-- The environment's journal holds only its records. -/
def Disk.EnvironmentOnly (d : Disk) : Prop :=
  ∀ e ∈ (d.log environmentJournal).entries, e.stage = "environment"

/-- What a store that resumable plans leave satisfies. -/
structure LeftWell (D : Digest) (P : Pickling O) (py : Objects O V) (d : Disk) : Prop where
  truthful : Truthful (FromRecipe D P py) d
  sound : d.Sound D.hex
  environment : d.EnvironmentOnly

theorem journalName_worker (worker : Worker) : journalName worker.node ≠ environmentJournal := by
  intro h
  have hlist := congrArg String.toList h
  have hsplit : environmentJournal.toList =
      "journal.".toList ++ "environment".toList ++ ".log".toList := by decide
  rw [hsplit] at hlist
  simp only [journalName, Worker.node, String.toList_append] at hlist
  have hname := List.append_cancel_left (List.append_cancel_right hlist)
  have hdash : '-' ∈ "environment".toList := by
    rw [← hname]
    exact List.mem_append_left _ (List.mem_append_right _ (by decide))
  exact absurd hdash (by decide)

section Kept

variable {ω β : Type} {result : ω → Except Raised β} {d d' : Disk}

theorem Disk.EnvironmentOnly.setJournal (h : d.EnvironmentOnly) {name : String}
    {f : LogFile JournalEntry} (hf : name = environmentJournal →
      ∀ e ∈ f.entries, e.stage = "environment") : (d.setJournal name f).EnvironmentOnly := by
  intro e he
  rw [Disk.log_setJournal] at he
  split_ifs at he with hname
  · exact hf hname.symm e he
  · exact h e he

theorem LeftWell.of_same (h : LeftWell D P py d) (hentries : d'.log = d.log)
    (hnames : d'.entries = d.entries) (hobjects : d'.objects = d.objects) :
    LeftWell D P py d' where
  truthful := h.truthful.of_entries hnames
  sound digest data hdata := h.sound digest data (hobjects ▸ hdata)
  environment := by
    unfold Disk.EnvironmentOnly
    rw [hentries]
    exact h.environment

theorem LeftWell.of_get (h : LeftWell D P py d) (digest : String) :
    LeftWell D P py (d.get D.hex digest).2 := by
  refine h.of_same ?_ Disk.entries_get Disk.objects_get
  unfold Disk.get
  cases d.objects digest with
  | none => rfl
  | some data =>
      dsimp only
      split_ifs <;> rfl

theorem LeftWell.put (h : LeftWell D P py d) (data : BlobData) :
    LeftWell D P py (d.put D.hex data).2 where
  truthful := h.truthful.put data
  sound := h.sound.put data
  environment := by
    unfold Disk.EnvironmentOnly
    rw [Disk.log_put]
    exact h.environment

theorem LeftWell.setJournal (h : LeftWell D P py d) {name : String} {f : LogFile JournalEntry}
    {entry : JournalEntry} (hf : (d.log name).Cut entry f)
    (hentry : entry.stage ≠ "environment" → FromRecipe D P py entry.taskId entry.blob)
    (hname : name = environmentJournal → entry.stage = "environment") :
    LeftWell D P py (d.setJournal name f) where
  truthful := h.truthful.setJournal hf hentry
  sound := h.sound
  environment := by
    refine h.environment.setJournal ?_
    rintro rfl e he
    rcases hf.mem he with hold | rfl
    · exact h.environment e hold
    · exact hname rfl

variable {node : Option String} {q : StoreQuery ω}

theorem LeftWell.answers (h : LeftWell D P py d) (hnode : journalName node ≠ environmentJournal)
    {a : StoreAnswer ω β q} (hq : Licit (FromRecipe D P py) q ∧ ByWorker node q)
    (hanswer : storeAnswers D.hex result d q a d') : LeftWell D P py d' := by
  cases q with
  | completed =>
      obtain ⟨-, rfl⟩ := hanswer
      exact h
  | checkEnvironment mine =>
      rcases hanswer with ⟨bad, rfl⟩ | ⟨-, taskId, rfl⟩
      · exact h.of_same rfl rfl rfl
      · exact (h.put mine).setJournal LogFile.Cut.after (fun hne => absurd rfl hne) fun _ => rfl
  | get digest =>
      obtain ⟨-, rfl⟩ : a = (d.get D.hex digest).1 ∧ d' = (d.get D.hex digest).2 :=
        Prod.mk.inj hanswer
      exact h.of_get digest
  | put data =>
      obtain ⟨-, rfl⟩ : a = (d.put D.hex data).1 ∧ d' = (d.put D.hex data).2 :=
        Prod.mk.inj hanswer
      exact h.put data
  | recordDone n entry =>
      obtain rfl := hanswer
      obtain rfl : n = node := hq.2
      exact h.setJournal LogFile.Cut.after (fun _ => hq.1) fun heq => absurd heq hnode
  | recordDead letter => exact hq.2.elim
  | deadLetters =>
      obtain ⟨-, rfl⟩ := hanswer
      exact h
  | call work =>
      obtain ⟨-, rfl⟩ := hanswer
      exact h

theorem LeftWell.cut (h : LeftWell D P py d) (hnode : journalName node ≠ environmentJournal)
    (hq : Licit (FromRecipe D P py) q ∧ ByWorker node q) (hcut : storeCut D.hex d q d') :
    LeftWell D P py d' := by
  cases q with
  | checkEnvironment mine =>
      rcases hcut with ⟨bad, rfl⟩ | rfl | ⟨taskId, f, hf, rfl⟩
      · exact h.of_same rfl rfl rfl
      · exact h.put mine
      · exact (h.put mine).setJournal hf (fun hne => absurd rfl hne) fun _ => rfl
  | get digest =>
      rcases hcut with rfl | rfl
      · exact h
      · exact h.of_get digest
  | put data =>
      rcases hcut with rfl | rfl
      · exact h
      · exact h.put data
  | recordDone n entry =>
      obtain ⟨f, hf, rfl⟩ := hcut
      obtain rfl : n = node := hq.2
      exact h.setJournal hf (fun _ => hq.1) fun heq => absurd heq hnode
  | recordDead letter => exact hq.2.elim
  | _ =>
      obtain rfl := hcut
      exact h

theorem LeftWell.vanish (h : LeftWell D P py d) {m : Loss} (hlost : vanishing d m d') :
    LeftWell D P py d' := by
  obtain ⟨digest, rfl, rfl⟩ := hlost
  refine ⟨h.truthful.of_entries rfl, ?_, h.environment⟩
  intro name data hdata
  unfold Disk.setObject at hdata
  dsimp only at hdata
  split_ifs at hdata
  exact h.sound name data hdata

end Kept

/-! ### One call -/

section Calls

/-- A worker's store whose blobs are lost as `mv` says. -/
def workerSetting (D : Digest) (P : Pickling O) (py : Objects O V) (worker : Worker)
    (mv : Disk → Loss → Disk → Prop) (calm : Prop)
    (losses : ∀ d m d', mv d m d' → lost D.hex d m d')
    (still : calm → ∀ d m d', ¬ mv d m d') : Setting where
  D := D
  node := worker.node
  L := FromRecipe D P py
  mv := mv
  calm := calm
  losses := losses
  still := still

theorem lost_of_vanishing (d : Disk) (m : Loss) (d' : Disk) (h : vanishing d m d') :
    lost D.hex d m d' := by
  obtain ⟨digest, rfl, rfl⟩ := h
  rfl

/-- A plan of one stage: what its tasks are, with their recipes. -/
structure Chunked (D : Digest) (P : Pickling O) (args : ResumeArgs O) (plan : ObjectPlan O V)
    (ids : List (List String)) (ir : Option BlobData) : Prop where
  keys : List.Forall₂ (fun r id => r.key D P = .ok id) (plan.tasks.map fun t =>
    Recipe.chunk ir plan.process args.codec args.behaviors args.salt t.partition) ids.flatten
  whole : ∀ t ∈ plan.tasks, t.partition.WholeStep

theorem chunked_runtime {args : ResumeArgs O} {plan : ObjectPlan O V} {ids : List (List String)}
    (hids : (AnyObjectPlan.runtime plan).taskIds D P py args = .ok ids)
    (hwhole : (AnyObjectPlan.runtime plan).Whole) : Chunked D P args plan ids none := by
  have hkeys := List.rel_flatten (taskIds_recipes hids)
  rw [AnyObjectPlan.recipes, List.flatten_cons, List.flatten_nil, List.append_nil] at hkeys
  exact ⟨hkeys, hwhole⟩

theorem toPlan_partitions (plan : ObjectDurable O V) :
    plan.toPlan.tasks.map (·.partition) = plan.partitions := by
  apply List.ext_getElem
  · simp [ObjectDurable.toPlan]
  · intro i _ _
    simp [ObjectDurable.toPlan]

theorem chunked_durable {args : ResumeArgs O} {plan : ObjectDurable O V} {ids : List (List String)}
    (hids : (AnyObjectPlan.durable plan).taskIds D P py args = .ok ids)
    (hwhole : (AnyObjectPlan.durable plan).Whole) :
    Chunked D P args plan.toPlan ids (some plan.ir) := by
  have hkeys := List.rel_flatten (taskIds_recipes hids)
  rw [AnyObjectPlan.recipes, List.flatten_cons, List.flatten_nil, List.append_nil,
    ← toPlan_partitions, List.map_map] at hkeys
  refine ⟨hkeys, ?_⟩
  intro t ht
  refine hwhole t.partition ?_
  rw [← toPlan_partitions]
  exact List.mem_map_of_mem ht

variable {W : Setting} {args : ResumeArgs O} {ids : List (List String)} {d₀ : Disk}

theorem Chunked.tagged {plan : ObjectPlan O V} {ir : Option BlobData}
    (h : Chunked W.D P args plan ids ir) (hL : W.L = FromRecipe W.D P py)
    (hd₀ : Truthful W.L d₀) : ∀ t ∈ taggedTasks d₀.completed plan.tasks ids,
      Tagged W d₀ "" t (taskResult py args plan.process t)
        fun c => (py.codec args.codec).encode c.value := by
  intro t ht
  obtain ⟨hmem, hkey, hjournal⟩ := mem_taggedTasks h.keys ht
  have hwhole : (Recipe.chunk ir plan.process args.codec args.behaviors args.salt
      t.task.partition).Whole := h.whole t.task hmem
  exact tagged_of_recipe hL hd₀ hwhole hkey rfl hjournal fun _ => by decide

theorem checkAccepted_obeys {ω β : Type} {result : ω → Except Raised β} :
    Triple (driftWorld W.D.hex result W.mv) (fun _ q => Licit W.L q ∧ ByWorker W.node q)
      (Truthful W.L) (checkAccepted args : StoreScript ω β Unit) fun _ => Truthful W.L := by
  have hlasts : Lasts (driftWorld W.D.hex result W.mv) (Truthful W.L) :=
    fun d m d' hd hmove => hd.lost (W.losses d m d' hmove)
  refine triple_ask (S := fun _ => Truthful W.L) hlasts (fun _ _ => ⟨trivial, trivial⟩) ?_ ?_
  · intro d a d' hd hanswer
    have hstep : storeAnswers W.D.hex result d (.checkEnvironment args.environment) a d' := hanswer
    exact hd.answers (q := .checkEnvironment args.environment) trivial hstep
  · exact fun a => triple_ofExcept hlasts fun _ hd => hd

theorem completed_obeys {ω β α : Type} {result : ω → Except Raised β}
    {f : Completed → StoreScript ω β α}
    (hf : ∀ d₀, Truthful W.L d₀ → Triple (driftWorld W.D.hex result W.mv)
      (fun _ q => Licit W.L q ∧ ByWorker W.node q) (Truthful W.L) (f d₀.completed)
      fun _ => Truthful W.L) :
    Triple (driftWorld W.D.hex result W.mv) (fun _ q => Licit W.L q ∧ ByWorker W.node q)
      (Truthful W.L) (Prog.query StoreQuery.completed >>= f) fun _ => Truthful W.L := by
  refine triple_ask (S := fun done d => Truthful W.L d ∧
    ∃ d₀, Truthful W.L d₀ ∧ done = d₀.completed)
    (fun d m d' hd hmove => hd.lost (W.losses d m d' hmove)) (fun _ _ => ⟨trivial, trivial⟩) ?_ ?_
  · rintro d done d' hd ⟨rfl, rfl⟩
    exact ⟨hd, d', hd, rfl⟩
  · rintro done s ⟨hs, d₀, hd₀, rfl⟩
    exact hf d₀ hd₀ s hs

/-- A plan of one stage records only what its recipes give. -/
theorem tasks_obey {plan : ObjectPlan O V} {ir : Option BlobData}
    (h : Chunked W.D P args plan ids ir) (hL : W.L = FromRecipe W.D P py)
    (hnode : W.node = args.worker.node) (hcalm : ¬ W.calm) (hd₀ : Truthful W.L d₀) :
    Triple (driftWorld W.D.hex (taskResult py args plan.process) W.mv)
      (fun _ q => Licit W.L q ∧ ByWorker W.node q) (Truthful W.L)
      (runResumableTasks py args plan (taggedTasks d₀.completed plan.tasks ids))
      fun _ => Truthful W.L := by
  refine safe_runResumableTasks (fun d m d' hd hmove => hd.lost (W.losses d m d' hmove)) ?_
  intro t ht
  have hfiles : Files W (taskResult py args plan.process)
      (Filed W.D.hex W.node d₀ fun _ => False) _ (callResumable py args t) Served _ :=
    files_callResumable hnode (h.tagged hL hd₀ t ht)
  exact Triple.weaken hfiles (fun d hd => ⟨hd, fun hc => absurd hc hcalm⟩) fun _ _ ho => ho.2.1

/-- A plan of several stages records only what its recipes give. -/
theorem stages_obey {plan : ObjectStaged O V}
    (hids : (AnyObjectPlan.staged plan).taskIds W.D P py args = .ok ids)
    (hwhole : (AnyObjectPlan.staged plan).Whole) (hL : W.L = FromRecipe W.D P py)
    (hnode : W.node = args.worker.node) (hcalm : ¬ W.calm) (hd₀ : Truthful W.L d₀) :
    Triple (driftWorld W.D.hex (stageResult py args) W.mv)
      (fun _ q => Licit W.L q ∧ ByWorker W.node q) (Truthful W.L)
      (runResumableStages py args plan (taggedStages d₀.completed plan.stages ids))
      fun _ => Truthful W.L := by
  obtain ⟨hstages, hkeyed⟩ := taggedStages_keyed d₀ hids
  have hmirrors : Mirrors W (stageResult py args) (Filed W.D.hex W.node d₀ fun _ => False) _ _ _
      _ := mirrors_runResumableStages hL hd₀ hnode hstages hkeyed hwhole fun hc => absurd hc hcalm
  exact Triple.weaken hmirrors (fun d hd => ⟨hd, fun hc => absurd hc hcalm⟩) fun _ _ ho => ho.2.1

/-- What a call may record, it is allowed. -/
theorem job_obeys {call : ResumableCall O V} (hwhole : call.plan.Whole) :
    Triple (driftWorld D.hex (call.job D P py).result vanishing)
      (fun _ q => Licit (FromRecipe D P py) q ∧ ByWorker call.args.worker.node q)
      (Truthful (FromRecipe D P py)) (call.job D P py).script
      fun _ => Truthful (FromRecipe D P py) := by
  let W := workerSetting D P py call.args.worker vanishing False lost_of_vanishing False.elim
  obtain ⟨plan, args⟩ := call
  have hlasts : ∀ {ω β : Type} {result : ω → Except Raised β},
      Lasts (driftWorld D.hex result vanishing) (Truthful (FromRecipe D P py)) :=
    fun d m d' hd hmove => hd.lost (lost_of_vanishing (D := D) d m d' hmove)
  have hids : ∀ {ω β α : Type} {result : ω → Except Raised β}
      {x : Except Raised (List (List String))} {f : List (List String) → StoreScript ω β α},
      (∀ ids, x = .ok ids → Triple (driftWorld D.hex result vanishing)
        (fun _ q => Licit (FromRecipe D P py) q ∧ ByWorker args.worker.node q)
        (Truthful (FromRecipe D P py)) (f ids) fun _ => Truthful (FromRecipe D P py)) →
      Triple (driftWorld D.hex result vanishing)
        (fun _ q => Licit (FromRecipe D P py) q ∧ ByWorker args.worker.node q)
        (Truthful (FromRecipe D P py)) (Prog.ofExcept x >>= f)
        fun _ => Truthful (FromRecipe D P py) := by
    intro ω β α result x f hf
    cases x with
    | error e => exact triple_raise hlasts fun _ hd => hd
    | ok ids => exact hf ids rfl
  have htasks : ∀ (base : ObjectPlan O V) (ir : Option BlobData),
      (∀ ids, plan.taskIds D P py args = .ok ids → Chunked D P args base ids ir) →
      Triple (driftWorld D.hex (taskResult py args base.process) vanishing)
        (fun _ q => Licit (FromRecipe D P py) q ∧ ByWorker args.worker.node q)
        (Truthful (FromRecipe D P py)) (resumableTasks D P py args plan base)
        fun _ => Truthful (FromRecipe D P py) := by
    intro base ir hchunked
    refine hids fun ids hok => completed_obeys (W := W) fun d₀ hd₀ => ?_
    refine triple_bind (checkAccepted_obeys (W := W)) (fun _ => ?_) fun _ _ hd => hd
    exact tasks_obey (W := W) (hchunked ids hok) rfl rfl id hd₀
  cases plan with
  | runtime plan => exact htasks plan none fun ids hok => chunked_runtime hok hwhole
  | durable plan =>
      exact htasks plan.toPlan (some plan.ir) fun ids hok => chunked_durable hok hwhole
  | staged plan =>
      refine hids fun ids hok => completed_obeys (W := W) fun d₀ hd₀ => ?_
      refine triple_bind (checkAccepted_obeys (W := W)) (fun _ => ?_) fun _ _ hd => hd
      exact stages_obey (W := W) hok hwhole rfl rfl id hd₀

/-- **What histories leave**: every record is what its recipe gives, and no blob is false. -/
theorem leftWell_of_left {calls : List (ResumableCall O V)} {d : Disk}
    (hwhole : ∀ call ∈ calls, call.plan.Whole) (h : LeftByCalls D P py calls d) :
    LeftWell D P py d := by
  induction h with
  | fresh =>
      refine ⟨truthful_empty, ?_, ?_⟩
      · intro digest data hdata
        cases hdata
      · intro e he
        cases he
  | @run calls call d d' _ hstops ih =>
      have hd := ih fun c hc => hwhole c (List.mem_append_left _ hc)
      have hcall := hwhole call (List.mem_append_right _ (List.mem_singleton_self call))
      have hnode := journalName_worker call.args.worker
      refine (job_obeys hcall).stops (I := LeftWell D P py) ?_ ?_ ?_ hd.truthful hd hstops
      · exact fun d m d' hd hmove => hd.vanish hmove
      · exact fun d q a d' hd hq hanswer => hd.answers hnode hq hanswer
      · exact fun d q d' hd hq hcut => hd.cut hnode hq hcut
  | opened _ ih => exact (ih hwhole).of_same rfl rfl rfl
  | vanished _ hlost ih => exact (ih hwhole).vanish hlost

end Calls

end Graphed
