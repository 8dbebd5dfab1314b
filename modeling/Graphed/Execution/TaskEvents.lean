import Graphed.Execution.Steering

/-!
# Task events

A sequential run submits its tasks, announces each it starts, and ends it once its partial is
merged. A task whose merge raises never gets its last event. A monitor changes no value.
-/

namespace Graphed

open Effects

variable {V R : Type} [Partials V R]

/-! ### The events of a run -/

namespace Runner

/-- The last event of a task whose merge does not raise. -/
def lastEvent (r : Runner) (plan : Plan V R) (task : Task) : TaskEvent :=
  match plan.process task.partition with
  | .ok part => terminalEvent r.lean task part
  | .error e => taskEvent .errored task (some e.text) r.lean

/-- The events of a task from its start. -/
def lifecycle (r : Runner) (plan : Plan V R) (task : Task) : List TaskEvent :=
  r.announced task ++ told r.monitor (r.lastEvent plan task)

end Runner

/-- No merge of a task in `tasks` raises, folding from `value`. -/
def Merges (plan : Plan V R) (value : V) (tasks : List Task) : Prop :=
  ∀ k v part task, tasks[k]? = some task → plan.foldFrom value (tasks.take k) = .ok v →
    plan.process task.partition = .ok part → ∃ merged, plan.combine v part = .ok merged

/-- A run in which only the processes of tasks raise, and the entry check sees no cancel. -/
structure Smooth (plan : Plan V R) (l : List Asked) : Prop where
  entry : l.any seesCancelAtEntry = false
  calm : l.any interrupts = false
  process : ∀ task ∈ plan.ordered, ∀ e, plan.process task.partition = .error e →
    e.isException = true
  merge : ∃ value, plan.empty = .ok value ∧ Merges plan value (starts l)

namespace Runner

variable {r : Runner} {plan : Plan V R} {l : List Asked}

omit [Partials V R] in
theorem Merges.tail {value part merged : V} {task : Task} {rest : List Task}
    (h : Merges plan value (task :: rest)) (hp : plan.process task.partition = .ok part)
    (hm : plan.combine value part = .ok merged) : Merges plan merged rest := by
  intro k v part' task' hk hfold hp'
  refine h (k + 1) v part' task' hk ?_ hp'
  rw [List.take_succ_cons, foldFrom_cons hp hm, hfold]

/-- A task that starts is ended before the next starts. -/
theorem trace_loop_events {tasks : List Task} {value : V} {n : Nat}
    {o : Except Raised (V × Nat × Option StopReason)}
    (h : Trace (r.loop plan tasks value n) l o) (hcalm : l.any interrupts = false)
    (hproc : ∀ task ∈ tasks, ∀ e, plan.process task.partition = .error e →
      e.isException = true)
    (hmerge : Merges plan value (starts l)) :
    events l = (starts l).flatMap (r.lifecycle plan) := by
  induction tasks generalizing value n l with
  | nil =>
      obtain ⟨rfl, -⟩ := trace_ret.mp h
      rfl
  | cons task rest ih =>
      rcases trace_bind.mp h with ⟨a, l₁, l₂, hturn, hrest, rfl⟩ | ⟨e, rfl, hturn⟩
      · cases a with
        | none =>
            obtain ⟨rfl, rfl⟩ := trace_ret.mp hrest
            generalize ho : (Except.ok none : Except Raised (Option V)) = o' at hturn
            cases trace_turn hturn with
            | held _ _ hstarts hevents =>
                rw [List.append_nil, hstarts, hevents]
                rfl
            | _ => exact absurd ho (by simp)
        | some merged =>
            generalize ho : (Except.ok (some merged) : Except Raised (Option V)) = o' at hturn
            cases trace_turn hturn with
            | merged _ hstarts hp hm hevents =>
                obtain rfl := Option.some.inj (Except.ok.inj ho)
                rw [List.any_append, Bool.or_eq_false_iff] at hcalm
                rw [starts_append, hstarts] at hmerge
                have htail := ih hrest hcalm.2
                  (fun t ht => hproc t (List.mem_cons_of_mem _ ht)) (Merges.tail hmerge hp hm)
                rw [events_append, starts_append, hstarts, hevents, htail, List.singleton_append,
                  List.flatMap_cons]
                unfold lifecycle lastEvent
                rw [hp]
            | _ => exact absurd ho (by simp)
      · generalize ho : (Except.error e : Except Raised (Option V)) = o' at hturn
        cases trace_turn hturn with
        | held => exact absurd ho (by simp)
        | merged => exact absurd ho (by simp)
        | hushed _ _ hint => exact absurd hint (by simp [hcalm])
        | failed _ hstarts hp _ hevents =>
            rw [hstarts, hevents, List.flatMap_singleton]
            unfold lifecycle lastEvent
            rw [hp]
        | died _ _ hp hexc =>
            exact absurd (hproc task List.mem_cons_self _ hp) (by simp [hexc])
        | unmerged _ hstarts hp he =>
            rw [hstarts] at hmerge
            obtain ⟨m, hm⟩ := hmerge 0 value _ task rfl rfl hp
            exact absurd (hm.symm.trans he) (by simp)

theorem trace_tasksBody_events {o : Except Raised (ExecResult V)}
    (h : Trace (r.tasksBody plan) l o) (hsmooth : Smooth plan l) :
    events l = r.submitted plan.ordered ++ (starts l).flatMap (r.lifecycle plan) := by
  obtain ⟨hentry, hcalm, hproc, value, hempty, hmerge⟩ := hsmooth
  rcases trace_bind.mp h with ⟨v, l₁, l₂, hvalue, hrest, rfl⟩ | ⟨e, rfl, hvalue⟩
  · obtain ⟨rfl, hv⟩ := trace_ofExcept.mp hvalue
    obtain rfl := Except.ok.inj (hv.trans hempty)
    rw [List.nil_append] at *
    rcases trace_bind.mp hrest with ⟨cancelled, l₃, l₄, hlook, hloop, rfl⟩ | ⟨e, rfl, hlook⟩
    · obtain ⟨b, hb, hstarts, hevents, hatEntry, -⟩ := trace_cancelledAtEntry hlook
      obtain rfl := Except.ok.inj hb
      rw [List.any_append, Bool.or_eq_false_iff, hatEntry] at hentry
      obtain rfl := hentry.1
      rw [if_neg Bool.false_ne_true] at hloop
      rw [List.any_append, Bool.or_eq_false_iff] at hcalm
      rcases trace_bind.mp hloop with ⟨u, l₅, l₆, hsubmit, hlast, rfl⟩ | ⟨e, rfl, hsubmit⟩
      · rw [List.any_append, Bool.or_eq_false_iff] at hcalm
        rcases trace_submitAll hsubmit with ⟨-, htells⟩ | ⟨-, e, ho, -⟩
        · obtain ⟨o', hran, -⟩ := trace_bind_pure.mp hlast
          simp only [starts_append, events_append, hstarts, htells.starts, hevents, htells.events,
            List.nil_append] at hmerge ⊢
          rw [trace_loop_events hran hcalm.2.2 hproc hmerge]
        · exact absurd ho (by simp)
      · rcases trace_submitAll hsubmit with ⟨ho, -⟩ | ⟨-, e', -, hint⟩
        · exact absurd ho (by simp)
        · exact absurd hint (by simp [hcalm.2])
    · obtain ⟨b, hb, -⟩ := trace_cancelledAtEntry hlook
      exact absurd hb (by simp)
  · obtain ⟨-, hv⟩ := trace_ofExcept.mp hvalue
    exact absurd (hv.trans hempty) (by simp)

omit [Partials V R] in
/-- Lines that start nothing, before and after a smooth run, leave it smooth. -/
theorem Smooth.middle (l₁ : List Asked) {l₂ l₃ : List Asked} (h : Smooth plan (l₁ ++ (l₂ ++ l₃)))
    (hfirst : starts l₁ = []) (hlast : starts l₃ = []) : Smooth plan l₂ := by
  obtain ⟨hentry, hcalm, hproc, value, hempty, hmerge⟩ := h
  simp only [List.any_append, Bool.or_eq_false_iff] at hentry hcalm
  refine ⟨hentry.2.1, hcalm.2.1, hproc, value, hempty, ?_⟩
  simpa only [starts_append, hfirst, hlast, List.nil_append, List.append_nil] using hmerge

theorem trace_runTasks_events {o : Except Raised (ExecResult V)}
    (h : Trace (r.runTasks plan) l o) (hsmooth : Smooth plan l) :
    events l = r.submitted plan.ordered ++ (starts l).flatMap (r.lifecycle plan) := by
  obtain ⟨o₁, l₁, c, l₂, hbody, hclean, -, rfl⟩ := trace_ensure.mp h
  obtain ⟨hq, hnone⟩ := trace_cleanup hclean
  have hmiddle := Smooth.middle [] hsmooth rfl hq.starts
  rw [events_append, starts_append, hq.starts, hnone, List.append_nil, List.append_nil]
  exact trace_tasksBody_events hbody hmiddle

/-- A smooth run submits every task and ends every task it starts. -/
theorem trace_runPlan_events {o : Except Raised (ExecResult R)}
    (h : Trace (r.runPlan plan) l o) (hsmooth : Smooth plan l) :
    events l = r.submitted plan.ordered ++ (starts l).flatMap (r.lifecycle plan) := by
  have hobserved : ∀ o, Trace (r.observedRun plan.tasks.length (r.runTasks plan)) l o →
      events l = r.submitted plan.ordered ++ (starts l).flatMap (r.lifecycle plan) := by
    intro o h
    rcases trace_bind.mp h with ⟨u, l₁, l₂, hstart, hrest, rfl⟩ | ⟨e, rfl, hstart⟩
    · have hfirst := (trace_callMonitor hstart).1
      obtain ⟨o₁, l₃, c, l₄, hbody, hend, -, rfl⟩ := trace_ensure.mp hrest
      have hlast := (trace_callMonitor hend).1
      have hmiddle := Smooth.middle _ hsmooth hfirst.starts hlast.starts
      simp only [events_append, starts_append, hfirst.starts, hfirst.events, hlast.starts,
        hlast.events, List.nil_append, List.append_nil]
      exact trace_runTasks_events hbody hmiddle
    · obtain ⟨-, -, hint⟩ := (trace_callMonitor hstart).2.resolve_left (by simp)
      exact absurd hint (by simp [hsmooth.calm])
  rcases trace_bind.mp h with ⟨before, l₁, l₂, hrun, hfinal, rfl⟩ | ⟨e, rfl, hrun⟩
  · obtain ⟨rfl, -⟩ := trace_ofExcept.mp hfinal
    rw [List.append_nil] at *
    exact hobserved _ hrun
  · exact hobserved _ hrun

end Runner

/-! ### The contract -/

/-- The phases of a task's events. -/
def phasesOf (key : Int) (es : List TaskEvent) : List TaskPhase :=
  (es.filter fun e => e.key = key).map (·.phase)

/-- Every task is submitted once; one that started is ended once, later, in error exactly when it
failed; one that did not start ends at its submission. -/
structure EventContract (lean : Bool) (tasks started : List Task) (fails : Task → Prop)
    (es : List TaskEvent) : Prop where
  submittedOnce : ∀ task ∈ tasks, (phasesOf task.key es).count .submitted = 1
  ended : ∀ task ∈ tasks, task ∈ started → ∃ phase,
    phasesOf task.key es = .submitted :: (if lean then [] else [.started]) ++ [phase] ∧
      (phase = .finished ∨ phase = .errored) ∧ (phase = .errored ↔ fails task)
  unstarted : ∀ task ∈ tasks, task ∉ started → phasesOf task.key es = [.submitted]

theorem phasesOf_append (key : Int) (es es' : List TaskEvent) :
    phasesOf key (es ++ es') = phasesOf key es ++ phasesOf key es' := by
  unfold phasesOf
  rw [List.filter_append, List.map_append]

theorem phasesOf_eq_nil {key : Int} {es : List TaskEvent} (h : ∀ e ∈ es, e.key ≠ key) :
    phasesOf key es = [] := by
  unfold phasesOf
  rw [List.map_eq_nil_iff, List.filter_eq_nil_iff]
  intro e he
  simpa using h e he

theorem phasesOf_own {key : Int} {es : List TaskEvent} (h : ∀ e ∈ es, e.key = key) :
    phasesOf key es = es.map (·.phase) := by
  unfold phasesOf
  rw [List.filter_eq_self.mpr]
  intro e he
  simpa using h e he

section Keyed

variable {tasks : List Task} {f : Task → List TaskEvent} {task : Task}

theorem phasesOf_flatMap_of_notMem (hown : ∀ t, ∀ e ∈ f t, e.key = t.key)
    (hmem : task.key ∉ tasks.map (·.key)) : phasesOf task.key (tasks.flatMap f) = [] := by
  apply phasesOf_eq_nil
  intro e he heq
  obtain ⟨t, ht, het⟩ := List.mem_flatMap.mp he
  apply hmem
  rw [← heq, hown t e het]
  exact List.mem_map_of_mem ht

/-- With distinct keys, the events of a task's key are those emitted for it. -/
theorem phasesOf_flatMap (hkeys : (tasks.map (·.key)).Nodup)
    (hown : ∀ t, ∀ e ∈ f t, e.key = t.key) (hmem : task ∈ tasks) :
    phasesOf task.key (tasks.flatMap f) = (f task).map (·.phase) := by
  induction tasks with
  | nil => cases hmem
  | cons t rest ih =>
      rw [List.map_cons, List.nodup_cons] at hkeys
      rw [List.flatMap_cons, phasesOf_append]
      rcases List.mem_cons.mp hmem with rfl | hrest
      · rw [phasesOf_own (hown task), phasesOf_flatMap_of_notMem hown hkeys.1, List.append_nil]
      · rw [ih hkeys.2 hrest, phasesOf_eq_nil, List.nil_append]
        intro e he heq
        apply hkeys.1
        rw [← hown t e he, heq]
        exact List.mem_map_of_mem hrest

end Keyed

namespace Runner

variable {r : Runner} {plan : Plan V R}

theorem key_lastEvent (task : Task) : (r.lastEvent plan task).key = task.key := by
  unfold lastEvent
  split <;> rfl

theorem key_lifecycle (task : Task) : ∀ e ∈ r.lifecycle plan task, e.key = task.key := by
  intro e he
  unfold lifecycle announced told at he
  rcases List.mem_append.mp he with hstart | hend
  · split at hstart
    · cases hstart
    · split at hstart
      · rw [List.mem_singleton.mp hstart]
        rfl
      · cases hstart
  · split at hend
    · rw [List.mem_singleton.mp hend]
      exact key_lastEvent task
    · cases hend

theorem phase_lastEvent (r : Runner) (plan : Plan V R) (task : Task) : (r.lastEvent plan task).phase = .finished ∨
    (r.lastEvent plan task).phase = .errored := by
  unfold lastEvent
  split
  · unfold terminalEvent
    dsimp only [taskEvent]
    split
    · exact Or.inr rfl
    · exact Or.inl rfl
  · exact Or.inr rfl

/-- The events of the submissions and of the tasks that started keep the contract. -/
theorem contract_of_events {m : Monitor} (hmonitor : r.monitor = some m) {tasks : List Task}
    (hkeys : (tasks.map (·.key)).Nodup) (k : Nat) {fails : Task → Prop}
    (hfails : ∀ task ∈ tasks, (r.lastEvent plan task).phase = .errored ↔ fails task) :
    EventContract r.lean tasks (tasks.take k) fails
      (r.submitted tasks ++ (tasks.take k).flatMap (r.lifecycle plan)) := by
  have hsub : ∀ task ∈ tasks, phasesOf task.key (r.submitted tasks) = [.submitted] := by
    intro task htask
    unfold submitted
    rw [phasesOf_flatMap hkeys _ htask, hmonitor]
    · rfl
    · intro t e he
      rw [hmonitor] at he
      rw [List.mem_singleton.mp he]
      rfl
  have htake : ((tasks.take k).map (·.key)).Nodup := by
    rw [List.map_take]
    exact hkeys.sublist (List.take_sublist _ _)
  have hlife : ∀ task ∈ tasks.take k, phasesOf task.key
      ((tasks.take k).flatMap (r.lifecycle plan)) =
        (if r.lean then [] else [.started]) ++ [(r.lastEvent plan task).phase] := by
    intro task htask
    rw [phasesOf_flatMap htake key_lifecycle htask]
    unfold lifecycle announced told
    rw [hmonitor]
    cases r.lean <;> rfl
  have hnone : ∀ task ∈ tasks, task ∉ tasks.take k → phasesOf task.key
      ((tasks.take k).flatMap (r.lifecycle plan)) = [] := by
    intro task htask hnot
    apply phasesOf_flatMap_of_notMem key_lifecycle
    intro hkey
    obtain ⟨t, ht, heq⟩ := List.mem_map.mp hkey
    obtain rfl := List.inj_on_of_nodup_map hkeys (List.mem_of_mem_take ht) htask heq
    exact hnot ht
  refine ⟨?_, ?_, ?_⟩
  · intro task htask
    rw [phasesOf_append, hsub task htask, List.count_append]
    by_cases hstarted : task ∈ tasks.take k
    · rw [hlife task hstarted]
      rcases phase_lastEvent r plan task with hp | hp <;>
        rw [hp] <;> cases r.lean <;> rfl
    · rw [hnone task htask hstarted]
      rfl
  · intro task htask hstarted
    refine ⟨_, ?_, phase_lastEvent r plan task, hfails task htask⟩
    rw [phasesOf_append, hsub task htask, hlife task hstarted]
    rfl
  · intro task htask hnot
    rw [phasesOf_append, hsub task htask, hnone task htask hnot, List.append_nil]

end Runner

/-! ### Which tasks fail -/

theorem Raised.text_ne_empty (e : Raised) : e.text ≠ "" := by
  intro h
  have hlist := congrArg String.toList h
  simp [Raised.text] at hlist

namespace AnyPlan

/-- The chunks lost with a worker, by label. -/
def lost : AnyPlan R → List (String × FailedChunk)
  | plain _ => []
  | skip sp => sp.lost

/-- The task's process raises, or its chunk is one of the lost. -/
def Fails (plan : AnyPlan R) (task : Task) : Prop :=
  (∃ e, plan.base.process task.partition = .error e) ∨
    chunkLabel task.partition ∈ plan.lost.map Prod.fst

end AnyPlan

theorem skipping_lost {plan ready : AnyPlan R} {skipFailed : Int}
    (h : skipping plan skipFailed = .ok ready) : ready.lost = plan.lost := by
  unfold skipping at h
  split at h
  · exact Except.ok.inj h ▸ rfl
  · split at h
    · cases h
    · split at h
      · exact Except.ok.inj h ▸ rfl
      · split at h
        · exact Except.ok.inj h ▸ rfl
        · exact Except.ok.inj h ▸ rfl

theorem lookup_of_mem {lost : List (String × FailedChunk)} {label : String}
    (h : label ∈ lost.map Prod.fst) :
    ∃ failed, lost.lookup label = some failed ∧ (label, failed) ∈ lost := by
  induction lost with
  | nil => cases h
  | cons entry rest ih =>
      obtain ⟨k, v⟩ := entry
      rw [List.lookup_cons]
      by_cases heq : label = k
      · subst heq
        exact ⟨v, by simp, List.mem_cons_self⟩
      · obtain ⟨failed, hlook, hmem⟩ := ih ((List.mem_cons.mp h).resolve_left heq)
        refine ⟨failed, ?_, List.mem_cons_of_mem _ hmem⟩
        rwa [beq_eq_false_iff_ne.mpr heq]

theorem lookup_of_notMem {lost : List (String × FailedChunk)} {label : String}
    (h : label ∉ lost.map Prod.fst) : lost.lookup label = none := by
  rw [List.lookup_eq_none_iff]
  intro entry hentry
  rw [bne_iff_ne]
  rintro rfl
  exact h (List.mem_map_of_mem hentry)

namespace Runner

variable {r : Runner}

theorem errored_of_error (plan : Plan V R) {task : Task} {e : Raised}
    (h : plan.process task.partition = .error e) :
    (r.lastEvent plan task).phase = .errored := by
  unfold lastEvent
  rw [h]
  rfl

theorem phase_of_ok (plan : Plan V R) {task : Task} {part : V}
    (h : plan.process task.partition = .ok part) : (r.lastEvent plan task).phase =
      if ((Partials.failed part).head?.map (·.error)).any (· ≠ "") then .errored
      else .finished := by
  unfold lastEvent
  rw [h]
  rfl

theorem errored_plain {base : Plan (Plain R) R} (task : Task) :
    (r.lastEvent base task).phase = .errored ↔ (AnyPlan.plain base).Fails task := by
  unfold AnyPlan.Fails
  cases hp : base.process task.partition with
  | ok part =>
      rw [phase_of_ok _ hp]
      simp [AnyPlan.base, AnyPlan.lost, hp, Partials.failed]
  | error e =>
      simp [errored_of_error _ hp, AnyPlan.base, hp]

theorem errored_missing {sp : SkipPlan R} {task : Task} {failed : FailedChunk}
    (hprocess : sp.process task.partition = sp.missing failed) (herror : failed.error ≠ "") :
    (r.lastEvent sp.plan task).phase = .errored := by
  cases hmissing : sp.missing failed with
  | error e => exact errored_of_error sp.plan (hprocess.trans hmissing)
  | ok part =>
      rw [phase_of_ok sp.plan (hprocess.trans hmissing)]
      have hpart : part.failed = [failed] := by
        unfold SkipPlan.missing at hmissing
        cases hempty : sp.base.empty with
        | error e => rw [hempty] at hmissing; cases hmissing
        | ok v =>
            rw [hempty] at hmissing
            obtain rfl := Except.ok.inj hmissing
            rfl
      simp [Partials.failed, hpart, herror]

theorem errored_skip {sp : SkipPlan R} (task : Task) :
    (r.lastEvent sp.plan task).phase = .errored ↔ (AnyPlan.skip sp).Fails task := by
  unfold AnyPlan.Fails
  by_cases hlost : chunkLabel task.partition ∈ sp.lost.map Prod.fst
  · obtain ⟨failed, hlook, hmem⟩ := lookup_of_mem hlost
    have hprocess : sp.process task.partition = sp.missing failed := by
      unfold SkipPlan.process
      rw [hlook]
    obtain ⟨p, e, hnamed⟩ := sp.named _ hmem
    have herror : failed.error ≠ "" := by
      rw [(Prod.mk.inj hnamed).2]
      exact e.text_ne_empty
    simp [errored_missing hprocess herror, AnyPlan.lost, hlost]
  · have hlook := lookup_of_notMem hlost
    cases hp : sp.base.process task.partition with
    | ok v =>
        have hprocess : sp.process task.partition = .ok ⟨v.value, []⟩ := by
          unfold SkipPlan.process
          rw [hlook, hp]
        rw [phase_of_ok sp.plan hprocess]
        simp [AnyPlan.base, AnyPlan.lost, hp, hlost, Partials.failed]
    | error e =>
        have herrored : (r.lastEvent sp.plan task).phase = .errored := by
          cases hexc : e.isException with
          | true =>
              have hmissing : sp.process task.partition = sp.missing
                  (failedChunk (chunkLabel task.partition) task.partition e) := by
                unfold SkipPlan.process
                rw [hlook, hp]
                simp [hexc]
              exact errored_missing hmissing e.text_ne_empty
          | false =>
              have hprocess : sp.process task.partition = .error e := by
                unfold SkipPlan.process
                rw [hlook, hp]
                simp [hexc]
              exact errored_of_error sp.plan hprocess
        simp [herrored, AnyPlan.base, hp]

end Runner

/-! ### What a monitor cannot change -/

/-- The record without what it tells the monitor. -/
def erase (l : List Asked) : List Asked := l.filter fun x => !x.1.tellsMonitor

/-- What the control answered. -/
def looks (l : List Asked) : List Asked := l.filter fun x => x.1.isLook

/-- Without its monitor, `p` does as `p'`, unless the monitor ends the run. -/
def Unmonitored {α : Type} (p p' : Script α) : Prop :=
  ∀ l a, Trace p l (.ok a) → Trace p' (erase l) (.ok a)

namespace Unmonitored

variable {α β : Type} {p p' : Script α}

theorem bind {f f' : α → Script β} (hp : Unmonitored p p') (hf : ∀ a, Unmonitored (f a) (f' a)) :
    Unmonitored (p >>= f) (p' >>= f') := by
  intro l b h
  rcases trace_bind.mp h with ⟨a, l₁, l₂, hfirst, hsecond, rfl⟩ | ⟨e, he, -⟩
  · refine trace_bind.mpr (Or.inl ⟨a, _, _, hp _ _ hfirst, hf a _ _ hsecond, ?_⟩)
    exact List.filter_append ..
  · exact absurd he (by simp)

theorem ensure {cleanup cleanup' : Script Unit} (hp : Unmonitored p p')
    (hclean : Unmonitored cleanup cleanup') :
    Unmonitored (p.ensure cleanup) (p'.ensure cleanup') := by
  intro l a h
  obtain ⟨o, l₁, c, l₂, hbody, hlast, ho, rfl⟩ := trace_ensure.mp h
  cases c with
  | error e => exact absurd ho (by simp [ended])
  | ok u =>
      obtain rfl : Except.ok a = o := ho
      refine trace_ensure.mpr ⟨_, _, _, _, hp _ _ hbody, hclean _ _ hlast, rfl, ?_⟩
      exact List.filter_append ..

theorem ofExcept (x : Except Raised α) : Unmonitored (Prog.ofExcept x) (Prog.ofExcept x) := by
  intro l a h
  obtain ⟨rfl, ha⟩ := trace_ofExcept.mp h
  exact trace_ofExcept.mpr ⟨rfl, ha⟩

theorem pure (a : α) : Unmonitored (Pure.pure a : Script α) (Pure.pure a) :=
  ofExcept (.ok a)

theorem raise (e : Raised) : Unmonitored (Prog.raise e : Script α) p' := by
  intro l a h
  exact absurd (trace_raise.mp h).2 (by simp)

theorem query {q : Query} (hq : q.tellsMonitor = false) :
    Unmonitored (Prog.query q) (Prog.query q) := by
  intro l a h
  obtain ⟨b, rfl, hb⟩ := trace_query.mp h
  refine trace_query.mpr ⟨b, ?_, hb⟩
  simp [erase, hq]

theorem suppress {monitor : Option Monitor} {call : Script (Option Raised)}
    (hcall : ∀ l a, Trace call l (.ok a) → erase l = []) :
    Unmonitored (Graphed.suppress monitor call) (Pure.pure ()) := by
  intro l u h
  cases monitor with
  | none =>
      obtain ⟨rfl, ho⟩ := trace_ret.mp h
      exact trace_ret.mpr ⟨rfl, ho⟩
  | some m =>
      rcases trace_bind.mp h with ⟨a, l₁, l₂, hasked, hrest, rfl⟩ | ⟨e, he, -⟩
      · obtain ⟨rfl, -⟩ := trace_ofExcept.mp hrest
        rw [List.append_nil, hcall _ _ hasked]
        exact Trace.ret
      · exact absurd he (by simp)

theorem emitTask (monitor : Option Monitor) (e : TaskEvent) :
    Unmonitored (Graphed.emitTask monitor e) (Pure.pure ()) := by
  apply suppress
  intro l a h
  obtain ⟨b, rfl, -⟩ := trace_query.mp h
  rfl

theorem callMonitor (monitor : Option Monitor) (hk : Hook) :
    Unmonitored (Graphed.callMonitor monitor hk) (Pure.pure ()) := by
  apply suppress
  intro l a h
  obtain ⟨b, rfl, -⟩ := trace_query.mp h
  rfl

end Unmonitored

namespace Runner

variable {plan : Plan V R}

/-- The runner without its monitor. -/
def bare (r : Runner) : Runner := { r with monitor := none }

theorem unmonitored_cancelledAtEntry (r : Runner) :
    Unmonitored r.cancelledAtEntry r.bare.cancelledAtEntry := by
  change Unmonitored r.cancelledAtEntry r.cancelledAtEntry
  unfold cancelledAtEntry
  split
  · exact (Unmonitored.query (q := .state .entry) rfl).bind fun _ => Unmonitored.pure _
  · exact Unmonitored.pure _

theorem unmonitored_cancelledBefore (r : Runner) :
    Unmonitored r.cancelledBefore r.bare.cancelledBefore := by
  change Unmonitored r.cancelledBefore r.cancelledBefore
  unfold cancelledBefore
  split
  · exact (Unmonitored.query (q := .wait) rfl).bind fun _ => Unmonitored.pure _
  · exact Unmonitored.pure _

theorem unmonitored_cleanup (r : Runner) : Unmonitored r.cleanup r.bare.cleanup := by
  change Unmonitored r.cleanup r.cleanup
  unfold cleanup
  split
  · apply (Unmonitored.query (q := .state .cleanup) rfl).bind
    intro s
    split
    · exact Unmonitored.query (q := .reset) rfl
    · exact Unmonitored.pure _
  · exact Unmonitored.pure _

theorem unmonitored_announce (r : Runner) (task : Task) :
    Unmonitored (r.announce task) (r.bare.announce task) := by
  change Unmonitored (r.announce task) (pure ())
  unfold announce
  split
  · exact Unmonitored.pure _
  · exact Unmonitored.emitTask _ _

theorem unmonitored_submitAll (r : Runner) (tasks : List Task) :
    Unmonitored (r.submitAll tasks) (r.bare.submitAll tasks) := by
  induction tasks with
  | nil => exact Unmonitored.pure _
  | cons task rest ih => exact (Unmonitored.emitTask _ _).bind fun _ => ih

omit [Partials V R] in
theorem unmonitored_processed (r : Runner) (task : Task) :
    Unmonitored (r.processed plan task) (r.bare.processed plan task) := by
  unfold processed
  cases plan.process task.partition with
  | ok part => exact Unmonitored.pure part
  | error e =>
      dsimp only
      split
      · exact (Unmonitored.emitTask _ _).bind fun _ => Unmonitored.raise e
      · exact Unmonitored.raise e

theorem unmonitored_turn (r : Runner) (value : V) (task : Task) :
    Unmonitored (r.turn plan value task) (r.bare.turn plan value task) := by
  apply (unmonitored_cancelledBefore r).bind
  intro cancelled
  cases cancelled with
  | true => exact Unmonitored.pure none
  | false =>
      apply (unmonitored_announce r task).bind
      intro _
      apply (Unmonitored.query (q := .start task) rfl).bind
      intro _
      apply (unmonitored_processed r task).bind
      intro part
      apply (Unmonitored.ofExcept _).bind
      intro merged
      exact (Unmonitored.emitTask _ _).bind fun _ => Unmonitored.pure _

theorem unmonitored_loop (r : Runner) (tasks : List Task) (value : V) (n : Nat) :
    Unmonitored (r.loop plan tasks value n) (r.bare.loop plan tasks value n) := by
  induction tasks generalizing value n with
  | nil => exact Unmonitored.pure _
  | cons task rest ih =>
      apply (unmonitored_turn r value task).bind
      intro merged
      cases merged with
      | none => exact Unmonitored.pure _
      | some merged => exact ih merged (n + 1)

theorem unmonitored_runTasks (r : Runner) :
    Unmonitored (r.runTasks plan) (r.bare.runTasks plan) := by
  apply Unmonitored.ensure _ (unmonitored_cleanup r)
  apply (Unmonitored.ofExcept _).bind
  intro value
  apply (unmonitored_cancelledAtEntry r).bind
  intro cancelled
  cases cancelled with
  | true => exact Unmonitored.pure _
  | false =>
      apply (unmonitored_submitAll r _).bind
      intro _
      exact (unmonitored_loop r _ value 0).bind fun _ => Unmonitored.pure _

theorem unmonitored_runPlan (r : Runner) :
    Unmonitored (r.runPlan plan) (r.bare.runPlan plan) := by
  apply Unmonitored.bind _ fun _ => Unmonitored.ofExcept _
  apply (Unmonitored.callMonitor _ _).bind
  intro _
  exact (unmonitored_runTasks r).ensure (Unmonitored.callMonitor _ _)

theorem unmonitored_run (r : Runner) (plan : AnyPlan R) (skipFailed : Int) :
    Unmonitored (r.run plan skipFailed) (r.bare.run plan skipFailed) := by
  apply (Unmonitored.ofExcept _).bind
  intro _
  apply (Unmonitored.ofExcept _).bind
  intro ready
  cases ready with
  | plain base => exact unmonitored_runPlan r
  | skip sp => exact unmonitored_runPlan r

/-- Two runs whose control answered the same return the same, whatever their monitors do. -/
theorem trace_run_unique {r r' : Runner} (hcontrol : r'.control = r.control) {plan : AnyPlan R}
    {skipFailed : Int} {l l' : List Asked} {result result' : ExecResult R}
    (h : Trace (r.run plan skipFailed) l (.ok result))
    (h' : Trace (r'.run plan skipFailed) l' (.ok result')) (hlooks : looks l = looks l') :
    result = result' := by
  have hbare : r'.bare = r.bare := by
    unfold bare
    rw [hcontrol]
  have hrun := unmonitored_run r plan skipFailed _ _ h
  have hrun' := unmonitored_run r' plan skipFailed _ _ h'
  rw [hbare] at hrun'
  have hfilter : ∀ l : List Asked,
      (erase l).filter (fun x => x.1.isLook || x.1.tellsMonitor) = looks l := by
    intro l
    unfold erase looks
    rw [List.filter_filter]
    apply List.filter_congr
    intro x _
    cases x.1 <;> rfl
  have hone : ∀ q : Query, (q.isLook || q.tellsMonitor) = false → Subsingleton (Answer q) := by
    intro q hq
    cases q with
    | start task => exact inferInstanceAs (Subsingleton Unit)
    | _ => cases hq
  have hsame := hrun.unique (fun q => q.isLook || q.tellsMonitor) hone hrun'
    ((hfilter l).trans (hlooks.trans (hfilter l').symm))
  exact Except.ok.inj hsame.2

end Runner

/-! ### Runs -/

/-- The run can do what its plan says: it is not refused or cancelled before its tasks are
submitted, no merge of a task raises, and nothing interrupts it. -/
def RunsSmoothly (plan : AnyPlan R) (skipFailed : Int) (l : List Asked) : Prop :=
  plan.base.bound = .ok () ∧ (plan.base.tasks.map (·.key)).Nodup ∧
    match skipping plan skipFailed with
    | .ok (.plain base) => Smooth base l
    | .ok (.skip sp) => Smooth sp.plan l
    | .error _ => False

theorem trace_run_contract {r : Runner} {m : Monitor} (hmonitor : r.monitor = some m)
    {plan : AnyPlan R} {skipFailed : Int} {l : List Asked} {o : Except Raised (ExecResult R)}
    (h : Trace (r.run plan skipFailed) l o) (hsmooth : RunsSmoothly plan skipFailed l) :
    EventContract r.lean plan.base.ordered (starts l) plan.Fails (events l) := by
  obtain ⟨k, hk⟩ := (Runner.trace_run h).inOrder
  obtain ⟨hbound, hnodup, hready⟩ := hsmooth
  have hkeys : (plan.base.ordered.map (·.key)).Nodup :=
    ((List.perm_insertionSort _ _).map _).nodup_iff.mpr hnodup
  rcases trace_bind.mp h with ⟨u, l₁, l₂, hbd, hrest, rfl⟩ | ⟨e, rfl, hbd⟩
  · obtain ⟨rfl, -⟩ := trace_ofExcept.mp hbd
    rcases trace_bind.mp hrest with ⟨ready, l₃, l₄, hskip, hlast, rfl⟩ | ⟨e, rfl, hskip⟩
    · obtain ⟨rfl, hr⟩ := trace_ofExcept.mp hskip
      rw [List.nil_append, List.nil_append] at *
      rw [← hr] at hready
      have hfails : ready.Fails = plan.Fails := by
        funext task
        unfold AnyPlan.Fails
        rw [Runner.skipping_base hr.symm, skipping_lost hr.symm]
      have hbase := Runner.skipping_base hr.symm
      cases ready with
      | plain base =>
          rw [Runner.trace_runPlan_events hlast hready, hk, ← hfails, ← hbase]
          rw [← hbase] at hkeys
          exact Runner.contract_of_events hmonitor hkeys k fun task _ => Runner.errored_plain task
      | skip sp =>
          rw [Runner.trace_runPlan_events hlast hready, hk, ← hfails, ← hbase]
          rw [← hbase] at hkeys
          exact Runner.contract_of_events hmonitor hkeys k fun task _ => Runner.errored_skip task
    · obtain ⟨rfl, hr⟩ := trace_ofExcept.mp hskip
      rw [← hr] at hready
      exact hready.elim
  · obtain ⟨-, hb⟩ := trace_ofExcept.mp hbd
    exact absurd (hb.trans hbound) (by simp)

/-- A monitor sees each task submitted once and, when it started, ended once; and it changes
nothing that is returned. -/
structure KeepsEvents (r : Runner) (plan : AnyPlan R) (skipFailed : Int) (l : List Asked)
    (o : Except Raised (ExecResult R)) : Prop where
  contract : EventContract r.lean plan.base.ordered (starts l) plan.Fails (events l)
  passive : ∀ r' : Runner, r'.control = r.control → ∀ s t o' s',
    Runs steering (r'.run plan skipFailed) s t o' s' → looks (asked t) = looks l →
      ∀ result result', o = .ok result → o' = .ok result' → result' = result

def watchedRunner : Runner := ⟨some ⟨false⟩, false⟩

def watchedTask : Task := ⟨0, ⟨"f.root", "Events", 0, 10, none, none, none⟩⟩

/-- What a watched runner asks of a plan of one task until its process returns. -/
def watchedStart (rest : Record) : Record :=
  .asked (.hook (.onRunStart 1)) (none : Option Raised) ::
    .asked (.event (taskEvent .submitted watchedTask none false)) (none : Option Raised) ::
    .asked (.event (taskEvent .started watchedTask none false)) (none : Option Raised) ::
    .asked (.start watchedTask) () :: rest

def watchedEnd : Record := [.asked (.hook .onRunEnd) (none : Option Raised)]

def watchedRecord : Record :=
  watchedStart (.asked (.event (taskEvent .finished watchedTask none false))
    (none : Option Raised) :: watchedEnd)

theorem runs_watched : Runs steering (watchedRunner.run (.plain countOne) 0) .running
    watchedRecord (.ok ⟨1, 1, 0, none, []⟩) .running := by
  refine Runs.ask (answers_hook _ _ _) (Runs.ask (answers_event _ _ _) ?_)
  refine Runs.ask (answers_event _ _ _) (Runs.ask (answers_start _ _) ?_)
  refine Runs.ask (answers_event _ _ _) (Runs.ask (answers_hook _ _ _) ?_)
  exact Runs.ret

/-- A plan of one task whose merge raises. -/
def badMerge : Plan (Plain Nat) Nat :=
  { countOne with combine := fun _ _ => .error (valueError "no merge") }

end Graphed
