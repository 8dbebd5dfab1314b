import Graphed.Execution.Control

/-!
# The sequential runner

It runs a plan's tasks in key order, looking at its control before each, and tells a monitor what it
does. Its cleanup clears a cancel.
-/

namespace Graphed

open Effects

structure Monitor where
  leanEvents : Bool

def leanEvents (monitor : Option Monitor) : Bool := monitor.any (·.leanEvents)

/-- What a monitor raises is swallowed, unless it ends the run. -/
def swallowed : Option Raised → Except Raised Unit
  | some e => if e.isException = true then .ok () else .error e
  | none => .ok ()

def onTask (e : TaskEvent) : Script (Option Raised) := Prog.query (Query.event e)

def onRun (h : Hook) : Script (Option Raised) := Prog.query (Query.hook h)

/-- Call the monitor, when there is one. -/
def suppress (monitor : Option Monitor) (call : Script (Option Raised)) : Script Unit :=
  match monitor with
  | none => pure ()
  | some _ => call >>= fun raised => Prog.ofExcept (swallowed raised)

def emitTask (monitor : Option Monitor) (e : TaskEvent) : Script Unit :=
  suppress monitor (onTask e)

def callMonitor (monitor : Option Monitor) (h : Hook) : Script Unit :=
  suppress monitor (onRun h)

def taskEvent (phase : TaskPhase) (task : Task) (error : Option String) (lean : Bool) :
    TaskEvent where
  phase := phase
  key := task.key
  worker := "seq"
  partition := if lean then "" else partitionLabel task.partition
  nEntries := task.partition.nEntries
  bytesRead := none
  error := error

def readState (place : Place) : Script RunState := Prog.query (Query.state place)

def waitWhilePaused : Script RunState := Prog.query Query.wait

def startTask (task : Task) : Script Unit := Prog.query (Query.start task)

def resetControl : Script Unit := Prog.query Query.reset

structure Runner where
  monitor : Option Monitor
  control : Bool

variable {V R : Type} [Partials V R]

/-- Why a partial holds no data. -/
def skippedError (part : V) : Option String := (Partials.failed part).head?.map (·.error)

/-- The last event of a task whose partial was merged. -/
def terminalEvent (lean : Bool) (task : Task) (part : V) : TaskEvent :=
  let why := skippedError part
  taskEvent (if why.any (· ≠ "") then .errored else .finished) task why lean

namespace Runner

def lean (r : Runner) : Bool := Graphed.leanEvents r.monitor

/-- Whether the entry check sees a cancel. -/
def cancelledAtEntry (r : Runner) : Script Bool :=
  if r.control then readState .entry >>= fun s => pure (s = .cancelled) else pure false

/-- Whether the check before a task sees a cancel. -/
def cancelledBefore (r : Runner) : Script Bool :=
  if r.control then waitWhilePaused >>= fun s => pure (s = .cancelled) else pure false

def submitAll (r : Runner) (tasks : List Task) : Script Unit :=
  tasks.forM fun task => emitTask r.monitor (taskEvent .submitted task none false)

def announce (r : Runner) (task : Task) : Script Unit :=
  if r.lean then pure () else emitTask r.monitor (taskEvent .started task none false)

/-- A task's partial; an exception is reported and raised again. -/
def processed (r : Runner) (plan : Plan V R) (task : Task) : Script V :=
  match plan.process task.partition with
  | .ok part => pure part
  | .error e =>
      if e.isException = true then
        emitTask r.monitor (taskEvent .errored task (some e.text) r.lean) >>= fun _ => .raise e
      else .raise e

/-- One turn of the loop: the value with the task's partial merged, none when a cancel is seen. -/
def turn (r : Runner) (plan : Plan V R) (value : V) (task : Task) : Script (Option V) :=
  r.cancelledBefore >>= fun cancelled =>
    if cancelled then pure none
    else do
      r.announce task
      startTask task
      let part ← r.processed plan task
      let merged ← Prog.ofExcept (plan.combine value part)
      emitTask r.monitor (terminalEvent r.lean task part)
      pure (some merged)

def loop (r : Runner) (plan : Plan V R) : List Task → V → Nat → Script (V × Nat × Option StopReason)
  | [], value, n => pure (value, n, none)
  | task :: rest, value, n => r.turn plan value task >>= fun
      | none => pure (value, n, some .cancelled)
      | some merged => r.loop plan rest merged (n + 1)

/-- A cancel ends this run only. -/
def cleanup (r : Runner) : Script Unit :=
  if r.control then
    readState .cleanup >>= fun s =>
      if s = .cancelled then resetControl else pure ()
  else pure ()

/-- What is run before the cleanup. -/
def tasksBody (r : Runner) (plan : Plan V R) : Script (ExecResult V) := do
  let value ← Prog.ofExcept plan.empty
  let cancelled ← r.cancelledAtEntry
  if cancelled then pure ⟨value, 0, 0, some .cancelled, []⟩
  else do
    r.submitAll plan.ordered
    let (value, n, stopped) ← r.loop plan plan.ordered value 0
    pure ⟨value, n, n - 1, stopped, []⟩

def runTasks (r : Runner) (plan : Plan V R) : Script (ExecResult V) :=
  (r.tasksBody plan).ensure r.cleanup

def observedRun {α : Type} (r : Runner) (nTasks : Nat) (body : Script α) : Script α :=
  callMonitor r.monitor (.onRunStart nTasks) >>= fun _ =>
    body.ensure (callMonitor r.monitor .onRunEnd)

def runPlan (r : Runner) (plan : Plan V R) : Script (ExecResult R) :=
  r.observedRun plan.tasks.length (r.runTasks plan) >>= fun result =>
    Prog.ofExcept (finalizeResult plan result)

def run (r : Runner) (plan : AnyPlan R) (skipFailed : Int) : Script (ExecResult R) := do
  Prog.ofExcept plan.base.bound
  let plan ← Prog.ofExcept (skipping plan skipFailed)
  match plan with
  | .plain base => r.runPlan base
  | .skip sp => r.runPlan sp.plan

end Runner

/-- The fold of `combine` over the partials of these tasks. -/
def Plan.foldFrom (plan : Plan V R) (value : V) (tasks : List Task) : Except Raised V :=
  tasks.foldlM (fun value task =>
    plan.process task.partition >>= fun part => plan.combine value part) value

/-- The value of these tasks, from `empty`. -/
def Plan.folded (plan : Plan V R) (tasks : List Task) : Except Raised V :=
  plan.empty >>= fun value => plan.foldFrom value tasks

/-! ### One query -/

/-- A monitor's answer that ends the run. -/
def interrupts : Asked → Bool
  | ⟨.event _, some e⟩ => !e.isException
  | ⟨.hook _, some e⟩ => !e.isException
  | _ => false

/-- These lines only tell the monitor these events. -/
structure Tells (l : List Asked) (es : List TaskEvent) : Prop where
  starts : starts l = []
  unseen : l.any seesCancel = false
  noLook : l.any (fun x => x.1.isLook) = false
  events : events l = es

def told (monitor : Option Monitor) (e : TaskEvent) : List TaskEvent :=
  if monitor.isSome then [e] else []

theorem tells_nil : Tells [] [] := ⟨rfl, rfl, rfl, rfl⟩

theorem Tells.append {l l' : List Asked} {es es' : List TaskEvent} (h : Tells l es)
    (h' : Tells l' es') : Tells (l ++ l') (es ++ es') where
  starts := by rw [starts_append, h.starts, h'.starts, List.append_nil]
  unseen := by rw [List.any_append, h.unseen, h'.unseen, Bool.or_false]
  noLook := by rw [List.any_append, h.noLook, h'.noLook, Bool.or_false]
  events := by rw [events_append, h.events, h'.events]

variable {l : List Asked}

theorem interrupts_of_swallowed {a : Option Raised} {x : Raised}
    (h : swallowed a = .error x) : ∃ e, a = some e ∧ e.isException = false := by
  cases a with
  | none => cases h
  | some e =>
      refine ⟨e, rfl, ?_⟩
      simp only [swallowed] at h
      split at h
      · cases h
      · rename_i hexc
        simpa using hexc

/-- A call of the monitor that is always answered, tells `es`, and shows when it ends the run. -/
structure Calls (call : Script (Option Raised)) (es : List TaskEvent) : Prop where
  answered : ∀ l o, Trace call l o → ∃ a, o = .ok a ∧ Tells l es ∧
    ∀ e, a = some e → e.isException = false → l.any interrupts = true

theorem calls_onTask (e : TaskEvent) : Calls (onTask e) [e] := by
  refine ⟨fun l o h => ?_⟩
  obtain ⟨a, rfl, rfl⟩ := trace_query.mp h
  refine ⟨a, rfl, ⟨rfl, rfl, rfl, rfl⟩, ?_⟩
  rintro x rfl hx
  simp [interrupts, hx]

theorem calls_onRun (hk : Hook) : Calls (onRun hk) [] := by
  refine ⟨fun l o h => ?_⟩
  obtain ⟨a, rfl, rfl⟩ := trace_query.mp h
  refine ⟨a, rfl, ⟨rfl, rfl, rfl, rfl⟩, ?_⟩
  rintro x rfl hx
  simp [interrupts, hx]

/-- Calling the monitor ends the run only by an interrupt. -/
theorem trace_suppress {monitor : Option Monitor} {call : Script (Option Raised)}
    {es : List TaskEvent} (hcall : Calls call es) {o : Except Raised Unit}
    (h : Trace (suppress monitor call) l o) : Tells l (if monitor.isSome then es else []) ∧
      (o = .ok () ∨ ∃ x, o = .error x ∧ l.any interrupts = true) := by
  cases monitor with
  | none =>
      obtain ⟨rfl, rfl⟩ := trace_ret.mp h
      exact ⟨tells_nil, Or.inl rfl⟩
  | some m =>
      rcases trace_bind.mp h with ⟨a, l₁, l₂, hasked, hrest, rfl⟩ | ⟨x, rfl, hasked⟩
      · obtain ⟨b, hb, htells, hends⟩ := hcall.answered l₁ _ hasked
        obtain rfl := Except.ok.inj hb
        obtain ⟨rfl, rfl⟩ := trace_ofExcept.mp hrest
        rw [List.append_nil]
        refine ⟨htells, ?_⟩
        cases hs : swallowed a with
        | ok u => exact Or.inl rfl
        | error x =>
            obtain ⟨e, he, hexc⟩ := interrupts_of_swallowed hs
            exact Or.inr ⟨x, rfl, hends e he hexc⟩
      · obtain ⟨b, hb, -⟩ := hcall.answered l _ hasked
        exact absurd hb (by simp)

theorem trace_emitTask {monitor : Option Monitor} {e : TaskEvent} {o : Except Raised Unit}
    (h : Trace (emitTask monitor e) l o) : Tells l (told monitor e) ∧
      (o = .ok () ∨ ∃ x, o = .error x ∧ l.any interrupts = true) :=
  trace_suppress (calls_onTask e) h

theorem trace_callMonitor {monitor : Option Monitor} {hk : Hook} {o : Except Raised Unit}
    (h : Trace (callMonitor monitor hk) l o) : Tells l [] ∧
      (o = .ok () ∨ ∃ x, o = .error x ∧ l.any interrupts = true) := by
  have hsup := trace_suppress (calls_onRun hk) h
  rwa [ite_self] at hsup

/-! ### One task -/

namespace Runner

def announced (r : Runner) (task : Task) : List TaskEvent :=
  if r.lean then [] else told r.monitor (taskEvent .started task none false)

variable {r : Runner} {plan : Plan V R} {value : V} {task : Task}

theorem trace_announce {o : Except Raised Unit} (h : Trace (r.announce task) l o) :
    Tells l (r.announced task) ∧ (o = .ok () ∨ ∃ x, o = .error x ∧ l.any interrupts = true) := by
  unfold announce at h
  unfold announced
  split at h
  · rename_i hlean
    obtain ⟨rfl, rfl⟩ := trace_ret.mp h
    rw [if_pos hlean]
    exact ⟨tells_nil, Or.inl rfl⟩
  · rename_i hlean
    rw [if_neg hlean]
    exact trace_emitTask h

theorem trace_cancelledBefore {o : Except Raised Bool} (h : Trace r.cancelledBefore l o) :
    ∃ b, o = .ok b ∧ starts l = [] ∧ events l = [] ∧ l.any seesCancel = b ∧ ObeysCancel l := by
  unfold cancelledBefore at h
  split at h
  · rcases trace_bind.mp h with ⟨s, l₁, l₂, hask, hrest, rfl⟩ | ⟨e, rfl, hask⟩
    · obtain ⟨a, rfl, ha⟩ := trace_query.mp hask
      obtain rfl := Except.ok.inj ha
      obtain ⟨rfl, rfl⟩ := trace_ret.mp hrest
      refine ⟨_, rfl, rfl, rfl, ?_, fun _ => rfl, trivial⟩
      cases s <;> rfl
    · obtain ⟨a, -, ha⟩ := trace_query.mp hask
      exact absurd ha (by simp)
  · obtain ⟨rfl, rfl⟩ := trace_ret.mp h
    exact ⟨false, rfl, rfl, rfl, rfl, trivial⟩

/-- What a turn of the loop can do: what it asks, and how it ends. -/
inductive Turned (r : Runner) (plan : Plan V R) (value : V) (task : Task) :
    List Asked → Except Raised (Option V) → Prop
  | held {l : List Asked} : l.any seesCancel = true → ObeysCancel l → starts l = [] →
      events l = [] → Turned r plan value task l (.ok none)
  | hushed {l : List Asked} {e : Raised} : l.any seesCancel = false →
      starts l = [] ∨ starts l = [task] → l.any interrupts = true →
      Turned r plan value task l (.error e)
  | failed {l : List Asked} {e : Raised} : l.any seesCancel = false → starts l = [task] →
      plan.process task.partition = .error e → e.isException = true →
      events l = r.announced task ++
        told r.monitor (taskEvent .errored task (some e.text) r.lean) →
      Turned r plan value task l (.error e)
  | died {l : List Asked} {e : Raised} : l.any seesCancel = false → starts l = [task] →
      plan.process task.partition = .error e → e.isException = false →
      Turned r plan value task l (.error e)
  | unmerged {l : List Asked} {part : V} {e : Raised} : l.any seesCancel = false →
      starts l = [task] → plan.process task.partition = .ok part →
      plan.combine value part = .error e → Turned r plan value task l (.error e)
  | merged {l : List Asked} {part merged : V} : l.any seesCancel = false → starts l = [task] →
      plan.process task.partition = .ok part → plan.combine value part = .ok merged →
      events l = r.announced task ++ told r.monitor (terminalEvent r.lean task part) →
      Turned r plan value task l (.ok (some merged))

theorem trace_startTask {o : Except Raised Unit} (h : Trace (startTask task) l o) :
    o = .ok () ∧ starts l = [task] ∧ events l = [] ∧ l.any seesCancel = false := by
  obtain ⟨a, rfl, rfl⟩ := trace_query.mp h
  exact ⟨rfl, rfl, rfl, rfl⟩

omit [Partials V R] in
theorem trace_processed {o : Except Raised V} (h : Trace (r.processed plan task) l o) :
    (∃ part, plan.process task.partition = .ok part ∧ l = [] ∧ o = .ok part) ∨
    (∃ e, plan.process task.partition = .error e ∧ e.isException = false ∧ l = [] ∧
      o = .error e) ∨
    ∃ e, plan.process task.partition = .error e ∧ e.isException = true ∧
      Tells l (told r.monitor (taskEvent .errored task (some e.text) r.lean)) ∧
      (o = .error e ∨ ∃ x, o = .error x ∧ l.any interrupts = true) := by
  unfold processed at h
  cases hp : plan.process task.partition with
  | ok part =>
      rw [hp] at h
      obtain ⟨rfl, rfl⟩ := trace_ret.mp h
      exact Or.inl ⟨part, rfl, rfl, rfl⟩
  | error e =>
      rw [hp] at h
      dsimp only at h
      split at h
      · rename_i hexc
        refine Or.inr (Or.inr ⟨e, rfl, hexc, ?_⟩)
        rcases trace_bind.mp h with ⟨u, l₁, l₂, htell, hraise, rfl⟩ | ⟨x, rfl, htell⟩
        · obtain ⟨rfl, rfl⟩ := trace_raise.mp hraise
          rw [List.append_nil]
          exact ⟨(trace_emitTask htell).1, Or.inl rfl⟩
        · obtain ⟨htells, hend⟩ := trace_emitTask htell
          obtain ⟨-, -, hint⟩ := hend.resolve_left (by simp)
          exact ⟨htells, Or.inr ⟨x, rfl, hint⟩⟩
      · rename_i hexc
        obtain ⟨rfl, rfl⟩ := trace_raise.mp h
        exact Or.inr (Or.inl ⟨e, rfl, by simpa using hexc, rfl, rfl⟩)

/-- A turn's first part: the check, the announcement and the start of the task. -/
theorem turned_of_started {l₀ l₁ l₂ l₃ : List Asked} {o : Except Raised (Option V)}
    (hcheck : l₀.any seesCancel = false) (hstarts : starts l₀ = []) (hevents : events l₀ = [])
    (hannounce : Tells l₁ (r.announced task)) (hone : starts l₂ = [task])
    (hnone : events l₂ = []) (hunseen : l₂.any seesCancel = false)
    (h : Trace (r.processed plan task >>= fun part =>
      Prog.ofExcept (plan.combine value part) >>= fun merged =>
        emitTask r.monitor (terminalEvent r.lean task part) >>= fun _ => pure (some merged))
      l₃ o) : Turned r plan value task (l₀ ++ (l₁ ++ (l₂ ++ l₃))) o := by
  have hstart : ∀ l, starts l = [] → starts (l₀ ++ (l₁ ++ (l₂ ++ l))) = [task] := by
    intro l hl
    simp [hstarts, hannounce.starts, hone, hl]
  have hsees : ∀ l : List Asked, l.any seesCancel = false →
      (l₀ ++ (l₁ ++ (l₂ ++ l))).any seesCancel = false := by
    intro l hl
    simp only [List.any_append, hcheck, hannounce.unseen, hunseen, hl, Bool.or_self]
  have hemits : ∀ l, events (l₀ ++ (l₁ ++ (l₂ ++ l))) = r.announced task ++ events l := by
    intro l
    simp [hevents, hannounce.events, hnone]
  have hends : ∀ l : List Asked, l.any interrupts = true →
      (l₀ ++ (l₁ ++ (l₂ ++ l))).any interrupts = true := by
    intro l hl
    simp only [List.any_append, hl, Bool.or_true]
  rcases trace_bind.mp h with ⟨part, m₁, m₂, hproc, hrest, rfl⟩ | ⟨e, rfl, hproc⟩
  · rcases trace_processed hproc with ⟨part', hp, rfl, ho⟩ | ⟨e, -, -, -, ho⟩ | ⟨e, -, -, -, ho⟩
    · obtain rfl := Except.ok.inj ho
      rw [List.nil_append]
      rcases trace_bind.mp hrest with ⟨merged, k₁, k₂, hcomb, hlast, rfl⟩ | ⟨e, rfl, hcomb⟩
      · obtain ⟨rfl, hm⟩ := trace_ofExcept.mp hcomb
        rw [List.nil_append]
        rcases trace_bind.mp hlast with ⟨u, j₁, j₂, htell, hret, rfl⟩ | ⟨e, rfl, htell⟩
        · obtain ⟨rfl, rfl⟩ := trace_ret.mp hret
          obtain ⟨htells, -⟩ := trace_emitTask htell
          rw [List.append_nil]
          exact Turned.merged (hsees _ htells.unseen) (hstart _ htells.starts) hp hm.symm
            (by rw [hemits, htells.events])
        · obtain ⟨htells, hend⟩ := trace_emitTask htell
          obtain ⟨x, -, hint⟩ := hend.resolve_left (by simp)
          exact Turned.hushed (hsees _ htells.unseen) (Or.inr (hstart _ htells.starts))
            (hends _ hint)
      · obtain ⟨rfl, he⟩ := trace_ofExcept.mp hcomb
        exact Turned.unmerged (hsees _ rfl) (hstart _ rfl) hp he.symm
    · exact absurd ho (by simp)
    · rcases ho with ho | ⟨x, ho, -⟩ <;> exact absurd ho (by simp)
  · rcases trace_processed hproc with ⟨part', hp, rfl, ho⟩ | ⟨e', hp, hexc, rfl, ho⟩ |
      ⟨e', hp, hexc, htells, ho⟩
    · exact absurd ho (by simp)
    · obtain rfl := Except.error.inj ho
      exact Turned.died (hsees _ rfl) (hstart _ rfl) hp hexc
    · rcases ho with ho | ⟨x, -, hint⟩
      · obtain rfl := Except.error.inj ho
        exact Turned.failed (hsees _ htells.unseen) (hstart _ htells.starts) hp hexc
          (by rw [hemits, htells.events])
      · exact Turned.hushed (hsees _ htells.unseen) (Or.inr (hstart _ htells.starts))
          (hends _ hint)

theorem trace_turn {o : Except Raised (Option V)} (h : Trace (r.turn plan value task) l o) :
    Turned r plan value task l o := by
  rcases trace_bind.mp h with ⟨b, l₀, m₀, hcheck, hrest, rfl⟩ | ⟨e, rfl, hcheck⟩
  · obtain ⟨b', hb, hstarts, hevents, hseen, hobeys⟩ := trace_cancelledBefore hcheck
    obtain rfl := Except.ok.inj hb
    cases b with
    | true =>
        rw [if_pos rfl] at hrest
        obtain ⟨rfl, rfl⟩ := trace_ret.mp hrest
        rw [List.append_nil]
        exact Turned.held hseen hobeys hstarts hevents
    | false =>
        rw [if_neg Bool.false_ne_true] at hrest
        rcases trace_bind.mp hrest with ⟨u, l₁, m₁, hannounce, hwork, rfl⟩ | ⟨e, rfl, hannounce⟩
        · obtain ⟨htells, -⟩ := trace_announce hannounce
          rcases trace_bind.mp hwork with ⟨u, l₂, m₂, hstart, hlast, rfl⟩ | ⟨e, rfl, hstart⟩
          · obtain ⟨-, hone, hnone, hunseen⟩ := trace_startTask hstart
            exact turned_of_started hseen hstarts hevents htells hone hnone hunseen hlast
          · exact absurd (trace_startTask hstart).1 (by simp)
        · obtain ⟨htells, hend⟩ := trace_announce hannounce
          obtain ⟨x, -, hint⟩ := hend.resolve_left (by simp)
          refine Turned.hushed ?_ (Or.inl ?_) ?_
          · rw [List.any_append, hseen, htells.unseen, Bool.or_false]
          · rw [starts_append, hstarts, htells.starts, List.append_nil]
          · rw [List.any_append, hint, Bool.or_true]
  · obtain ⟨b', hb, -⟩ := trace_cancelledBefore hcheck
    exact absurd hb (by simp)

/-! ### The loop -/

omit [Partials V R] in
theorem foldFrom_cons {part merged : V} {rest : List Task}
    (hp : plan.process task.partition = .ok part) (hm : plan.combine value part = .ok merged) :
    plan.foldFrom value (task :: rest) = plan.foldFrom merged rest := by
  unfold Plan.foldFrom
  rw [List.foldlM_cons, hp]
  change (plan.combine value part >>= _) = _
  rw [hm]
  rfl

/-- What a run of the loop over these tasks does. -/
structure LoopRan (plan : Plan V R) (tasks : List Task) (value : V) (n : Nat) (l : List Asked)
    (o : Except Raised (V × Nat × Option StopReason)) : Prop where
  obeys : ObeysCancel l
  started : ∃ m, starts l = tasks.take m
  returned : ∀ v k stopped, o = .ok (v, k, stopped) → ∃ m ≤ tasks.length, k = n + m ∧
    starts l = tasks.take m ∧ plan.foldFrom value (tasks.take m) = .ok v ∧
    ((stopped = some .cancelled ∧ m < tasks.length ∧ l.any seesCancel = true) ∨
      (stopped = none ∧ m = tasks.length ∧ l.any seesCancel = false))

theorem obeysCancel_of_unseen (hunseen : l.any seesCancel = false) : ObeysCancel l := by
  induction l with
  | nil => trivial
  | cons x l ih =>
      simp only [List.any_cons, Bool.or_eq_false_iff] at hunseen
      exact ⟨fun hx => absurd hx (by simp [hunseen.1]), ih hunseen.2⟩

omit [Partials V R] in
theorem LoopRan.of_error {tasks : List Task} {n : Nat} {e : Raised}
    (hunseen : l.any seesCancel = false) {m : Nat} (hstarts : starts l = tasks.take m) :
    LoopRan plan tasks value n l (.error e) where
  obeys := obeysCancel_of_unseen hunseen
  started := ⟨m, hstarts⟩
  returned v k stopped h := absurd h (by simp)

/-- The loop's run, by induction over the tasks still to start. -/
theorem trace_loop {tasks : List Task} {n : Nat}
    {o : Except Raised (V × Nat × Option StopReason)}
    (h : Trace (r.loop plan tasks value n) l o) : LoopRan plan tasks value n l o := by
  induction tasks generalizing value n l with
  | nil =>
      obtain ⟨rfl, rfl⟩ := trace_ret.mp h
      refine ⟨trivial, ⟨0, rfl⟩, ?_⟩
      intro v k stopped ho
      obtain ⟨rfl, rfl, rfl⟩ := by simpa using ho
      exact ⟨0, le_rfl, rfl, rfl, rfl, Or.inr ⟨rfl, rfl, rfl⟩⟩
  | cons task rest ih =>
      rcases trace_bind.mp h with ⟨a, l₁, l₂, hturn, hrest, rfl⟩ | ⟨e, rfl, hturn⟩
      · cases a with
        | none =>
            obtain ⟨rfl, rfl⟩ := trace_ret.mp hrest
            rw [List.append_nil]
            generalize ho : (Except.ok none : Except Raised (Option V)) = o at hturn
            cases trace_turn hturn with
            | held hseen hobeys hstarts =>
                refine ⟨hobeys, ⟨0, hstarts⟩, ?_⟩
                intro v k stopped heq
                obtain ⟨rfl, rfl, rfl⟩ := by simpa using heq
                exact ⟨0, Nat.zero_le _, rfl, hstarts, rfl, Or.inl ⟨rfl, Nat.zero_lt_succ _, hseen⟩⟩
            | _ => exact absurd ho (by simp)
        | some merged =>
            generalize ho : (Except.ok (some merged) : Except Raised (Option V)) = o' at hturn
            cases trace_turn hturn with
            | merged hunseen hstarts hp hm =>
                obtain rfl := Option.some.inj (Except.ok.inj ho)
                have hran := ih hrest
                refine ⟨?_, ?_, ?_⟩
                · refine obeysCancel_append.mpr ⟨obeysCancel_of_unseen hunseen, hran.obeys, ?_⟩
                  intro hseen
                  exact absurd hseen (by simp [hunseen])
                · obtain ⟨m, hm'⟩ := hran.started
                  exact ⟨m + 1, by rw [starts_append, hstarts, hm']; rfl⟩
                · intro v k stopped heq
                  obtain ⟨m, hle, rfl, hs, hfold, hend⟩ := hran.returned v k stopped heq
                  refine ⟨m + 1, Nat.succ_le_succ hle, by omega, ?_, ?_, ?_⟩
                  · rw [starts_append, hstarts, hs]
                    rfl
                  · rw [List.take_succ_cons, foldFrom_cons hp hm, hfold]
                  · rw [List.any_append, hunseen, Bool.false_or, List.length_cons]
                    rcases hend with ⟨hst, hlt, hseen⟩ | ⟨hst, heq', hseen⟩
                    · exact Or.inl ⟨hst, Nat.succ_lt_succ hlt, hseen⟩
                    · exact Or.inr ⟨hst, by rw [heq'], hseen⟩
            | _ => exact absurd ho (by simp)
      · generalize ho : (Except.error e : Except Raised (Option V)) = o' at hturn
        cases trace_turn hturn with
        | held => exact absurd ho (by simp)
        | merged => exact absurd ho (by simp)
        | hushed hunseen hstarts =>
            rcases hstarts with hs | hs
            · exact LoopRan.of_error hunseen (m := 0) hs
            · exact LoopRan.of_error hunseen (m := 1) hs
        | failed hunseen hs => exact LoopRan.of_error hunseen (m := 1) hs
        | died hunseen hs => exact LoopRan.of_error hunseen (m := 1) hs
        | unmerged hunseen hs => exact LoopRan.of_error hunseen (m := 1) hs

end Runner

end Graphed
