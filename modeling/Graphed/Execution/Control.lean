import Graphed.Library.Effects
import Graphed.Execution.Plan

/-!
# The run control and what a run asks

Other threads pause, resume and cancel a run; the runner looks at its control at the entry of a run,
before each task, and in its cleanup. A run asks its control, starts tasks, and tells its monitor.
-/

namespace Graphed

open Effects

inductive RunState where
  | running
  | paused
  | cancelled
deriving DecidableEq

namespace RunState

/-- The state moved to `target`, when it is `onlyFrom` or that is not asked. -/
def move (target : RunState) (onlyFrom : Option RunState) (s : RunState) : RunState :=
  if onlyFrom.all (· = s) then target else s

def pause : RunState → RunState := move .paused (some .running)

def resume : RunState → RunState := move .running (some .paused)

def cancel : RunState → RunState := move .cancelled none

def reset : RunState → RunState := move .running none

end RunState

inductive ControlCommand where
  | pause
  | resume
  | cancel
deriving DecidableEq

def RunState.apply (s : RunState) : ControlCommand → RunState
  | .pause => s.pause
  | .resume => s.resume
  | .cancel => s.cancel

/-! ### Task events -/

inductive TaskPhase where
  | submitted
  | started
  | finished
  | errored
deriving DecidableEq

structure TaskEvent where
  phase : TaskPhase
  key : Int
  worker : String
  partition : String
  nEntries : Int
  bytesRead : Option Int
  error : Option String
deriving DecidableEq

inductive Hook where
  | onRunStart (nTasks : Nat)
  | onRunEnd
deriving DecidableEq

/-! ### Queries -/

/-- Where a run reads the state of its control. -/
inductive Place where
  | entry
  | cleanup
deriving DecidableEq

/-- What a run asks: its control, the start of a task, its monitor. -/
inductive Query where
  | state (place : Place)
  | wait
  | reset
  | start (task : Task)
  | event (e : TaskEvent)
  | hook (h : Hook)

/-- What a query is answered. A monitor may raise. -/
def Answer : Query → Type
  | .state _ => RunState
  | .wait => RunState
  | .reset => Unit
  | .start _ => Unit
  | .event _ => Option Raised
  | .hook _ => Option Raised

instance (q : Query) : Inhabited (Answer q) where
  default :=
    match q with
    | .state _ => .running
    | .wait => .running
    | .reset => ()
    | .start _ => ()
    | .event _ => none
    | .hook _ => none

abbrev Script (α : Type) := Prog Query Answer Raised α

abbrev Record := List (Event Query Answer ControlCommand)

/-- The queries of a run with their answers. -/
abbrev Asked := (q : Query) × Answer q

/-- A run's world is the state of its control, which other threads move. `wait` answers once the
state is not paused. -/
def steering : World Query Answer ControlCommand RunState where
  answers
    | s, .state _, a, s' => a = s ∧ s' = s
    | s, .wait, a, s' => a = s ∧ s ≠ .paused ∧ s' = s
    | s, .reset, _, s' => s' = s.reset
    | s, .start _, _, s' => s' = s
    | s, .event _, _, s' => s' = s
    | s, .hook _, _, s' => s' = s
  moves s c s' := s' = s.apply c

theorem answers_state (s : RunState) (place : Place) : steering.answers s (.state place) s s :=
  ⟨rfl, rfl⟩

theorem answers_start (s : RunState) (task : Task) : steering.answers s (.start task) () s := rfl

theorem answers_event (s : RunState) (e : TaskEvent) (raised : Option Raised) :
    steering.answers s (.event e) raised s := rfl

theorem answers_hook (s : RunState) (h : Hook) (raised : Option Raised) :
    steering.answers s (.hook h) raised s := rfl

namespace Query

/-- The queries that look at the control. -/
def isLook : Query → Bool
  | state _ => true
  | wait => true
  | reset => true
  | _ => false

/-- The queries that tell the monitor. -/
def tellsMonitor : Query → Bool
  | event _ => true
  | hook _ => true
  | _ => false

end Query

/-- A check, at the entry or before a task, that saw a cancel. -/
def seesCancel : Asked → Bool
  | ⟨.state .entry, .cancelled⟩ => true
  | ⟨.wait, .cancelled⟩ => true
  | _ => false

/-- The task a query starts. -/
def startOf : Asked → Option Task
  | ⟨.start task, _⟩ => some task
  | _ => none

/-- The tasks a run started, in order. -/
def starts (l : List Asked) : List Task := l.filterMap startOf

def eventOf : Asked → Option TaskEvent
  | ⟨.event e, _⟩ => some e
  | _ => none

/-- The events a run emitted, in order. -/
def events (l : List Asked) : List TaskEvent := l.filterMap eventOf

/-- No task starts after a check has seen a cancel. -/
def ObeysCancel : List Asked → Prop
  | [] => True
  | x :: l => (seesCancel x = true → starts l = []) ∧ ObeysCancel l

/-- A line that looks at the control. -/
def isLookLine : Event Query Answer ControlCommand → Bool
  | .asked q _ => q.isLook
  | .moved _ => false

/-- A cancel that comes after the run's last look at its control. -/
def CancelsLate (t : Record) : Prop :=
  ∃ u v, t = u ++ .moved .cancel :: v ∧ v.any isLookLine = false

/-! ### What a record says of the control -/

@[simp]
theorem starts_append (l l' : List Asked) : starts (l ++ l') = starts l ++ starts l' :=
  List.filterMap_append

@[simp]
theorem events_append (l l' : List Asked) : events (l ++ l') = events l ++ events l' :=
  List.filterMap_append

theorem obeysCancel_append {l l' : List Asked} : ObeysCancel (l ++ l') ↔
    ObeysCancel l ∧ ObeysCancel l' ∧ (l.any seesCancel = true → starts l' = []) := by
  induction l with
  | nil => simp [ObeysCancel]
  | cons x l ih =>
      simp only [List.cons_append, ObeysCancel, ih, starts_append, List.append_eq_nil_iff,
        List.any_cons, Bool.or_eq_true]
      tauto

theorem RunState.apply_ne_cancelled {s : RunState} {c : ControlCommand} (hs : s ≠ .cancelled)
    (hc : c ≠ .cancel) : s.apply c ≠ .cancelled := by
  cases s <;> cases c <;> first | contradiction | decide

variable {α : Type} {p : Script α} {s s' : RunState} {t : Record} {o : Except Raised α}

/-- A run nobody cancels sees no cancel. -/
theorem not_seen_of_not_cancelled (h : Runs steering p s t o s') (hs : s ≠ .cancelled)
    (hmoves : Event.moved ControlCommand.cancel ∉ t) : (asked t).any seesCancel = false := by
  induction h with
  | ret => rfl
  | raise => rfl
  | @ask q a next s s' s'' t o hanswer _ ih =>
      simp only [List.mem_cons, reduceCtorEq, false_or] at hmoves
      have hnext : s' ≠ .cancelled ∧ seesCancel ⟨q, a⟩ = false := by
        cases q with
        | state place =>
            obtain ⟨rfl, rfl⟩ := hanswer
            refine ⟨hs, ?_⟩
            cases place <;> cases s' <;> first | contradiction | rfl
        | wait =>
            obtain ⟨rfl, -, rfl⟩ := hanswer
            refine ⟨hs, ?_⟩
            cases s' <;> first | contradiction | rfl
        | reset =>
            obtain rfl := hanswer
            exact ⟨by cases s <;> decide, rfl⟩
        | start task =>
            obtain rfl := hanswer
            exact ⟨hs, rfl⟩
        | event e =>
            obtain rfl := hanswer
            exact ⟨hs, rfl⟩
        | hook hk =>
            obtain rfl := hanswer
            exact ⟨hs, rfl⟩
      simp [asked, hnext.2, ih hnext.1 hmoves]
  | @move c p s s' s'' t o hmove _ ih =>
      simp only [List.mem_cons, not_or] at hmoves
      obtain rfl := hmove
      refine ih (RunState.apply_ne_cancelled hs ?_) hmoves.2
      rintro rfl
      exact hmoves.1 rfl

/-- Where a run does not look at its control, only a cancel leaves it cancelled. -/
theorem cancelled_iff_of_no_look (h : Runs steering p s t o s')
    (hlook : t.any isLookLine = false) :
    s' = .cancelled ↔ s = .cancelled ∨ Event.moved ControlCommand.cancel ∈ t := by
  induction h with
  | ret => simp
  | raise => simp
  | @ask q a next s s' s'' t o hanswer _ ih =>
      simp only [List.any_cons, isLookLine, Bool.or_eq_false_iff] at hlook
      have hsame : s' = s := by
        cases q with
        | state place => exact absurd hlook.1 (by simp [Query.isLook])
        | wait => exact absurd hlook.1 (by simp [Query.isLook])
        | reset => exact absurd hlook.1 (by simp [Query.isLook])
        | start task => exact hanswer
        | event e => exact hanswer
        | hook hk => exact hanswer
      rw [ih hlook.2, hsame]
      simp
  | @move c p s s' s'' t o hmove _ ih =>
      simp only [List.any_cons, isLookLine, Bool.false_or] at hlook
      obtain rfl := hmove
      rw [ih hlook, List.mem_cons]
      cases s <;> cases c <;> simp [RunState.apply, RunState.pause, RunState.resume,
        RunState.cancel, RunState.move]

theorem cancelsLate_of_no_look (hlook : t.any isLookLine = false) :
    CancelsLate t ↔ Event.moved ControlCommand.cancel ∈ t := by
  constructor
  · rintro ⟨u, v, rfl, -⟩
    simp
  · intro hmem
    obtain ⟨u, v, rfl⟩ := List.append_of_mem hmem
    simp only [List.any_append, List.any_cons, Bool.or_eq_false_iff] at hlook
    exact ⟨u, v, rfl, hlook.2.2⟩

theorem cancelsLate_append {u v : Record} : CancelsLate (u ++ v) ↔
    CancelsLate v ∨ CancelsLate u ∧ v.any isLookLine = false := by
  constructor
  · rintro ⟨x, y, heq, hy⟩
    rcases List.append_eq_append_iff.mp heq with ⟨w, rfl, hw⟩ | ⟨w, rfl, hw⟩
    · exact Or.inl ⟨w, y, hw, hy⟩
    · cases w with
      | nil => exact Or.inl ⟨[], y, by simpa using hw.symm, hy⟩
      | cons b w =>
          obtain ⟨rfl, rfl⟩ := List.cons.inj hw
          have hboth : (w ++ v).any isLookLine = false := hy
          rw [List.any_append, Bool.or_eq_false_iff] at hboth
          exact Or.inr ⟨⟨x, w, rfl, hboth.1⟩, hboth.2⟩
  · rintro (⟨x, y, rfl, hy⟩ | ⟨⟨x, y, rfl, hy⟩, hv⟩)
    · exact ⟨u ++ x, y, (List.append_assoc _ _ _).symm, hy⟩
    · refine ⟨x, y ++ v, by simp, ?_⟩
      rw [List.any_append, hy, hv, Bool.or_false]

theorem any_isLookLine : t.any isLookLine = (asked t).any fun x => x.1.isLook := by
  induction t with
  | nil => rfl
  | cons e t ih =>
      cases e with
      | asked q a => rw [List.any_cons, asked, List.any_cons, ih, isLookLine]
      | moved m => rw [List.any_cons, asked, ih, isLookLine, Bool.false_or]

/-- After a look that left it uncancelled, a control is cancelled by a late cancel only. -/
theorem cancelled_iff_after_look {t₁ t₂ : Record} {e : Event Query Answer ControlCommand}
    (he : isLookLine e = true) (hs : s ≠ .cancelled) (h : Moves steering s t₂ s') :
    (t₁ ++ e :: t₂).any isLookLine = true ∧
      (s' = .cancelled ↔ CancelsLate (t₁ ++ e :: t₂)) := by
  have hlook : t₂.any isLookLine = false := by rw [any_isLookLine, h.asked]; rfl
  have hrun : Runs steering (.ret () : Script Unit) s t₂ (.ok ()) s' := runs_ret.mpr ⟨rfl, h⟩
  refine ⟨by rw [List.any_append, List.any_cons, he]; simp, ?_⟩
  have hfirst : ¬ CancelsLate [e] := by
    rintro ⟨u, v, heq, -⟩
    have hmem : Event.moved ControlCommand.cancel ∈ [e] := heq ▸ by simp
    rw [List.mem_singleton] at hmem
    subst hmem
    cases he
  have hcons : e :: t₂ = [e] ++ t₂ := rfl
  rw [cancelled_iff_of_no_look hrun hlook, cancelsLate_append, hcons, cancelsLate_append,
    cancelsLate_of_no_look hlook]
  simp [hs, hfirst, he]

/-! ### Runs that end with their control settled -/

/-- The run ends cancelled only by a cancel after its last look. -/
def ControlSettled (s : RunState) (t : Record) (s' : RunState) : Prop :=
  s' = .cancelled ↔ CancelsLate t ∨ s = .cancelled ∧ t.any isLookLine = false

def SettlesControl (p : Script α) : Prop :=
  ∀ s t o s', Runs steering p s t o s' → ControlSettled s t s'

theorem ControlSettled.append {s₁ : RunState} {t' : Record} (h : ControlSettled s t s₁)
    (h' : ControlSettled s₁ t' s') : ControlSettled s (t ++ t') s' := by
  unfold ControlSettled at *
  rw [h', h, cancelsLate_append, List.any_append, Bool.or_eq_false_iff]
  tauto

theorem settles_of_no_look (hlook : ∀ l o, Trace p l o → l.any (fun x => x.1.isLook) = false) :
    SettlesControl p := by
  intro s t o s' h
  have hnone : t.any isLookLine = false := any_isLookLine.trans (hlook _ _ h.trace)
  unfold ControlSettled
  rw [cancelled_iff_of_no_look h hnone, cancelsLate_of_no_look hnone]
  tauto

theorem settles_ofExcept (x : Except Raised α) : SettlesControl (Prog.ofExcept x) := by
  apply settles_of_no_look
  intro l o h
  obtain ⟨rfl, -⟩ := trace_ofExcept.mp h
  rfl

theorem SettlesControl.bind {β : Type} {f : α → Script β} (hp : SettlesControl p)
    (hf : ∀ a, SettlesControl (f a)) : SettlesControl (p >>= f) := by
  intro s t o s' h
  rw [Prog.bind_def] at h
  rcases runs_bind.mp h with ⟨a, t₁, s₁, t₂, hfirst, hsecond, rfl⟩ | ⟨e, -, hfirst⟩
  · exact (hp _ _ _ _ hfirst).append (hf a _ _ _ _ hsecond)
  · exact hp _ _ _ _ hfirst

theorem SettlesControl.ensure {cleanup : Script Unit} (hp : SettlesControl p)
    (hclean : SettlesControl cleanup) : SettlesControl (p.ensure cleanup) := by
  intro s t o s' h
  obtain ⟨o₁, t₁, s₁, c, t₂, hbody, hrun, -, rfl⟩ := runs_ensure.mp h
  exact (hp _ _ _ _ hbody).append (hclean _ _ _ _ hrun)

/-- A cleanup that looks and then settles its control settles any body's. -/
theorem settles_ensure_of_looks {cleanup : Script Unit}
    (hclean : ∀ s t o s', Runs steering cleanup s t o s' →
      t.any isLookLine = true ∧ (s' = .cancelled ↔ CancelsLate t)) :
    SettlesControl (p.ensure cleanup) := by
  intro s t o s' h
  obtain ⟨o₁, t₁, s₁, c, t₂, -, hrun, -, rfl⟩ := runs_ensure.mp h
  obtain ⟨hlook, hiff⟩ := hclean _ _ _ _ hrun
  unfold ControlSettled
  rw [hiff, cancelsLate_append, List.any_append, hlook, Bool.or_true]
  simp

end Graphed
