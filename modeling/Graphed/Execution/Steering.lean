import Graphed.Execution.Sequential

/-!
# A steered run

Other threads pause, resume and cancel a sequential run between any two of its steps. What it
returns is the fold over the tasks it started, in key order; a pause changes no value; and a cancel
is cleared by the run's cleanup, unless it comes after the cleanup's last look at the control.
-/

namespace Graphed

open Effects

variable {V R : Type} [Partials V R]

/-! ### What a run returns -/

/-- A cancel seen by the entry check. -/
def seesCancelAtEntry : Asked → Bool
  | ⟨.state .entry, .cancelled⟩ => true
  | _ => false

/-- The result of running a plan's tasks in key order, before `finalize`. -/
structure RanTasks (plan : Plan V R) (l : List Asked) (result : ExecResult V) : Prop where
  counted : result.nPartitions ≤ plan.ordered.length
  started : starts l = plan.ordered.take result.nPartitions
  value : plan.folded (plan.ordered.take result.nPartitions) = .ok result.value
  combines : result.nCombines = result.nPartitions - 1
  stopped : result.stopped = some .cancelled ↔ l.any seesCancelAtEntry = true ∨
    l.any seesCancel = true ∧ result.nPartitions < plan.ordered.length
  finished : result.stopped = some .cancelled ∨
    result.stopped = none ∧ result.nPartitions = plan.ordered.length

/-- The result of a run: that of its tasks, with the value in its final form. -/
def RanPlan (plan : Plan V R) (l : List Asked) (result : ExecResult R) : Prop :=
  ∃ before, RanTasks plan l before ∧ finalizeResult plan before = .ok result ∧
    result.nPartitions = before.nPartitions ∧ result.stopped = before.stopped

/-- What a run of the plan a runner makes of the given one returns. -/
def RanAny (ready : Except Raised (AnyPlan R)) (l : List Asked) (result : ExecResult R) : Prop :=
  match ready with
  | .ok (.plain base) => RanPlan base l result
  | .ok (.skip sp) => RanPlan sp.plan l result
  | .error _ => False

/-- What a run does, returning or raising. -/
structure Ran {α : Type} (tasks : List Task) (P : List Asked → α → Prop) (l : List Asked)
    (o : Except Raised α) : Prop where
  obeys : ObeysCancel l
  inOrder : ∃ m, starts l = tasks.take m
  returned : ∀ result, o = .ok result → P l result

/-- These lines start nothing and see no cancel. -/
structure Quiet (l : List Asked) : Prop where
  starts : starts l = []
  unseen : l.any seesCancel = false

theorem Tells.quiet {l : List Asked} {es : List TaskEvent} (h : Tells l es) : Quiet l :=
  ⟨h.starts, h.unseen⟩

theorem seesCancel_of_atEntry {x : Asked} (h : seesCancelAtEntry x = true) :
    seesCancel x = true := by
  unfold seesCancelAtEntry at h
  split at h
  · rfl
  · cases h

theorem unseenAtEntry {l : List Asked} (h : l.any seesCancel = false) :
    l.any seesCancelAtEntry = false := by
  by_contra hseen
  obtain ⟨x, hx, hsees⟩ := List.any_eq_true.mp (Bool.eq_true_of_not_eq_false hseen)
  have hany := List.any_eq_true.mpr ⟨x, hx, seesCancel_of_atEntry hsees⟩
  exact absurd hany (by simp [h])

theorem Quiet.unseenAtEntry {l : List Asked} (h : Quiet l) :
    l.any seesCancelAtEntry = false := Graphed.unseenAtEntry h.unseen

/-- A property of a record that quiet lines do not change. -/
structure Stable {α : Type} (P : List Asked → α → Prop) : Prop where
  left : ∀ l l' a, Quiet l → P l' a → P (l ++ l') a
  right : ∀ l l' a, Quiet l' → P l a → P (l ++ l') a

omit [Partials V R] in
theorem stable_ranTasks (plan : Plan V R) : Stable (RanTasks plan) := by
  constructor
  · intro l l' result hq h
    refine { h with started := ?_, stopped := ?_ }
    · rw [starts_append, hq.starts, List.nil_append, h.started]
    · rw [List.any_append, List.any_append, hq.unseen, hq.unseenAtEntry, Bool.false_or,
        Bool.false_or, h.stopped]
  · intro l l' result hq h
    refine { h with started := ?_, stopped := ?_ }
    · rw [starts_append, hq.starts, List.append_nil, h.started]
    · rw [List.any_append, List.any_append, hq.unseen, hq.unseenAtEntry, Bool.or_false,
        Bool.or_false, h.stopped]

theorem stable_ranPlan (plan : Plan V R) : Stable (RanPlan plan) := by
  constructor
  · rintro l l' result hq ⟨before, h, hrest⟩
    exact ⟨before, (stable_ranTasks plan).left l l' before hq h, hrest⟩
  · rintro l l' result hq ⟨before, h, hrest⟩
    exact ⟨before, (stable_ranTasks plan).right l l' before hq h, hrest⟩

theorem finalizeResult_counts {plan : Plan V R} {before : ExecResult V} {result : ExecResult R}
    (h : finalizeResult plan before = .ok result) :
    result.nPartitions = before.nPartitions ∧ result.stopped = before.stopped := by
  unfold finalizeResult at h
  split at h
  · obtain rfl := Except.ok.inj h
    exact ⟨rfl, rfl⟩
  · rename_i fn hfn
    dsimp only at h
    cases hv : fn (Partials.value before.value) with
    | ok v =>
        rw [hv] at h
        obtain rfl := Except.ok.inj h
        exact ⟨rfl, rfl⟩
    | error e =>
        rw [hv] at h
        cases h

theorem obeysCancel_of_no_start {l : List Asked} (h : starts l = []) : ObeysCancel l := by
  induction l with
  | nil => trivial
  | cons x l ih =>
      have htail : starts l = [] := by
        unfold starts at *
        rw [List.filterMap_cons] at h
        split at h
        · exact h
        · cases h
      exact ⟨fun _ => htail, ih htail⟩

section Ran

variable {α : Type} {P : List Asked → α → Prop} {tasks : List Task} {l l' : List Asked}
  {o : Except Raised α}

theorem Quiet.obeysCancel (h : Quiet l) : ObeysCancel l := Runner.obeysCancel_of_unseen h.unseen

theorem Ran.prepend (hP : Stable P) (hq : Quiet l) (h : Ran tasks P l' o) :
    Ran tasks P (l ++ l') o where
  obeys := obeysCancel_append.mpr
    ⟨hq.obeysCancel, h.obeys, fun hseen => absurd hseen (by simp [hq.unseen])⟩
  inOrder := by rw [starts_append, hq.starts, List.nil_append]; exact h.inOrder
  returned result ho := hP.left l l' result hq (h.returned result ho)

theorem Ran.extend (hP : Stable P) (hq : Quiet l') (h : Ran tasks P l o) :
    Ran tasks P (l ++ l') o where
  obeys := obeysCancel_append.mpr ⟨h.obeys, hq.obeysCancel, fun _ => hq.starts⟩
  inOrder := by rw [starts_append, hq.starts, List.append_nil]; exact h.inOrder
  returned result ho := hP.right l l' result hq (h.returned result ho)

/-- A run that ends elsewhere by raising. -/
theorem Ran.raised {β : Type} {Q : List Asked → β → Prop} {e : Raised} (h : Ran tasks P l o) :
    Ran tasks Q l (.error e) := ⟨h.obeys, h.inOrder, fun _ ho => absurd ho (by simp)⟩

theorem Quiet.ran (hq : Quiet l) {e : Raised} : Ran tasks P l (.error e) :=
  ⟨hq.obeysCancel, ⟨0, hq.starts⟩, fun _ ho => absurd ho (by simp)⟩

theorem Ran.ensure (hP : Stable P) {cleanup : Script Unit} {p : Script α}
    (hbody : ∀ l o, Trace p l o → Ran tasks P l o)
    (hclean : ∀ l o, Trace cleanup l o → Quiet l) (h : Trace (p.ensure cleanup) l o) :
    Ran tasks P l o := by
  obtain ⟨o₁, l₁, c, l₂, htrace, hlast, rfl, rfl⟩ := trace_ensure.mp h
  have hran := (hbody _ _ htrace).extend hP (hclean _ _ hlast)
  cases c with
  | ok u => exact hran
  | error e => exact hran.raised

end Ran

namespace Runner

variable {r : Runner} {plan : Plan V R} {l : List Asked}

theorem trace_cancelledAtEntry {o : Except Raised Bool} (h : Trace r.cancelledAtEntry l o) :
    ∃ b, o = .ok b ∧ starts l = [] ∧ events l = [] ∧ l.any seesCancelAtEntry = b ∧
      l.any seesCancel = b := by
  unfold cancelledAtEntry at h
  split at h
  · rcases trace_bind.mp h with ⟨s, l₁, l₂, hask, hrest, rfl⟩ | ⟨e, rfl, hask⟩
    · obtain ⟨a, rfl, ha⟩ := trace_query.mp hask
      obtain rfl := Except.ok.inj ha
      obtain ⟨rfl, rfl⟩ := trace_ret.mp hrest
      refine ⟨_, rfl, rfl, rfl, ?_, ?_⟩ <;> cases s <;> rfl
    · obtain ⟨a, -, ha⟩ := trace_query.mp hask
      exact absurd ha (by simp)
  · obtain ⟨rfl, rfl⟩ := trace_ret.mp h
    exact ⟨false, rfl, rfl, rfl, rfl, rfl⟩

theorem trace_cleanup {o : Except Raised Unit} (h : Trace r.cleanup l o) :
    Quiet l ∧ events l = [] := by
  unfold cleanup at h
  split at h
  · rcases trace_bind.mp h with ⟨s, l₁, l₂, hask, hrest, rfl⟩ | ⟨e, rfl, hask⟩
    · obtain ⟨a, rfl, -⟩ := trace_query.mp hask
      split at hrest
      · obtain ⟨b, rfl, -⟩ := trace_query.mp hrest
        exact ⟨⟨rfl, by cases a <;> rfl⟩, rfl⟩
      · obtain ⟨rfl, -⟩ := trace_ret.mp hrest
        exact ⟨⟨rfl, by cases a <;> rfl⟩, rfl⟩
    · obtain ⟨a, -, ha⟩ := trace_query.mp hask
      exact absurd ha (by simp)
  · obtain ⟨rfl, rfl⟩ := trace_ret.mp h
    exact ⟨⟨rfl, rfl⟩, rfl⟩

def submitted (r : Runner) (tasks : List Task) : List TaskEvent :=
  tasks.flatMap fun task => told r.monitor (taskEvent .submitted task none false)

theorem trace_submitAll {tasks : List Task} {o : Except Raised Unit}
    (h : Trace (r.submitAll tasks) l o) : (o = .ok () ∧ Tells l (r.submitted tasks)) ∨
    Quiet l ∧ ∃ e, o = .error e ∧ l.any interrupts = true := by
  induction tasks generalizing l with
  | nil =>
      obtain ⟨rfl, rfl⟩ := trace_ret.mp h
      exact Or.inl ⟨rfl, tells_nil⟩
  | cons task rest ih =>
      have hcons : Trace (emitTask r.monitor (taskEvent .submitted task none false) >>= fun _ =>
        r.submitAll rest) l o := h
      rcases trace_bind.mp hcons with ⟨u, l₁, l₂, htell, hrest, rfl⟩ | ⟨e, rfl, htell⟩
      · have htells := (trace_emitTask htell).1
        rcases ih hrest with ⟨ho, hall⟩ | ⟨hq, e, ho, hint⟩
        · exact Or.inl ⟨ho, htells.append hall⟩
        · refine Or.inr ⟨⟨?_, ?_⟩, e, ho, ?_⟩
          · rw [starts_append, htells.starts, hq.starts, List.append_nil]
          · rw [List.any_append, htells.unseen, hq.unseen, Bool.or_false]
          · rw [List.any_append, hint, Bool.or_true]
      · obtain ⟨htells, hend⟩ := trace_emitTask htell
        obtain ⟨-, -, hint⟩ := hend.resolve_left (by simp)
        exact Or.inr ⟨htells.quiet, e, rfl, hint⟩

omit [Partials V R] in
theorem folded_of_empty {value : V} (hempty : plan.empty = .ok value) (tasks : List Task) :
    plan.folded tasks = plan.foldFrom value tasks := by
  unfold Plan.folded
  rw [hempty]
  rfl

/-- The loop after the entry check and the submissions. -/
theorem ran_of_loop {value : V} (hempty : plan.empty = .ok value) {l₀ : List Asked}
    (hstarts : starts l₀ = []) (hunseen : l₀.any seesCancel = false)
    {o : Except Raised (ExecResult V)}
    (h : Trace (r.loop plan plan.ordered value 0 >>= fun x =>
      pure ⟨x.1, x.2.1, x.2.1 - 1, x.2.2, []⟩) l o) :
    Ran plan.ordered (RanTasks plan) (l₀ ++ l) o := by
  have hquiet : Quiet l₀ := ⟨hstarts, hunseen⟩
  apply Ran.prepend (stable_ranTasks plan) hquiet
  obtain ⟨o', hloop, rfl⟩ := trace_bind_pure.mp h
  have hran := trace_loop hloop
  refine ⟨hran.obeys, hran.started, ?_⟩
  intro result ho
  cases o' with
  | error e => cases ho
  | ok x =>
      obtain ⟨v, k, stopped⟩ := x
      obtain rfl := Except.ok.inj ho
      obtain ⟨m, hle, rfl, hs, hfold, hend⟩ := hran.returned v k stopped rfl
      rw [Nat.zero_add]
      refine ⟨hle, hs, (folded_of_empty hempty _).trans hfold, rfl, ?_, ?_⟩
      · rcases hend with ⟨rfl, hlt, hseen⟩ | ⟨rfl, rfl, hseen⟩
        · simp [hlt, hseen]
        · simp [hseen, unseenAtEntry hseen]
      · rcases hend with ⟨rfl, -, -⟩ | ⟨rfl, rfl, -⟩
        · exact Or.inl rfl
        · exact Or.inr ⟨rfl, rfl⟩

theorem trace_tasksBody {o : Except Raised (ExecResult V)}
    (h : Trace (r.tasksBody plan) l o) : Ran plan.ordered (RanTasks plan) l o := by
  rcases trace_bind.mp h with ⟨value, l₁, l₂, hvalue, hrest, rfl⟩ | ⟨e, rfl, hvalue⟩
  · obtain ⟨rfl, hempty⟩ := trace_ofExcept.mp hvalue
    rw [List.nil_append]
    rcases trace_bind.mp hrest with ⟨cancelled, l₃, l₄, hentry, hloop, rfl⟩ | ⟨e, rfl, hentry⟩
    · obtain ⟨b, hb, hstarts, -, hatEntry, hseen⟩ := trace_cancelledAtEntry hentry
      obtain rfl := Except.ok.inj hb
      cases cancelled with
      | true =>
          rw [if_pos rfl] at hloop
          obtain ⟨rfl, rfl⟩ := trace_ret.mp hloop
          rw [List.append_nil]
          refine ⟨obeysCancel_of_no_start hstarts, ⟨0, hstarts⟩, ?_⟩
          intro result ho
          obtain rfl := Except.ok.inj ho
          exact ⟨Nat.zero_le _, hstarts, folded_of_empty hempty.symm _, rfl,
            by simp [hatEntry], Or.inl rfl⟩
      | false =>
          rw [if_neg Bool.false_ne_true] at hloop
          rcases trace_bind.mp hloop with ⟨u, l₅, l₆, hsubmit, hlast, rfl⟩ | ⟨e, rfl, hsubmit⟩
          · rcases trace_submitAll hsubmit with ⟨-, htells⟩ | ⟨-, e, ho, -⟩
            · rw [← List.append_assoc]
              apply ran_of_loop hempty.symm _ _ hlast
              · rw [starts_append, hstarts, htells.starts, List.append_nil]
              · rw [List.any_append, hseen, htells.unseen, Bool.or_false]
            · exact absurd ho (by simp)
          · rcases trace_submitAll hsubmit with ⟨ho, -⟩ | ⟨hq, -⟩
            · exact absurd ho (by simp)
            · exact (hq.ran).prepend (stable_ranTasks plan) ⟨hstarts, hseen⟩
    · obtain ⟨b, hb, -⟩ := trace_cancelledAtEntry hentry
      exact absurd hb (by simp)
  · obtain ⟨rfl, -⟩ := trace_ofExcept.mp hvalue
    exact (Quiet.mk rfl rfl).ran

theorem trace_runPlan {o : Except Raised (ExecResult R)} (h : Trace (r.runPlan plan) l o) :
    Ran plan.ordered (RanPlan plan) l o := by
  have hobserved : ∀ l o, Trace (r.observedRun plan.tasks.length (r.runTasks plan)) l o →
      Ran plan.ordered (RanTasks plan) l o := by
    intro l o h
    rcases trace_bind.mp h with ⟨u, l₁, l₂, hstart, hrest, rfl⟩ | ⟨e, rfl, hstart⟩
    · apply Ran.prepend (stable_ranTasks plan) (trace_callMonitor hstart).1.quiet
      apply Ran.ensure (stable_ranTasks plan) _ (fun _ _ h => (trace_callMonitor h).1.quiet) hrest
      intro l o h
      exact Ran.ensure (stable_ranTasks plan) (fun _ _ => trace_tasksBody)
        (fun _ _ h => (trace_cleanup h).1) h
    · exact (trace_callMonitor hstart).1.quiet.ran
  rcases trace_bind.mp h with ⟨before, l₁, l₂, hrun, hfinal, rfl⟩ | ⟨e, rfl, hrun⟩
  · obtain ⟨rfl, rfl⟩ := trace_ofExcept.mp hfinal
    rw [List.append_nil]
    have hran := hobserved _ _ hrun
    refine ⟨hran.obeys, hran.inOrder, ?_⟩
    intro result hresult
    exact ⟨before, hran.returned before rfl, hresult, finalizeResult_counts hresult⟩
  · exact (hobserved _ _ hrun).raised

/-! ### The control after a run -/

/-- The cleanup looks, and clears a cancel it sees. -/
theorem runs_cleanup (hcontrol : r.control = true) {s s' : RunState} {t : Record}
    {o : Except Raised Unit} (h : Runs steering r.cleanup s t o s') :
    t.any isLookLine = true ∧ (s' = .cancelled ↔ CancelsLate t) := by
  unfold cleanup at h
  rw [if_pos hcontrol, Prog.bind_def] at h
  rcases runs_bind.mp h with ⟨a, t₁, s₁, t₂, hread, hrest, rfl⟩ | ⟨e, -, hread⟩
  · obtain ⟨u₁, r₁, b, r₂, u₂, -, ⟨rfl, rfl⟩, hmoves, hb, rfl⟩ := runs_query.mp hread
    obtain rfl := Except.ok.inj hb
    split at hrest
    · obtain ⟨u₃, r₃, -, r₄, u₄, -, rfl, hlast, -, rfl⟩ := runs_query.mp hrest
      rw [← List.append_assoc]
      exact cancelled_iff_after_look rfl (by cases r₃ <;> decide) hlast
    · rename_i hne
      obtain ⟨-, hlast⟩ := runs_ret.mp hrest
      rw [List.append_assoc]
      exact cancelled_iff_after_look rfl hne (hmoves.trans hlast)
  · obtain ⟨u₁, r₁, b, r₂, u₂, -, -, -, hb, -⟩ := runs_query.mp hread
    exact absurd hb (by simp)

theorem settles_runPlan (hcontrol : r.control = true) : SettlesControl (r.runPlan plan) := by
  have hhook : ∀ hk, SettlesControl (callMonitor r.monitor hk) := fun hk =>
    settles_of_no_look fun _ _ h => (trace_callMonitor h).1.noLook
  apply SettlesControl.bind _ fun _ => settles_ofExcept _
  apply (hhook _).bind
  intro _
  apply SettlesControl.ensure _ (hhook _)
  exact settles_ensure_of_looks fun _ _ _ _ => runs_cleanup hcontrol

theorem settles_run (hcontrol : r.control = true) (plan : AnyPlan R) (skipFailed : Int) :
    SettlesControl (r.run plan skipFailed) := by
  apply (settles_ofExcept _).bind
  intro _
  apply (settles_ofExcept _).bind
  intro ready
  cases ready with
  | plain base => exact settles_runPlan hcontrol
  | skip sp => exact settles_runPlan hcontrol

/-! ### Runs -/

theorem skipping_base {plan ready : AnyPlan R} {skipFailed : Int}
    (h : skipping plan skipFailed = .ok ready) : ready.base = plan.base := by
  unfold skipping at h
  split at h
  · exact Except.ok.inj h ▸ rfl
  · split at h
    · cases h
    · split at h
      · exact Except.ok.inj h ▸ rfl
      · split at h
        · exact Except.ok.inj h ▸ rfl
        · exact Except.ok.inj h ▸ rfl

theorem trace_run {plan : AnyPlan R} {skipFailed : Int} {o : Except Raised (ExecResult R)}
    (h : Trace (r.run plan skipFailed) l o) :
    Ran plan.base.ordered (RanAny (skipping plan skipFailed)) l o := by
  rcases trace_bind.mp h with ⟨u, l₁, l₂, hbound, hrest, rfl⟩ | ⟨e, rfl, hbound⟩
  · obtain ⟨rfl, -⟩ := trace_ofExcept.mp hbound
    rw [List.nil_append]
    rcases trace_bind.mp hrest with ⟨ready, l₃, l₄, hskip, hlast, rfl⟩ | ⟨e, rfl, hskip⟩
    · obtain ⟨rfl, hready⟩ := trace_ofExcept.mp hskip
      rw [List.nil_append, ← hready, ← skipping_base hready.symm]
      cases ready with
      | plain base => exact trace_runPlan hlast
      | skip sp => exact trace_runPlan hlast
    · obtain ⟨rfl, -⟩ := trace_ofExcept.mp hskip
      exact (Quiet.mk rfl rfl).ran
  · obtain ⟨rfl, -⟩ := trace_ofExcept.mp hbound
    exact (Quiet.mk rfl rfl).ran

end Runner

/-- Runs its tasks once each, in key order, whatever steers it, and leaves no cancel behind. -/
structure RunsOnce (r : Runner) (plan : AnyPlan R) (skipFailed : Int) (s : RunState) (t : Record)
    (o : Except Raised (ExecResult R)) (s' : RunState) : Prop where
  inOrder : ∃ m, starts (asked t) = plan.base.ordered.take m
  onceEach : (plan.base.tasks.map (·.key)).Nodup →
    (starts (asked t)).Pairwise fun a b => a.key < b.key
  obeys : ObeysCancel (asked t)
  returned : ∀ result, o = .ok result → RanAny (skipping plan skipFailed) (asked t) result
  pausedOnly : s ≠ .cancelled → Event.moved ControlCommand.cancel ∉ t → ∀ result, o = .ok result →
    result.stopped = none ∧ result.nPartitions = plan.base.tasks.length
  cleared : r.control = true → s = .running → s' ≠ .cancelled

omit [Partials V R] in
theorem ordered_ascending {plan : Plan V R} (hkeys : (plan.tasks.map (·.key)).Nodup) :
    plan.ordered.Pairwise fun a b => a.key < b.key := by
  have hsorted : plan.ordered.Pairwise fun a b => a.key ≤ b.key :=
    List.pairwise_insertionSort (fun a b : Task => a.key ≤ b.key) plan.tasks
  have hperm : plan.ordered.Perm plan.tasks := List.perm_insertionSort _ _
  have hnodup : (plan.ordered.map (·.key)).Nodup := (hperm.map _).nodup_iff.mpr hkeys
  have hne : plan.ordered.Pairwise fun a b => a.key ≠ b.key := List.pairwise_map.mp hnodup
  refine (hsorted.and hne).imp ?_
  intro a b h
  exact lt_of_le_of_ne h.1 h.2

omit [Partials V R] in
theorem RanTasks.unseen {plan : Plan V R} {l : List Asked} {before : ExecResult V}
    (h : RanTasks plan l before) (hunseen : l.any seesCancel = false) :
    before.stopped = none ∧ before.nPartitions = plan.tasks.length := by
  have hne : before.stopped ≠ some .cancelled := by
    intro hst
    rcases h.stopped.mp hst with hentry | ⟨hseen, -⟩
    · exact absurd hentry (by simp [unseenAtEntry hunseen])
    · exact absurd hseen (by simp [hunseen])
  obtain ⟨hst, hn⟩ := h.finished.resolve_left hne
  exact ⟨hst, hn.trans (List.length_insertionSort _ _)⟩

theorem RanAny.unseen {plan : AnyPlan R} {skipFailed : Int} {l : List Asked}
    {result : ExecResult R} (h : RanAny (skipping plan skipFailed) l result)
    (hunseen : l.any seesCancel = false) :
    result.stopped = none ∧ result.nPartitions = plan.base.tasks.length := by
  cases hready : skipping plan skipFailed with
  | error e =>
      rw [hready] at h
      exact h.elim
  | ok ready =>
      rw [hready] at h
      rw [← Runner.skipping_base hready]
      cases ready with
      | plain base =>
          obtain ⟨before, hran, -, hn, hst⟩ := h
          rw [hn, hst]
          exact hran.unseen hunseen
      | skip sp =>
          obtain ⟨before, hran, -, hn, hst⟩ := h
          rw [hn, hst]
          exact hran.unseen hunseen

/-- A plan of one task that counts it. -/
def countOne : Plan (Plain Nat) Nat where
  process _ := .ok ⟨1⟩
  combine a b := .ok ⟨a.value + b.value⟩
  empty := .ok ⟨0⟩
  tasks := [⟨0, ⟨"f.root", "Events", 0, 10, none, none, none⟩⟩]
  hasNextTasks := false
  stop := none
  bound := .ok ()
  finalize := none

def steeredRunner : Runner := ⟨none, true⟩

/-- The looks and the start of a run nobody steers, and then what comes after the cleanup. -/
def countOneRecord (late : Record) : Record :=
  .asked (.state .entry) RunState.running :: .asked .wait RunState.running ::
    .asked (.start ⟨0, ⟨"f.root", "Events", 0, 10, none, none, none⟩⟩) () ::
    .asked (.state .cleanup) RunState.running :: late

theorem runs_countOne {late : Record} {s : RunState} (h : Moves steering .running late s) :
    Runs steering (steeredRunner.run (.plain countOne) 0) .running (countOneRecord late)
      (.ok ⟨1, 1, 0, none, []⟩) s := by
  have hwait : steering.answers .running .wait RunState.running .running :=
    ⟨rfl, by decide, rfl⟩
  refine Runs.ask (answers_state _ .entry) ?_
  refine Runs.ask hwait ?_
  refine Runs.ask (answers_start _ _) ?_
  refine Runs.ask (answers_state _ .cleanup) ?_
  exact runs_ret.mpr ⟨rfl, h⟩

end Graphed
