import Graphed.Checkpoint.Mirror

/-!
# Resumable plans change only the work done

On a store left by runs of resumable plans, each cut off anywhere, a resumable plan returns what the
plain plan returns. It does no work whose result the journal names and the store still holds. Once
it has returned, a second run has only the work left that raises. No two tasks share a key that
differ in anything their results depend on.
-/

namespace Graphed

open Effects

/-! ### Programs that keep a property -/

section Safe

variable {ω β α γ δ κ : Type} {sha : BlobData → String} {result : ω → Except Raised β}
  {mv : Disk → Loss → Disk → Prop} {G : Disk → StoreQuery ω → Prop} {P : Disk → Prop}
  {p : StoreScript ω β α}

/-- The program asks only what `G` allows and keeps `P`, however it ends. -/
def Safe (sha : BlobData → String) (result : ω → Except Raised β)
    (mv : Disk → Loss → Disk → Prop) (G : Disk → StoreQuery ω → Prop) (P : Disk → Prop)
    (p : StoreScript ω β α) : Prop :=
  Triple (driftWorld sha result mv) G P p fun _ => P

/-- Losses and answers keep `P`, and only calls need more than `P` to be allowed. -/
structure Keeping (sha : BlobData → String) (result : ω → Except Raised β)
    (mv : Disk → Loss → Disk → Prop) (G : Disk → StoreQuery ω → Prop) (P : Disk → Prop) :
    Prop where
  losses : ∀ d m d', mv d m d' → lost sha d m d'
  lasts : Lasts (driftWorld sha result mv) P
  answers : ∀ d q a d', P d → storeAnswers sha result d q a d' → P d'
  allows : ∀ d q, P d → (∀ w, q ≠ .call w) → G d q

theorem safe_bind {f : α → StoreScript ω β γ} (hp : Safe sha result mv G P p)
    (hf : ∀ a, Safe sha result mv G P (f a)) : Safe sha result mv G P (p >>= f) :=
  triple_bind hp hf fun _ _ hd => hd

theorem safe_attempt (hp : Safe sha result mv G P p) : Safe sha result mv G P p.attempt :=
  triple_attempt hp

section Loops

variable (hlasts : Lasts (driftWorld sha result mv) P)
include hlasts

theorem safe_pure (a : α) : Safe sha result mv G P (pure a) :=
  triple_ret hlasts fun _ hd => hd

theorem safe_ofExcept (x : Except Raised α) : Safe sha result mv G P (Prog.ofExcept x) :=
  triple_ofExcept hlasts fun _ hd => hd

theorem safe_foldlM {f : δ → γ → StoreScript ω β δ} {xs : List γ}
    (hf : ∀ x ∈ xs, ∀ a, Safe sha result mv G P (f a x)) (a : δ) :
    Safe sha result mv G P (xs.foldlM f a) := by
  induction xs generalizing a with
  | nil => exact safe_pure hlasts a
  | cons x xs ih =>
      rw [List.foldlM_cons]
      exact safe_bind (hf x List.mem_cons_self a)
        fun b => ih (fun y hy => hf y (List.mem_cons_of_mem _ hy)) b

theorem safe_runTasksWith {W R : Type} [Partials W R] {plan : Plan W R}
    {call : KeyedTask → StoreScript ω β W} {tasks : List KeyedTask}
    (hcall : ∀ t ∈ tasks, Safe sha result mv G P (call t)) :
    Safe sha result mv G P (runTasksWith plan call tasks) := by
  refine safe_bind (safe_ofExcept hlasts _) fun value => ?_
  refine safe_bind (safe_foldlM hlasts ?_ value) fun value => safe_ofExcept hlasts _
  intro t ht value
  refine safe_bind (hcall t ?_) fun part => safe_ofExcept hlasts _
  exact (List.perm_insertionSort (fun a b : KeyedTask => a.task.key ≤ b.task.key)
    tasks).mem_iff.mp ht

theorem safe_runWith {R : Type} {plan : Plan (Plain R) R} {skipFailed : Int}
    {call : KeyedTask → StoreScript ω β (Plain R)} {tasks : List KeyedTask}
    (hcall : ∀ t ∈ tasks, Safe sha result mv G P (call t)) :
    Safe sha result mv G P (runWith plan skipFailed call tasks) := by
  refine safe_bind (safe_ofExcept hlasts _) fun _ => ?_
  refine safe_bind (safe_ofExcept hlasts _) fun skipped => ?_
  cases skipped with
  | plain base => exact safe_runTasksWith hlasts hcall
  | skip sp =>
      refine safe_runTasksWith hlasts fun t ht => ?_
      exact safe_bind (safe_attempt (hcall t ht)) fun outcome => safe_ofExcept hlasts _

end Loops

variable (hkeep : Keeping sha result mv G P)
include hkeep

theorem safe_ask {q : StoreQuery ω} (hq : ∀ w, q ≠ .call w)
    {f : StoreAnswer ω β q → StoreScript ω β α} (hf : ∀ a, Safe sha result mv G P (f a)) :
    Safe sha result mv G P (Prog.query q >>= f) :=
  triple_ask hkeep.lasts (fun d hd => hkeep.allows d q hd hq)
    (fun d a d' hd hanswer => hkeep.answers d q a d' hd hanswer) hf

/-- A task is run only when there is no blob to serve. -/
theorem safe_servedOrRun {node : Option String} {stage : String} {t : KeyedTask}
    {run : StoreScript ω β (BlobData × κ)}
    (hrun : Triple (driftWorld sha result mv) G
      (fun d => P d ∧ (t.blob = "" ∨ ¬ d.Intact sha t.blob)) run fun _ => P) :
    Safe sha result mv G P (servedOrRun node stage t run) := by
  have hfile : Triple (driftWorld sha result mv) G
      (fun d => P d ∧ (t.blob = "" ∨ ¬ d.Intact sha t.blob)) (do
        let out ← run
        let digest ← Prog.query (StoreQuery.put out.1)
        Prog.query (StoreQuery.recordDone node
          ⟨t.taskId, partitionTag t.task.partition, digest, stage, []⟩)
        pure (out.1, some out.2) : StoreScript ω β (BlobData × Option κ)) fun _ => P := by
    refine triple_bind hrun ?_ fun _ _ hd => hd
    intro out
    refine safe_ask hkeep (by simp) fun digest => ?_
    exact safe_ask hkeep (by simp) fun _ => safe_pure hkeep.lasts _
  unfold servedOrRun
  by_cases hblob : t.blob = ""
  · rw [if_pos hblob]
    exact Triple.weaken hfile (fun d hd => ⟨hd, Or.inl hblob⟩) fun _ _ ho => ho
  · rw [if_neg hblob]
    refine triple_ask (S := fun stored d => P d ∧ (stored = none → ¬ d.Intact sha t.blob))
      hkeep.lasts (fun d hd => hkeep.allows d _ hd (by simp)) ?_ ?_
    · intro d stored d' hd hanswer
      refine ⟨hkeep.answers d _ stored d' hd hanswer, ?_⟩
      obtain ⟨hstored, rfl⟩ : stored = (d.get sha t.blob).1 ∧ d' = (d.get sha t.blob).2 :=
        Prod.mk.inj hanswer
      intro hnone
      unfold Disk.Intact
      rw [Disk.objects_get]
      exact Disk.get_eq_none.mp (hstored.symm.trans hnone)
    · intro stored
      cases stored with
      | some data =>
          exact Triple.weaken (safe_pure hkeep.lasts _) (fun d hd => hd.1) fun _ _ ho => ho
      | none =>
          exact Triple.weaken hfile (fun d hd => ⟨hd.1, Or.inr (hd.2 rfl)⟩) fun _ _ ho => ho

/-- The work of a task that has no blob to serve. -/
theorem triple_work {t : KeyedTask} {w : ω} {f : Except Raised β → StoreScript ω β α}
    (hcall : ∀ d, P d → t.blob = "" ∨ ¬ d.Intact sha t.blob → G d (.call w))
    (hf : ∀ a, Safe sha result mv G P (f a)) :
    Triple (driftWorld sha result mv) G
      (fun d => P d ∧ (t.blob = "" ∨ ¬ d.Intact sha t.blob))
      (Prog.query (StoreQuery.call w) >>= f) fun _ => P := by
  refine triple_ask (S := fun _ => P) ?_ (fun d hd => hcall d hd.1 hd.2) ?_ hf
  · rintro d m d' ⟨hd, hunheld⟩ hmove
    refine ⟨hkeep.lasts d m d' hd hmove, hunheld.imp id ?_⟩
    exact fun hnot hintact => hnot (intact_of_lost (hkeep.losses d m d' hmove) hintact)
  · exact fun d a d' hd hanswer => hkeep.answers d _ a d' hd.1 hanswer

end Safe

section Bodies

variable {O V : Type} {sha : BlobData → String} {mv : Disk → Loss → Disk → Prop} {P : Disk → Prop}
  {py : Objects O V} {args : ResumeArgs O}

theorem safe_runResumableTasks {process : O} {plan : ObjectPlan O V} {tasks : List KeyedTask}
    {G : Disk → StoreQuery KeyedTask → Prop}
    (hlasts : Lasts (driftWorld sha (taskResult py args process) mv) P)
    (hcall : ∀ t ∈ tasks,
      Safe sha (taskResult py args process) mv G P (callResumable py args t)) :
    Safe sha (taskResult py args process) mv G P (runResumableTasks py args plan tasks) :=
  safe_runWith hlasts fun t ht => safe_bind (hcall t ht) fun _ => safe_pure hlasts _

theorem safe_callResumable {process : O} {t : KeyedTask} {G : Disk → StoreQuery KeyedTask → Prop}
    (hkeep : Keeping sha (taskResult py args process) mv G P)
    (hcall : ∀ d, P d → t.blob = "" ∨ ¬ d.Intact sha t.blob → G d (.call t)) :
    Safe sha (taskResult py args process) mv G P (callResumable py args t) := by
  refine safe_bind (safe_servedOrRun hkeep ?_) fun out => ?_
  · refine triple_work hkeep hcall fun outcome => ?_
    exact safe_bind (safe_ofExcept hkeep.lasts outcome) fun c => safe_pure hkeep.lasts _
  · exact safe_bind (safe_ofExcept hkeep.lasts _) fun value => safe_pure hkeep.lasts _

theorem safe_runResumableStages {plan : ObjectStaged O V} {stages : List (KeyedStage O)}
    {G : Disk → StoreQuery (StageWork O) → Prop} (hkeep : Keeping sha (stageResult py args) mv G P)
    (hcall : ∀ s ∈ stages, ∀ t ∈ s.tasks, ∀ inputs d, P d →
      t.blob = "" ∨ ¬ d.Intact sha t.blob → G d (.call ⟨s.stage.process, t, inputs⟩)) :
    Safe sha (stageResult py args) mv G P (runResumableStages py args plan stages) := by
  have hlasts := hkeep.lasts
  have hstage : ∀ s ∈ stages, ∀ payloads, Safe sha (stageResult py args) mv G P
      (runStageWith (callResumableStage args) payloads s) := by
    intro s hs payloads
    refine safe_bind (safe_ofExcept hlasts _) fun upstream => ?_
    refine safe_bind (safe_foldlM hlasts ?_ []) fun out => safe_pure hlasts _
    intro t ht out
    refine safe_bind ?_ fun data => safe_pure hlasts _
    refine safe_bind (safe_servedOrRun hkeep ?_) fun out => safe_pure hlasts _
    refine triple_work hkeep (hcall s hs t ht upstream) fun outcome => ?_
    exact safe_bind (safe_ofExcept hlasts outcome) fun data => safe_pure hlasts _
  refine safe_bind (safe_ofExcept hlasts _) fun _ => ?_
  split_ifs
  · exact safe_ofExcept hlasts (.error _)
  · exact safe_bind (safe_foldlM hlasts hstage []) fun payloads => safe_ofExcept hlasts _

end Bodies

end Graphed
