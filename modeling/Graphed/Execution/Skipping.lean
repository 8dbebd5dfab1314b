import Graphed.Execution.TaskEvents
import Mathlib.Algebra.BigOperators.Group.List.Basic
import Mathlib.Data.List.Dedup
import Mathlib.Data.List.Perm.Subperm

/-!
# Going on past failed chunks

A runner reduces the partials of a plan in any tree. Where a worker is lost it runs again, with the
chunk the worker held left out by its label; each rerun costs one from the budget. Labels are no
names: two chunks that share one are left out together.
-/

namespace Graphed

variable {R : Type}

/-! ### Reduction trees -/

/-- How a runner reduces the partials of tasks. -/
inductive Reduction where
  | empty
  | task (t : Task)
  | merge (left right : Reduction)

namespace Reduction

def leaves : Reduction → List Task
  | empty => []
  | task t => [t]
  | merge left right => left.leaves ++ right.leaves

def reduce {V : Type} (plan : Plan V R) : Reduction → Except Raised V
  | empty => plan.empty
  | task t => plan.process t.partition
  | merge left right => do
      let a ← left.reduce plan
      let b ← right.reduce plan
      plan.combine a b

end Reduction

/-! ### Reruns -/

/-- Record a lost chunk under its label. -/
def setLost (label : String) (failed : FailedChunk) :
    List (String × FailedChunk) → List (String × FailedChunk)
  | [] => [(label, failed)]
  | entry :: rest =>
      if entry.1 = label then (label, failed) :: rest else entry :: setLost label failed rest

theorem setLost_keys (label : String) (failed : FailedChunk) (lost : List (String × FailedChunk)) :
    (setLost label failed lost).map Prod.fst =
      if label ∈ lost.map Prod.fst then lost.map Prod.fst else lost.map Prod.fst ++ [label] := by
  induction lost with
  | nil => rfl
  | cons entry rest ih =>
      unfold setLost
      by_cases heq : entry.1 = label
      · rw [if_pos heq, if_pos (by simp [heq])]
        simp [heq]
      · rw [if_neg heq, List.map_cons, ih, List.map_cons]
        by_cases hmem : label ∈ rest.map Prod.fst
        · rw [if_pos hmem, if_pos (List.mem_cons_of_mem _ hmem)]
        · rw [if_neg hmem, if_neg, List.cons_append]
          rw [List.mem_cons, not_or]
          exact ⟨fun h => heq h.symm, hmem⟩

theorem mem_setLost {label : String} {failed : FailedChunk} {lost : List (String × FailedChunk)}
    {entry : String × FailedChunk} (h : entry ∈ setLost label failed lost) :
    entry = (label, failed) ∨ entry ∈ lost := by
  induction lost with
  | nil => exact Or.inl (List.mem_singleton.mp h)
  | cons first rest ih =>
      unfold setLost at h
      split at h
      · rcases List.mem_cons.mp h with rfl | hrest
        · exact Or.inl rfl
        · exact Or.inr (List.mem_cons_of_mem _ hrest)
      · rcases List.mem_cons.mp h with rfl | hrest
        · exact Or.inr List.mem_cons_self
        · exact (ih hrest).imp_right (List.mem_cons_of_mem _)

/-- The chunk of a plan with this label; of several, the last. -/
def partOf (tasks : List Task) (label : String) : Option Partition :=
  (tasks.reverse.find? fun t => chunkLabel t.partition = label).map (·.partition)

theorem partOf_label {tasks : List Task} {label : String} {p : Partition}
    (h : partOf tasks label = some p) : chunkLabel p = label := by
  obtain ⟨t, ht, rfl⟩ := Option.map_eq_some_iff.mp h
  simpa using List.find?_some ht

theorem partOf_isSome {tasks : List Task} {t : Task} (h : t ∈ tasks) :
    ∃ p, partOf tasks (chunkLabel t.partition) = some p := by
  have hsome : (tasks.reverse.find? fun u =>
      chunkLabel u.partition = chunkLabel t.partition).isSome := by
    rw [List.find?_isSome]
    exact ⟨t, List.mem_reverse.mpr h, by simp⟩
  obtain ⟨u, hu⟩ := Option.isSome_iff_exists.mp hsome
  exact ⟨u.partition, by unfold partOf; rw [hu]; rfl⟩

/-- What one more rerun leaves of the budget. -/
def SkipPlan.budgetWithout (sp : SkipPlan R) (label : String) : Int :=
  sp.budget - if label ∈ sp.lost.map Prod.fst then 1 else 0

def SkipPlan.lostWith (sp : SkipPlan R) (p : Partition) (err : Raised) :
    List (String × FailedChunk) :=
  setLost (chunkLabel p) (failedChunk (chunkLabel p) p err) sp.lost

/-- The plan for a rerun with the chunk left out that the lost worker held. -/
def SkipPlan.rerun (sp : SkipPlan R) (p : Partition) (err : Raised)
    (hwithin : (sp.lostWith p err).length ≤ sp.budgetWithout (chunkLabel p)) : SkipPlan R where
  base := sp.base
  budget := sp.budgetWithout (chunkLabel p)
  lost := sp.lostWith p err
  positive := by
    have hpos : 0 < (sp.lostWith p err).length := by
      rw [← List.length_map (f := Prod.fst), lostWith, setLost_keys]
      split
      · rename_i hmem
        exact List.length_pos_of_mem hmem
      · simp
    omega
  named := by
    intro entry hentry
    rcases mem_setLost hentry with rfl | hold
    · exact ⟨p, err, rfl⟩
    · exact sp.named entry hold
  distinct := by
    rw [lostWith, setLost_keys]
    split
    · exact sp.distinct
    · rename_i hmem
      exact List.Nodup.append sp.distinct (List.nodup_singleton _) (by simpa using hmem)
  within := hwithin

def withoutLost (plan : AnyPlan R) (err : Raised) : Except Raised (SkipPlan R) :=
  match plan with
  | .plain _ => .error err
  | .skip sp =>
      if sp.base.hasNextTasks = true then .error err
      else
        match partOf sp.base.tasks err.partition with
        | none => .error err
        | some p =>
            if hwithin : (sp.lostWith p err).length ≤ sp.budgetWithout (chunkLabel p) then
              .ok (sp.rerun p err hwithin)
            else .error (.tooManyFailedChunks (byLabel ((sp.lostWith p err).map Prod.snd)))

/-- The plan after these lost workers, each answered with a rerun. -/
def reruns (sp : SkipPlan R) (blames : List Raised) : Except Raised (SkipPlan R) :=
  blames.foldlM (fun sp err => withoutLost (.skip sp) err) sp

/-- How many runs happen: one, and one more for each blame answered with a rerun. -/
def runCount (sp : SkipPlan R) : List Raised → Nat
  | [] => 1
  | err :: rest =>
      match withoutLost (.skip sp) err with
      | .ok again => runCount again rest + 1
      | .error _ => 1

/-- What the last run's reduction returns. -/
def lastRun (sp : SkipPlan R) (blames : List Raised) (tree : Reduction) :
    Except Raised (Partial R) :=
  reruns sp blames >>= fun again => tree.reduce again.plan

/-- The reruns a budget still allows. -/
def SkipPlan.slack (sp : SkipPlan R) : Nat := (sp.budget - sp.lost.length).toNat

/-- A lost worker's error names a chunk of the plan. -/
def Blames (plan : Plan (Plain R) R) (blames : List Raised) : Prop :=
  ∀ err ∈ blames, ∃ t ∈ plan.tasks, err.partition = chunkLabel t.partition

section Reruns

variable {sp : SkipPlan R} {err : Raised}

/-- What answering one lost worker does: the chunk is recorded and a rerun is spent, or there is
none left. -/
theorem withoutLost_cases (hfixed : sp.base.hasNextTasks = false)
    (hplanned : ∃ t ∈ sp.base.tasks, err.partition = chunkLabel t.partition) :
    (∃ again, withoutLost (.skip sp) err = .ok again ∧ again.base = sp.base ∧
      sp.slack = again.slack + 1 ∧
      again.lost.map Prod.fst = (if err.partition ∈ sp.lost.map Prod.fst then
        sp.lost.map Prod.fst else sp.lost.map Prod.fst ++ [err.partition])) ∨
    sp.slack = 0 ∧ ∃ failed, withoutLost (.skip sp) err = .error (.tooManyFailedChunks failed) := by
  obtain ⟨t, ht, hlabel⟩ := hplanned
  obtain ⟨p, hp⟩ := partOf_isSome ht
  rw [← hlabel] at hp
  have hname := partOf_label hp
  have hkeys : (sp.lostWith p err).map Prod.fst = if err.partition ∈ sp.lost.map Prod.fst then
      sp.lost.map Prod.fst else sp.lost.map Prod.fst ++ [err.partition] := by
    rw [SkipPlan.lostWith, setLost_keys, hname]
  have hlength : (sp.lostWith p err).length = if err.partition ∈ sp.lost.map Prod.fst then
      sp.lost.length else sp.lost.length + 1 := by
    rw [← List.length_map (f := Prod.fst), hkeys]
    split <;> simp
  have hbudget : sp.budgetWithout (chunkLabel p) = if err.partition ∈ sp.lost.map Prod.fst then
      sp.budget - 1 else sp.budget := by
    unfold SkipPlan.budgetWithout
    rw [hname]
    split <;> omega
  have hspent : sp.budgetWithout (chunkLabel p) - (sp.lostWith p err).length =
      sp.budget - sp.lost.length - 1 := by
    rw [hbudget, hlength]
    split <;> push_cast <;> omega
  have hwithin := sp.within
  unfold withoutLost
  simp only [hfixed, hp, Bool.false_eq_true, ↓reduceIte]
  by_cases hle : (sp.lostWith p err).length ≤ sp.budgetWithout (chunkLabel p)
  · refine Or.inl ⟨sp.rerun p err hle, by rw [dif_pos hle], rfl, ?_, hkeys⟩
    change (sp.budget - sp.lost.length).toNat =
      (sp.budgetWithout (chunkLabel p) - (sp.lostWith p err).length).toNat + 1
    omega
  · refine Or.inr ⟨?_, _, by rw [dif_neg hle]⟩
    unfold SkipPlan.slack
    omega

/-- Each blame spends one rerun, and once none is left the next ends the run. -/
theorem reruns_cases (hfixed : sp.base.hasNextTasks = false) {blames : List Raised}
    (hblames : Blames sp.base blames) :
    (∃ again, reruns sp blames = .ok again ∧ again.base = sp.base ∧
      sp.slack = again.slack + blames.length ∧
      ∀ label, label ∈ again.lost.map Prod.fst ↔
        label ∈ sp.lost.map Prod.fst ∨ label ∈ blames.map (·.partition)) ∨
    sp.slack < blames.length ∧
      ∃ failed, reruns sp blames = .error (.tooManyFailedChunks failed) := by
  induction blames generalizing sp with
  | nil => exact Or.inl ⟨sp, rfl, rfl, rfl, by simp⟩
  | cons err rest ih =>
      have hcons : reruns sp (err :: rest) =
          withoutLost (.skip sp) err >>= fun again => reruns again rest := List.foldlM_cons ..
      rw [hcons]
      rcases withoutLost_cases hfixed (hblames err List.mem_cons_self) with
        ⟨once, hok, hbase, hslack, hkeys⟩ | ⟨hslack, failed, herr⟩
      · rw [hok]
        have hrest : Blames once.base rest := by
          rw [hbase]
          exact fun e he => hblames e (List.mem_cons_of_mem _ he)
        rcases ih (by rw [hbase, hfixed]) hrest with
          ⟨again, hagain, hb, hs, hmem⟩ | ⟨hlt, failed, herr⟩
        · refine Or.inl ⟨again, hagain, hb.trans hbase, ?_, ?_⟩
          · rw [List.length_cons]
            omega
          · intro label
            rw [hmem, hkeys, List.map_cons, List.mem_cons]
            split
            · rename_i hin
              constructor
              · rintro (h | h)
                · exact Or.inl h
                · exact Or.inr (Or.inr h)
              · rintro (h | rfl | h)
                · exact Or.inl h
                · exact Or.inl hin
                · exact Or.inr h
            · rw [List.mem_append, List.mem_singleton]
              tauto
        · refine Or.inr ⟨?_, failed, herr⟩
          rw [List.length_cons]
          omega
      · rw [herr]
        refine Or.inr ⟨?_, failed, rfl⟩
        rw [List.length_cons]
        omega

theorem runCount_le (hfixed : sp.base.hasNextTasks = false) {blames : List Raised}
    (hblames : Blames sp.base blames) : runCount sp blames ≤ sp.slack + 1 := by
  induction blames generalizing sp with
  | nil => exact Nat.le_add_left 1 _
  | cons err rest ih =>
      unfold runCount
      rcases withoutLost_cases hfixed (hblames err List.mem_cons_self) with
        ⟨once, hok, hbase, hslack, -⟩ | ⟨-, failed, herr⟩
      · have hrest : Blames once.base rest := by
          rw [hbase]
          exact fun e he => hblames e (List.mem_cons_of_mem _ he)
        have hle := ih (by rw [hbase, hfixed]) hrest
        rw [hok]
        dsimp only
        omega
      · rw [herr]
        exact Nat.le_add_left 1 _

end Reruns

/-! ### What a reduction leaves out -/

/-- The plan reduces by the monoid's operation, from its identity, and its processes raise
exceptions only. -/
structure Reduces [Monoid R] (plan : Plan (Plain R) R) : Prop where
  empty : plan.empty = .ok ⟨1⟩
  combine : ∀ a b, plan.combine a b = .ok ⟨a.value * b.value⟩
  raises : ∀ t ∈ plan.tasks, ∀ e, plan.process t.partition = .error e → e.isException = true

def raises (plan : Plan (Plain R) R) (t : Task) : Bool :=
  match plan.process t.partition with
  | .ok _ => false
  | .error _ => true

/-- The value of a chunk that did not raise. -/
def chunkValue [Monoid R] (plan : Plan (Plain R) R) (t : Task) : R :=
  match plan.process t.partition with
  | .ok v => v.value
  | .error _ => 1

/-- Whether the plan leaves a chunk out: it raises, or its label was blamed. -/
def SkipPlan.leavesOut (sp : SkipPlan R) (t : Task) : Bool :=
  raises sp.base t || decide (chunkLabel t.partition ∈ sp.lost.map Prod.fst)

section Reduce

variable [Monoid R] {sp : SkipPlan R} {t : Task}

theorem missing_eq (h : Reduces sp.base) (failed : FailedChunk) :
    sp.missing failed = .ok ⟨1, [failed]⟩ := by
  unfold SkipPlan.missing
  rw [h.empty]
  rfl

theorem process_leftOut (h : Reduces sp.base) (ht : t ∈ sp.base.tasks)
    (hout : sp.leavesOut t = true) : ∃ failed, failed.partition = chunkLabel t.partition ∧
      sp.process t.partition = .ok ⟨1, [failed]⟩ := by
  unfold SkipPlan.process
  by_cases hlost : chunkLabel t.partition ∈ sp.lost.map Prod.fst
  · obtain ⟨failed, hlook, hmem⟩ := lookup_of_mem hlost
    obtain ⟨p, e, hnamed⟩ := sp.named _ hmem
    obtain ⟨hlabel, hfailed⟩ := Prod.mk.inj hnamed
    rw [hlook]
    exact ⟨failed, by rw [hfailed, hlabel]; rfl, missing_eq h failed⟩
  · rw [lookup_of_notMem hlost]
    simp only [SkipPlan.leavesOut, hlost, decide_false, Bool.or_false, raises] at hout
    cases hp : sp.base.process t.partition with
    | ok v =>
        rw [hp] at hout
        cases hout
    | error e =>
        simp only [h.raises t ht e hp, ↓reduceIte]
        exact ⟨_, rfl, missing_eq h _⟩

omit [Monoid R] in
theorem process_kept [Monoid R] (hkept : sp.leavesOut t = false) :
    sp.process t.partition = .ok ⟨chunkValue sp.base t, []⟩ := by
  simp only [SkipPlan.leavesOut, Bool.or_eq_false_iff, decide_eq_false_iff_not, raises] at hkept
  unfold SkipPlan.process chunkValue
  rw [lookup_of_notMem hkept.2]
  cases hp : sp.base.process t.partition with
  | ok v => rfl
  | error e =>
      rw [hp] at hkept
      exact absurd hkept.1 (by simp)

/-- The tasks of a tree that are left out. -/
def SkipPlan.outOf (sp : SkipPlan R) (tree : Reduction) : List Task :=
  tree.leaves.filter sp.leavesOut

/-- The reduction of the tasks of a tree that are kept. -/
def SkipPlan.keptValue (sp : SkipPlan R) (tree : Reduction) : R :=
  ((tree.leaves.filter fun t => !sp.leavesOut t).map (chunkValue sp.base)).prod

/-- Any tree reduces the chunks that are kept, and raises once a merge holds too many failures. -/
theorem reduce_cases (h : Reduces sp.base) (tree : Reduction)
    (hleaves : ∀ t ∈ tree.leaves, t ∈ sp.base.tasks) :
    ((sp.outOf tree).length ≤ sp.budget ∧ ∃ part, tree.reduce sp.plan = .ok part ∧
      part.value = sp.keptValue tree ∧
      part.failed.map (·.partition) = (sp.outOf tree).map fun t => chunkLabel t.partition) ∨
    sp.budget < (sp.outOf tree).length ∧
      ∃ failed, tree.reduce sp.plan = .error (.tooManyFailedChunks failed) := by
  have hpos := sp.positive
  induction tree with
  | empty =>
      refine Or.inl ⟨hpos.le, ⟨1, []⟩, ?_, rfl, rfl⟩
      change sp.base.empty.map _ = _
      rw [h.empty]
      rfl
  | task t =>
      have ht := hleaves t List.mem_cons_self
      cases hout : sp.leavesOut t with
      | true =>
          obtain ⟨failed, hlabel, hprocess⟩ := process_leftOut h ht hout
          refine Or.inl ⟨?_, _, hprocess, ?_, ?_⟩ <;>
            simp [SkipPlan.outOf, SkipPlan.keptValue, Reduction.leaves, hout, hlabel]
          omega
      | false =>
          refine Or.inl ⟨?_, _, process_kept hout, ?_, ?_⟩ <;>
            simp [SkipPlan.outOf, SkipPlan.keptValue, Reduction.leaves, hout]
          omega
  | merge left right ihl ihr =>
      have hout : sp.outOf (.merge left right) = sp.outOf left ++ sp.outOf right :=
        List.filter_append ..
      have hkept : sp.keptValue (.merge left right) =
          sp.keptValue left * sp.keptValue right := by
        unfold SkipPlan.keptValue
        rw [← List.prod_append, ← List.map_append, ← List.filter_append]
        rfl
      rw [hout, List.length_append, hkept]
      rcases ihl fun t ht => hleaves t (List.mem_append_left _ ht) with
        ⟨-, a, ha, hav, haf⟩ | ⟨hover, failed, ha⟩
      · rcases ihr fun t ht => hleaves t (List.mem_append_right _ ht) with
          ⟨-, b, hb, hbv, hbf⟩ | ⟨hover, failed, hb⟩
        · have hreduce : (Reduction.merge left right).reduce sp.plan = sp.combine a b := by
            change (left.reduce sp.plan >>= fun a => right.reduce sp.plan >>= fun b =>
              sp.plan.combine a b) = _
            rw [ha, hb]
            rfl
          have hlabels : (a.failed ++ b.failed).map (·.partition) =
              (sp.outOf left ++ sp.outOf right).map fun t => chunkLabel t.partition := by
            rw [List.map_append, List.map_append, haf, hbf]
          have hlength : (a.failed ++ b.failed).length =
              (sp.outOf left).length + (sp.outOf right).length := by
            simpa using congrArg List.length hlabels
          rw [hreduce]
          unfold SkipPlan.combine
          rw [hlength]
          by_cases hbudget : sp.budget <
              ((sp.outOf left).length + (sp.outOf right).length : Nat)
          · rw [if_pos hbudget]
            exact Or.inr ⟨hbudget, _, rfl⟩
          · rw [if_neg hbudget, h.combine]
            exact Or.inl ⟨not_lt.mp hbudget, _, rfl, by rw [← hav, ← hbv], hlabels⟩
        · refine Or.inr ⟨by push_cast; omega, failed, ?_⟩
          change (left.reduce sp.plan >>= fun a => right.reduce sp.plan >>= fun b =>
            sp.plan.combine a b) = _
          rw [ha, hb]
          rfl
      · refine Or.inr ⟨by push_cast; omega, failed, ?_⟩
        change (left.reduce sp.plan >>= fun a => right.reduce sp.plan >>= fun b =>
          sp.plan.combine a b) = _
        rw [ha]
        rfl

end Reduce

/-! ### What a run that skips leaves out -/

/-- A chunk lost with its worker, and the error that names its label. -/
structure Blamed where
  task : Task
  error : Raised

/-- What the budget allows after these blames: a label blamed again lowers it. -/
def leftOf (budget : Int) (blamed : List Blamed) : Int :=
  budget - (blamed.length - (blamed.map fun b => b.error.partition).dedup.length : Int)

/-- A task is left out when its process raises or it was blamed. -/
def leftOut (plan : Plan (Plain R) R) (blamed : List Blamed) (t : Task) : Bool :=
  raises plan t || decide (t ∈ blamed.map (·.task))

/-- Leaves out exactly the chunks that raise or are blamed. -/
structure SkipsExactly [Monoid R] (plan : Plan (Plain R) R) (sp : SkipPlan R)
    (blamed : List Blamed) (tree : Reduction) : Prop where
  fewRuns : (runCount sp (blamed.map (·.error)) : Int) ≤ sp.budget + 1
  raisesOver : (∃ failed, lastRun sp (blamed.map (·.error)) tree =
    .error (.tooManyFailedChunks failed)) ↔
      leftOf sp.budget blamed < (tree.leaves.filter (leftOut plan blamed)).length
  returns : (tree.leaves.filter (leftOut plan blamed)).length ≤ leftOf sp.budget blamed →
    ∃ part, lastRun sp (blamed.map (·.error)) tree = .ok part ∧
      part.value = ((tree.leaves.filter fun t => !leftOut plan blamed t).map
        (chunkValue plan)).prod ∧
      ∀ result n k stopped failed, finalizeResult sp.plan ⟨part, n, k, stopped, failed⟩ =
        .ok result → (result.failed.map (·.partition)).Perm
          ((tree.leaves.filter (leftOut plan blamed)).map fun t => chunkLabel t.partition)
  onlyBlamed : ∀ again, reruns sp (blamed.map (·.error)) = .ok again → ∀ t ∈ plan.tasks,
    leftOut plan blamed t = false →
      again.process t.partition = .ok ⟨chunkValue plan t, []⟩

/-- No chunk but the blamed has a label that was blamed, unless it raises itself. -/
def LabelsTellApart (plan : Plan (Plain R) R) (blamed : List Blamed) : Prop :=
  ∀ b ∈ blamed, ∀ t ∈ plan.tasks, chunkLabel t.partition = chunkLabel b.task.partition →
    leftOut plan blamed t = true

theorem finalizeResult_failed {V : Type} [Partials V R] {plan : Plan V R}
    {before : ExecResult V} {result : ExecResult R}
    (h : finalizeResult plan before = .ok result) :
    result.failed = byLabel (Partials.failed before.value) := by
  unfold finalizeResult at h
  split at h
  · obtain rfl := Except.ok.inj h
    rfl
  · rename_i fn hfn
    dsimp only at h
    cases hv : fn (Partials.value before.value) with
    | ok v =>
        rw [hv] at h
        obtain rfl := Except.ok.inj h
        rfl
    | error e =>
        rw [hv] at h
        cases h

theorem skipping_plain {base : Plan (Plain R) R} {skipFailed : Int} {sp : SkipPlan R}
    (h : skipping (.plain base) skipFailed = .ok (.skip sp)) : sp.base = base ∧ sp.lost = [] := by
  have hbase := Runner.skipping_base h
  have hlost := skipping_lost h
  exact ⟨hbase, hlost⟩

section Exactly

variable [Monoid R] {sp : SkipPlan R} {blamed : List Blamed} {tree : Reduction}

/-- The blames are lost workers' errors, each naming the label of the chunk the worker held. -/
def BlamesChunks (plan : Plan (Plain R) R) (blamed : List Blamed) : Prop :=
  ∀ b ∈ blamed, b.task ∈ plan.tasks ∧ b.error.partition = chunkLabel b.task.partition

omit [Monoid R] in
theorem BlamesChunks.blames {plan : Plan (Plain R) R} (h : BlamesChunks plan blamed) :
    Blames plan (blamed.map (·.error)) := by
  intro err herr
  obtain ⟨b, hb, rfl⟩ := List.mem_map.mp herr
  exact ⟨b.task, (h b hb).1, (h b hb).2⟩

omit [Monoid R] in
theorem slack_fresh (hfresh : sp.lost = []) : (sp.slack : Int) = sp.budget := by
  have hpos := sp.positive
  unfold SkipPlan.slack
  rw [hfresh]
  simp only [List.length_nil]
  omega

omit [Monoid R] in
/-- Every blamed chunk is a leaf, so no fewer leaves are left out than labels were blamed. -/
theorem labels_le_leftOut (hblamed : BlamesChunks sp.base blamed)
    (htree : tree.leaves.Perm sp.base.tasks) :
    (blamed.map fun b => b.error.partition).dedup.length ≤
      (tree.leaves.filter (leftOut sp.base blamed)).length := by
  have hsub : (blamed.map fun b => b.error.partition).dedup ⊆
      (tree.leaves.filter (leftOut sp.base blamed)).map fun t => chunkLabel t.partition := by
    intro label hlabel
    obtain ⟨b, hb, rfl⟩ := List.mem_map.mp (List.mem_dedup.mp hlabel)
    rw [(hblamed b hb).2]
    apply List.mem_map_of_mem
    rw [List.mem_filter]
    refine ⟨htree.mem_iff.mpr (hblamed b hb).1, ?_⟩
    simp only [leftOut, List.mem_map_of_mem hb, decide_true, Bool.or_true]
  calc (blamed.map fun b => b.error.partition).dedup.length
      ≤ ((tree.leaves.filter (leftOut sp.base blamed)).map
          fun t => chunkLabel t.partition).length :=
        (List.subperm_of_subset (List.nodup_dedup _) hsub).length_le
    _ = (tree.leaves.filter (leftOut sp.base blamed)).length := List.length_map ..

variable {again : SkipPlan R}

/-- What is known of the plan of the last run. -/
structure LastPlan (sp : SkipPlan R) (blamed : List Blamed) (again : SkipPlan R) : Prop where
  base : again.base = sp.base
  budget : again.budget = leftOf sp.budget blamed
  keys : ∀ label, label ∈ again.lost.map Prod.fst ↔
    label ∈ blamed.map fun b => b.error.partition

omit [Monoid R] in
theorem lastPlan_of_reruns (hfresh : sp.lost = []) (hbase : again.base = sp.base)
    (hslack : sp.slack = again.slack + (blamed.map (·.error)).length)
    (hkeys : ∀ label, label ∈ again.lost.map Prod.fst ↔ label ∈ sp.lost.map Prod.fst ∨
      label ∈ (blamed.map (·.error)).map (·.partition)) : LastPlan sp blamed again := by
  have hmem : ∀ label, label ∈ again.lost.map Prod.fst ↔
      label ∈ blamed.map fun b => b.error.partition := by
    intro label
    rw [hkeys, hfresh, List.map_map]
    simp
  have hperm : (again.lost.map Prod.fst).Perm (blamed.map fun b => b.error.partition).dedup := by
    rw [List.perm_ext_iff_of_nodup again.distinct (List.nodup_dedup _)]
    intro label
    rw [hmem, List.mem_dedup]
  have hlength := hperm.length_eq
  rw [List.length_map] at hlength
  rw [List.length_map] at hslack
  have hfull := slack_fresh hfresh
  have hwithin := again.within
  refine ⟨hbase, ?_, hmem⟩
  unfold leftOf
  unfold SkipPlan.slack at hslack hfull
  omega

omit [Monoid R] in
theorem leavesOut_iff_of_apart (h : LastPlan sp blamed again)
    (hblamed : BlamesChunks sp.base blamed) (hapart : LabelsTellApart sp.base blamed) {t : Task}
    (ht : t ∈ sp.base.tasks) : again.leavesOut t = leftOut sp.base blamed t := by
  unfold SkipPlan.leavesOut
  rw [h.base]
  by_cases hlabel : chunkLabel t.partition ∈ again.lost.map Prod.fst
  · obtain ⟨b, hb, heq⟩ := List.mem_map.mp ((h.keys _).mp hlabel)
    rw [hapart b hb t ht (heq.symm.trans (hblamed b hb).2)]
    simp [hlabel]
  · have hnot : t ∉ blamed.map (·.task) := by
      intro hmem
      obtain ⟨b, hb, rfl⟩ := List.mem_map.mp hmem
      apply hlabel
      rw [h.keys, ← (hblamed b hb).2]
      exact List.mem_map_of_mem hb
    simp only [leftOut, hlabel, hnot, decide_false]

/-- Where the last plan leaves out the chunks that raise or are blamed, so does its reduction. -/
theorem skipsExactly_of_same
    (hruns : (runCount sp (blamed.map (·.error)) : Int) ≤ sp.budget + 1)
    (hagain : reruns sp (blamed.map (·.error)) = .ok again) (hlast : LastPlan sp blamed again)
    (hreduces : Reduces sp.base) (hleaves : ∀ t ∈ tree.leaves, t ∈ sp.base.tasks)
    (hsame : ∀ t ∈ sp.base.tasks, again.leavesOut t = leftOut sp.base blamed t) :
    SkipsExactly sp.base sp blamed tree := by
  have hrun : lastRun sp (blamed.map (·.error)) tree = tree.reduce again.plan := by
    unfold lastRun
    rw [hagain]
    rfl
  have hout : again.outOf tree = tree.leaves.filter (leftOut sp.base blamed) :=
    List.filter_congr fun t ht => hsame t (hleaves t ht)
  have hkept : again.keptValue tree = ((tree.leaves.filter fun t =>
      !leftOut sp.base blamed t).map (chunkValue sp.base)).prod := by
    unfold SkipPlan.keptValue
    rw [hlast.base, List.filter_congr fun t ht => congrArg (!·) (hsame t (hleaves t ht))]
  have hcases := reduce_cases (hlast.base ▸ hreduces) tree
    fun t ht => hlast.base ▸ hleaves t ht
  rw [hout, hlast.budget, hkept, ← hrun] at hcases
  refine ⟨hruns, ?_, ?_, ?_⟩
  · rcases hcases with ⟨hle, part, hpart, -⟩ | ⟨hlt, failed, hfailed⟩
    · constructor
      · rintro ⟨failed, hfailed⟩
        rw [hpart] at hfailed
        cases hfailed
      · intro hlt
        omega
    · exact ⟨fun _ => hlt, fun _ => ⟨failed, hfailed⟩⟩
  · intro hle
    rcases hcases with ⟨-, part, hpart, hvalue, hlabels⟩ | ⟨hlt, -⟩
    · refine ⟨part, hpart, hvalue, ?_⟩
      intro result n k stopped failed hresult
      rw [finalizeResult_failed hresult, ← hlabels]
      exact (List.perm_insertionSort _ _).map _
    · omega
  · intro again' hagain' t ht hkeep
    obtain rfl := Except.ok.inj (hagain.symm.trans hagain')
    rw [process_kept ((hsame t ht).trans hkeep), hlast.base]

end Exactly

/-! ### Two chunks of one file -/

/-- A plan of two chunks whose partials are 2 and 3, reduced by multiplication. -/
def twoChunks (first second : Partition) : Plan (Plain Nat) Nat where
  process p := .ok ⟨if p = first then 2 else 3⟩
  combine a b := .ok ⟨a.value * b.value⟩
  empty := .ok ⟨1⟩
  tasks := [⟨0, first⟩, ⟨1, second⟩]
  hasNextTasks := false
  stop := none
  bound := .ok ()
  finalize := none

theorem two_skips : (0 : Int) < 2 := by decide

def skipTwo (first second : Partition) : SkipPlan Nat :=
  SkipPlan.fresh (twoChunks first second) 2 two_skips

def lostWorker (p : Partition) : Raised :=
  .exception ⟨"WorkerLostError", "the worker died", none, some (chunkLabel p)⟩

def range (start stop : Int) : Partition := ⟨"f.root", "Events", start, stop, none, none, none⟩

/-- A blind step whose entries are capped: its label is its unresolved range. -/
def cappedStep (step : Int) : Partition :=
  ⟨"f.root", "Events", 0, 0, some step, some 2, some 100⟩

end Graphed
