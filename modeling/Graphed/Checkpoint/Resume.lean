import Graphed.Checkpoint.Runner

/-!
# Resuming a plan of one stage

A run folds the partials of the partitions whose process succeeds, each once and in plan order,
wherever a partial comes from. It works on a partition whose id has no entry in the journal it read,
or one whose blob it cannot use.
-/

namespace Graphed

open Effects

namespace ResumableRun

variable {V : Type}

/-! ### The value of a run -/

/-- What a partition's process or its retries give, as bytes; none for a dead partition. -/
def stored (run : ResumableRun V) (part : Partition) : Option BlobData :=
  match run.runOne part with
  | .ok value => some (run.codec.encode value)
  | .error _ => none

def partials (run : ResumableRun V) (parts : List Partition) : List V :=
  parts.filterMap fun part => (run.runOne part).toOption

/-- The left fold of partials; the first is taken as it is. -/
def foldAll (run : ResumableRun V) (acc : Option V) (values : List V) :
    Except Raised (Option V) :=
  values.foldlM (fun acc value => (run.fold acc value).map some) acc

/-- The value of the plan, without a store. -/
def plainValue (run : ResumableRun V) : Except Raised V :=
  run.foldAll none (run.partials run.plan.partitions) >>= run.finalValue

end ResumableRun

/-- The partitions a report counts. -/
def ResumeReport.total (r : ResumeReport) : Nat := r.executed + r.skipped + r.dead

section Run

variable {V : Type} {sha : BlobData → String} {L : String → String → Prop} {run : ResumableRun V}
  {done : Completed}

/-- What a partition of the run records, `L` allows. -/
def Records (sha : BlobData → String) (L : String → String → Prop) (run : ResumableRun V) : Prop :=
  ∀ part ∈ run.plan.partitions, ∀ taskId data, run.plan.taskId sha part = .ok taskId →
    run.stored part = some data → L taskId (sha data)

/-- What `L` allows of a partition's id is what the run itself would store. -/
def Uses (sha : BlobData → String) (L : String → String → Prop) (run : ResumableRun V) : Prop :=
  ∀ part ∈ run.plan.partitions, ∀ taskId blob, run.plan.taskId sha part = .ok taskId →
    L taskId blob → ∃ data, run.stored part = some data ∧ blob = sha data

theorem stored_eq_some {part : Partition} {data : BlobData} (h : run.stored part = some data) :
    ∃ value, run.runOne part = .ok value ∧ data = run.codec.encode value := by
  unfold ResumableRun.stored at h
  cases hrun : run.runOne part with
  | error e => rw [hrun] at h; cases h
  | ok value =>
      rw [hrun] at h
      exact ⟨value, rfl, (Option.some.inj h).symm⟩

theorem stored_of_ok {part : Partition} {value : V} (h : run.runOne part = .ok value) :
    run.stored part = some (run.codec.encode value) := by
  unfold ResumableRun.stored
  rw [h]

theorem partials_cons_ok {part : Partition} {rest : List Partition} {value : V}
    (h : run.runOne part = .ok value) :
    run.partials (part :: rest) = value :: run.partials rest := by
  unfold ResumableRun.partials
  rw [List.filterMap_cons, h]
  rfl

theorem partials_cons_error {part : Partition} {rest : List Partition} {e : Raised}
    (h : run.runOne part = .error e) : run.partials (part :: rest) = run.partials rest := by
  unfold ResumableRun.partials
  rw [List.filterMap_cons, h]
  rfl

/-! ### One partition after the other -/

/-- One partition more: its partial is folded, or it is dead. -/
structure Passed (run : ResumableRun V) (part : Partition) (progress progress' : Progress V) :
    Prop where
  folded : (∃ value acc, run.runOne part = .ok value ∧ run.fold progress.acc value = .ok acc ∧
      progress'.acc = some acc) ∨
    (∃ e, run.runOne part = .error e) ∧ progress'.acc = progress.acc
  counted : progress'.report.total = progress.report.total + 1

/-- A partial served is the one the run itself would make. -/
theorem keeps_storedPartial {entry : Option JournalEntry} :
    Keeps sha run.runOne L (run.storedPartial entry) fun value => ∀ v, value = some v →
      ∃ e data, entry = some e ∧ sha data = e.blob ∧ run.codec.decode data = .ok v := by
  cases entry with
  | none =>
      refine keeps_pure ?_
      intro v h
      cases h
  | some entry =>
      refine keeps_bind keeps_get ?_
      intro blob hblob
      cases blob with
      | none =>
          refine keeps_pure ?_
          intro v h
          cases h
      | some data =>
          refine keeps_bind (keeps_ofExcept fun value hdecode => hdecode) ?_
          intro value hdecode
          refine keeps_pure ?_
          intro v hv
          obtain rfl := Option.some.inj hv
          exact ⟨entry, data, rfl, hblob data rfl, hdecode⟩

theorem keeps_commit {taskId : String} {part : Partition} {value : V}
    (hL : L taskId (sha (run.codec.encode value))) :
    Keeps sha run.runOne L (run.commit taskId part value) fun _ => True := by
  refine keeps_bind keeps_put ?_
  rintro digest rfl
  exact keeps_query hL fun _ _ _ _ _ => trivial

theorem keeps_execute (hrecords : Records sha L run) {part : Partition}
    (hpart : part ∈ run.plan.partitions) {taskId : String}
    (hid : run.plan.taskId sha part = .ok taskId) (progress : Progress V) :
    Keeps sha run.runOne L (run.execute taskId part progress) (Passed run part progress) := by
  refine keeps_bind keeps_call ?_
  intro outcome houtcome
  cases outcome with
  | ok value =>
      have hvalue : run.runOne part = .ok value := houtcome.symm
      refine keeps_bind (keeps_commit (hrecords part hpart _ _ hid (stored_of_ok hvalue))) ?_
      intro _ _
      refine keeps_bind (keeps_ofExcept fun acc hfold => hfold) ?_
      intro acc hfold
      refine keeps_pure ⟨Or.inl ⟨value, acc, hvalue, hfold, rfl⟩, ?_⟩
      unfold ResumeReport.total ResumeReport.execute
      dsimp only
      omega
  | error e =>
      dsimp only
      split_ifs
      · refine keeps_bind (ψ := fun _ => True) (keeps_query trivial fun _ _ _ _ _ => trivial) ?_
        intro _ _
        refine keeps_pure ⟨Or.inr ⟨⟨e, houtcome.symm⟩, rfl⟩, ?_⟩
        unfold ResumeReport.total ResumeReport.die
        dsimp only
        omega
      · exact keeps_raise

theorem keeps_runPartition (hsha : Function.Injective sha) (hrecords : Records sha L run)
    (hdone : ∀ taskId entry, done.get taskId = some entry → L taskId entry.blob)
    {part : Partition} (hpart : part ∈ run.plan.partitions) (progress : Progress V) :
    Keeps sha run.runOne L (run.runPartition sha done progress part)
      fun progress' => progress'.report.total = progress.report.total + 1 ∧
        (Uses sha L run → Passed run part progress progress') := by
  unfold ResumableRun.runPartition
  refine keeps_bind (keeps_ofExcept fun taskId hid => hid) ?_
  intro taskId hid
  refine keeps_bind keeps_storedPartial ?_
  intro served hserved
  cases served with
  | none =>
      refine (keeps_execute hrecords hpart hid progress).weaken ?_
      intro progress' hpassed
      exact ⟨hpassed.counted, fun _ => hpassed⟩
  | some value =>
      obtain ⟨entry, data, hentry, hdata, hdecode⟩ := hserved value rfl
      refine keeps_bind (keeps_ofExcept fun acc hfold => hfold) ?_
      intro acc hfold
      have hcount : progress.report.skip.total = progress.report.total + 1 := by
        unfold ResumeReport.total ResumeReport.skip
        dsimp only
        omega
      refine keeps_pure ⟨hcount, ?_⟩
      intro huses
      obtain ⟨data', hstored, hblob⟩ := huses part hpart taskId entry.blob hid
        (hdone taskId entry hentry)
      obtain rfl : data = data' := hsha (hdata.trans hblob)
      obtain ⟨value', hvalue, rfl⟩ := stored_eq_some hstored
      rw [run.codec.faithful] at hdecode
      obtain rfl := Except.ok.inj hdecode
      exact ⟨Or.inl ⟨value', acc, hvalue, hfold, rfl⟩, hcount⟩

/-- All partitions, by induction on those left. -/
theorem keeps_runPartitions (hsha : Function.Injective sha) (hrecords : Records sha L run)
    (hdone : ∀ taskId entry, done.get taskId = some entry → L taskId entry.blob)
    {parts : List Partition} (hparts : ∀ part ∈ parts, part ∈ run.plan.partitions)
    (progress : Progress V) :
    Keeps sha run.runOne L (run.runPartitions sha done parts progress) fun progress' =>
      progress'.report.stopped = none →
        progress'.report.total = progress.report.total + parts.length ∧
        (Uses sha L run → run.foldAll progress.acc (run.partials parts) = .ok progress'.acc) := by
  induction parts generalizing progress with
  | nil => exact keeps_pure fun _ => ⟨rfl, fun _ => rfl⟩
  | cons part rest ih =>
      refine keeps_bind (keeps_runPartition hsha hrecords hdone
        (hparts part List.mem_cons_self) progress) ?_
      rintro progress' ⟨hcount, hpassed⟩
      split_ifs with hstopped
      · refine keeps_pure ?_
        intro hnone
        rw [hnone] at hstopped
        cases hstopped
      · refine (ih (fun p hp => hparts p (List.mem_cons_of_mem _ hp)) progress').weaken ?_
        intro progress'' hrest hnone
        obtain ⟨htotal, hfold⟩ := hrest hnone
        refine ⟨by rw [htotal, hcount, List.length_cons]; omega, ?_⟩
        intro huses
        rcases (hpassed huses).folded with ⟨value, acc, hvalue, hacc, heq⟩ | ⟨⟨e, he⟩, heq⟩
        · rw [partials_cons_ok hvalue, ResumableRun.foldAll, List.foldlM_cons, hacc]
          rw [heq] at hfold
          exact hfold huses
        · rw [partials_cons_error he, ← heq]
          exact hfold huses

/-- The value of a finished run is the plan's own, and its report counts every partition. -/
theorem keeps_resume (hsha : Function.Injective sha) (hrecords : Records sha L run)
    (hdone : ∀ taskId entry, done.get taskId = some entry → L taskId entry.blob) :
    Keeps sha run.runOne L (run.resume sha done) fun result => result.report.stopped = none →
      result.report.total = run.plan.partitions.length ∧
      (Uses sha L run → run.plainValue = .ok result.value) := by
  unfold ResumableRun.resume
  refine keeps_bind (ψ := fun _ => True) (keeps_query trivial fun _ _ _ _ _ => trivial) ?_
  intro accepted _
  refine keeps_bind (ψ := fun _ => True) (keeps_ofExcept fun _ _ => trivial) ?_
  intro _ _
  refine keeps_bind (keeps_runPartitions hsha hrecords hdone (fun _ h => h) _) ?_
  intro progress hprogress
  refine keeps_bind (ψ := fun _ => True) (keeps_query trivial fun _ _ _ _ _ => trivial) ?_
  intro letters _
  refine keeps_bind (keeps_ofExcept fun value hvalue => hvalue) ?_
  intro value hvalue
  refine keeps_pure ?_
  intro hnone
  obtain ⟨htotal, hfold⟩ := hprogress hnone
  refine ⟨by simpa [ResumeReport.total, ResumeReport.new] using htotal, ?_⟩
  intro huses
  unfold ResumableRun.plainValue
  rw [hfold huses]
  exact hvalue

/-- A run records only what `L` allows. -/
theorem obeys_resumable (hsha : Function.Injective sha) (hrecords : Records sha L run) :
    (run.job sha).Obeys sha L :=
  ⟨_, keeps_bind keeps_completed fun _ hdone => keeps_resume hsha hrecords hdone⟩

/-! ### Work that is not needed -/

/-- No partition without an entry in the journal gets one, or its journaled blob back, from the
partitions before it or from the environment's record. -/
def NoneAppears (sha : BlobData → String) (run : ResumableRun V) (d : Disk) : Prop :=
  ∀ pre part post taskId, run.plan.partitions = pre ++ part :: post →
    run.plan.taskId sha part = .ok taskId → d.completed.get taskId = none →
    (∀ p ∈ pre, run.plan.taskId sha p = .ok taskId → run.stored p = none) ∧
    ∀ e ∈ d.entries, e.taskId = taskId → e.blob ≠ sha run.environment ∧
      ∀ p ∈ pre, ∀ data, run.stored p = some data → e.blob ≠ sha data

/-- Work is asked for only where the store has no result to use. -/
def Needed (sha : BlobData → String) (run : ResumableRun V) (d : Disk) :
    StoreQuery Partition → Prop
  | .call part => ∀ taskId, run.plan.taskId sha part = .ok taskId → ¬ d.Stored sha taskId
  | _ => True

/-- What the store holds since the run read the journal in `d₀`, some partitions later. -/
structure Since (sha : BlobData → String) (L : String → String → Prop) (run : ResumableRun V)
    (d₀ : Disk) (pre : List Partition) (d : Disk) : Prop where
  truthful : Truthful L d
  entries : ∀ e ∈ d.entries, e.stage ≠ "environment" → e ∈ d₀.entries ∨
    ∃ p ∈ pre, ∃ data, run.plan.taskId sha p = .ok e.taskId ∧ run.stored p = some data
  intact : ∀ digest, d.Intact sha digest → d₀.hasBlob digest = true ∨
    digest = sha run.environment ∨ ∃ p ∈ pre, ∃ data, run.stored p = some data ∧ digest = sha data

variable {d₀ d d' : Disk} {pre post : List Partition} {part : Partition} {taskId : String}

theorem Since.of_lost {m : Loss} (h : Since sha L run d₀ pre d) (hlost : lost sha d m d') :
    Since sha L run d₀ pre d' := by
  refine ⟨h.truthful.lost hlost, ?_, fun digest hd => h.intact digest (intact_of_lost hlost hd)⟩
  rw [entries_of_lost hlost]
  exact h.entries

theorem Since.of_same (h : Since sha L run d₀ pre d) (hentries : d'.entries = d.entries)
    (hobjects : d'.objects = d.objects) : Since sha L run d₀ pre d' := by
  refine ⟨h.truthful.of_entries hentries, ?_, ?_⟩
  · rw [hentries]
    exact h.entries
  · intro digest hd
    unfold Disk.Intact at hd
    rw [hobjects] at hd
    exact h.intact digest hd

theorem Since.more (h : Since sha L run d₀ pre d) (part : Partition) :
    Since sha L run d₀ (pre ++ [part]) d := by
  refine ⟨h.truthful, ?_, ?_⟩
  · intro e he hstage
    refine (h.entries e he hstage).imp id ?_
    rintro ⟨p, hp, hrest⟩
    exact ⟨p, List.mem_append_left _ hp, hrest⟩
  · intro digest hd
    refine (h.intact digest hd).imp id (Or.imp id ?_)
    rintro ⟨p, hp, hrest⟩
    exact ⟨p, List.mem_append_left _ hp, hrest⟩

theorem Since.put (h : Since sha L run d₀ pre d) {data : BlobData}
    (hdata : run.stored part = some data) :
    Since sha L run d₀ (pre ++ [part]) (d.put sha data).2 := by
  have hmore := h.more part
  refine ⟨hmore.truthful.put data, ?_, ?_⟩
  · rw [Disk.entries_put]
    exact hmore.entries
  · intro digest hd
    rcases Disk.intact_put hd with hold | rfl
    · exact hmore.intact digest hold
    · refine Or.inr (Or.inr ⟨part, ?_, data, hdata, rfl⟩)
      exact List.mem_append_right _ (List.mem_singleton_self part)

theorem Since.record (h : Since sha L run d₀ pre d) {name : String} {entry : JournalEntry}
    (hL : entry.stage ≠ "environment" → L entry.taskId entry.blob ∧
      ∃ p ∈ pre, ∃ data, run.plan.taskId sha p = .ok entry.taskId ∧ run.stored p = some data) :
    Since sha L run d₀ pre (d.record name entry) := by
  refine ⟨h.truthful.record fun hstage => (hL hstage).1, ?_, h.intact⟩
  intro e he hstage
  rcases Disk.mem_entries_setJournal he with hmem | hmem
  · exact h.entries e hmem hstage
  · rcases LogFile.mem_append hmem with hold | rfl
    · exact h.entries e (Disk.mem_entries.mpr ⟨name, hold⟩) hstage
    · exact Or.inr (hL hstage).2

/-- At its turn a partition whose entry's blob cannot be used has no result in the store. -/
theorem Since.not_stored (huses : Uses sha L run)
    (hdone : ∀ taskId entry, d₀.completed.get taskId = some entry → L taskId entry.blob)
    (hnone : NoneAppears sha run d₀) (hparts : run.plan.partitions = pre ++ part :: post)
    (hid : run.plan.taskId sha part = .ok taskId) (h : Since sha L run d₀ pre d)
    (hunusable : ∀ entry, d₀.completed.get taskId = some entry → ¬ d.Intact sha entry.blob) :
    ¬ d.Stored sha taskId := by
  rintro ⟨e, he, hintact⟩
  obtain ⟨hmem, hetask, hstage, -⟩ := Disk.completed_get he
  have hpart : part ∈ run.plan.partitions := by
    rw [hparts]
    exact List.mem_append_right _ List.mem_cons_self
  cases hentry : d₀.completed.get taskId with
  | some entry =>
      have hLe : L taskId e.blob := hetask ▸ h.truthful e hmem hstage
      obtain ⟨data, hdata, hblob⟩ := huses part hpart taskId e.blob hid hLe
      obtain ⟨data', hdata', hblob'⟩ :=
        huses part hpart taskId entry.blob hid (hdone taskId entry hentry)
      obtain rfl := Option.some.inj (hdata.symm.trans hdata')
      apply hunusable entry hentry
      rw [hblob', ← hblob]
      exact hintact
  | none =>
      obtain ⟨hpre, hblobs⟩ := hnone pre part post taskId hparts hid hentry
      rcases h.entries e hmem hstage with hold | ⟨p, hp, data, hpid, hpdata⟩
      · obtain ⟨henv, hothers⟩ := hblobs e hold hetask
        rcases h.intact e.blob hintact with hblob | hblob | ⟨p, hp, data, hpdata, hblob⟩
        · have hsome := Disk.completed_get_isSome hold hstage hblob
          rw [hetask, hentry] at hsome
          cases hsome
        · exact henv hblob
        · exact hothers p hp data hpdata hblob
      · rw [hetask] at hpid
        rw [hpre p hp hpid] at hpdata
        cases hpdata

/-- From a store in `P` the program asks for needed work only, and returns in `φ`. -/
def Guarded {α : Type} (sha : BlobData → String) (L : String → String → Prop)
    (run : ResumableRun V) (P : Disk → Prop) (p : StoreScript Partition V α)
    (φ : α → Disk → Prop) : Prop :=
  Triple (storeWorld sha run.runOne) (fun d q => Licit L q ∧ Needed sha run d q) P p
    fun o d => ∀ a, o = .ok a → φ a d

section Guarded

variable {α γ : Type} {P : Disk → Prop} {φ : α → Disk → Prop} {ψ : γ → Disk → Prop}

theorem stable_ok {o : Except Raised α} (h : ∀ a, Lasts (storeWorld sha run.runOne) (φ a)) :
    Lasts (storeWorld sha run.runOne) fun d => ∀ a, o = .ok a → φ a d :=
  fun d m d' hd hlost a ha => h a d m d' (hd a ha) hlost

theorem guarded_ofExcept {x : Except Raised α}
    (hstable : ∀ a, Lasts (storeWorld sha run.runOne) (φ a))
    (h : ∀ d a, P d → x = .ok a → φ a d) : Guarded sha L run P (Prog.ofExcept x) φ :=
  triple_ofExcept (stable_ok hstable) fun d hd a ha => h d a hd ha

theorem guarded_pure {a : α} (hstable : Lasts (storeWorld sha run.runOne) (φ a))
    (h : ∀ d, P d → φ a d) : Guarded sha L run P (pure a) φ := by
  have hend : ∀ d, φ a d → ∀ b, (Except.ok a : Except Raised α) = .ok b → φ b d := by
    intro d hd b hb
    obtain rfl := Except.ok.inj hb
    exact hd
  refine triple_ret ?_ fun d hd => hend d (h d hd)
  intro d m d' hd hlost
  exact hend d' (hstable d m d' (hd a rfl) hlost)

theorem guarded_raise {e : Raised} : Guarded sha L run P (Prog.raise e) φ :=
  triple_raise (fun _ _ _ _ _ _ he => by cases he) fun _ _ _ he => by cases he

theorem guarded_bind {p : StoreScript Partition V γ} {f : γ → StoreScript Partition V α}
    (hp : Guarded sha L run P p ψ) (hf : ∀ c, Guarded sha L run (ψ c) (f c) φ) :
    Guarded sha L run P (p >>= f) φ := by
  refine triple_bind hp ?_ ?_
  · intro c
    exact (hf c).weaken (fun d hd => hd c rfl) fun _ _ h => h
  · intro e d _ a ha
    cases ha

theorem guarded_query {q : StoreQuery Partition} {φ : StoreAnswer Partition V q → Disk → Prop}
    (hstable : Lasts (storeWorld sha run.runOne) P)
    (hφ : ∀ a, Lasts (storeWorld sha run.runOne) (φ a)) (hlicit : Licit L q)
    (hneeded : ∀ d, P d → Needed sha run d q)
    (h : ∀ d a d', P d → storeAnswers sha run.runOne d q a d' → φ a d') :
    Guarded sha L run P (Prog.query q) φ := by
  refine triple_query hstable (fun d hd => ⟨hlicit, hneeded d hd⟩) (fun a => stable_ok hφ) ?_
  intro d a d' hd hanswer b hb
  obtain rfl := Except.ok.inj hb
  exact h d a d' hd hanswer

end Guarded

theorem since_stable : Lasts (storeWorld sha run.runOne) (Since sha L run d₀ pre) :=
  fun _ _ _ h hlost => h.of_lost hlost

theorem since_unusable_stable (entry : Option JournalEntry) :
    Lasts (storeWorld sha run.runOne) fun d =>
      Since sha L run d₀ pre d ∧ ∀ e, entry = some e → ¬ d.Intact sha e.blob := by
  rintro d m d' ⟨hd, hunusable⟩ hlost
  exact ⟨hd.of_lost hlost, fun e he hintact => hunusable e he (intact_of_lost hlost hintact)⟩

theorem guarded_storedPartial (entry : Option JournalEntry) :
    Guarded sha L run (Since sha L run d₀ pre) (run.storedPartial entry) fun served d =>
      Since sha L run d₀ pre d ∧
        (served = none → ∀ e, entry = some e → ¬ d.Intact sha e.blob) := by
  have hstable : ∀ served : Option V, Lasts (storeWorld sha run.runOne) fun d =>
      Since sha L run d₀ pre d ∧
        (served = none → ∀ e, entry = some e → ¬ d.Intact sha e.blob) := by
    rintro served d m d' ⟨hd, hunusable⟩ hlost
    exact ⟨hd.of_lost hlost,
      fun hnone e he hintact => hunusable hnone e he (intact_of_lost hlost hintact)⟩
  cases entry with
  | none =>
      refine guarded_pure (hstable none) ?_
      intro d hd
      refine ⟨hd, ?_⟩
      intro _ e he
      cases he
  | some entry =>
      refine guarded_bind (ψ := fun blob d => Since sha L run d₀ pre d ∧
        (blob = none → ¬ d.Intact sha entry.blob)) ?_ ?_
      · refine guarded_query since_stable ?_ trivial (fun _ _ => trivial) ?_
        · rintro blob d m d' ⟨hd, hblob⟩ hlost
          exact ⟨hd.of_lost hlost, fun hnone hintact => hblob hnone (intact_of_lost hlost hintact)⟩
        · intro d blob d' hd hanswer
          obtain ⟨hblob, rfl⟩ : blob = (d.get sha entry.blob).1 ∧ d' = (d.get sha entry.blob).2 :=
            Prod.mk.inj hanswer
          refine ⟨hd.of_same Disk.entries_get Disk.objects_get, ?_⟩
          intro hnone
          unfold Disk.Intact
          rw [Disk.objects_get]
          exact Disk.get_eq_none.mp (hblob.symm.trans hnone)
      · intro blob
        cases blob with
        | none =>
            refine guarded_pure (hstable none) ?_
            rintro d ⟨hd, hblob⟩
            refine ⟨hd, ?_⟩
            intro _ e he
            obtain rfl := Option.some.inj he
            exact hblob rfl
        | some blob =>
            refine guarded_bind (ψ := fun _ d => Since sha L run d₀ pre d) ?_ ?_
            · exact guarded_ofExcept (fun _ => since_stable) fun d _ hd _ => hd.1
            · intro value
              refine guarded_pure (hstable (some value)) ?_
              intro d hd
              refine ⟨hd, ?_⟩
              intro hnone
              cases hnone

theorem guarded_execute (hrecords : Records sha L run) (huses : Uses sha L run)
    (hdone : ∀ taskId entry, d₀.completed.get taskId = some entry → L taskId entry.blob)
    (hnone : NoneAppears sha run d₀) (hparts : run.plan.partitions = pre ++ part :: post)
    (hid : run.plan.taskId sha part = .ok taskId) (progress : Progress V) :
    Guarded sha L run (fun d => Since sha L run d₀ pre d ∧
        ∀ e, d₀.completed.get taskId = some e → ¬ d.Intact sha e.blob)
      (run.execute taskId part progress) fun _ => Since sha L run d₀ (pre ++ [part]) := by
  have hlast : part ∈ pre ++ [part] := List.mem_append_right _ (List.mem_singleton_self part)
  have hpart : part ∈ run.plan.partitions := by
    rw [hparts]
    exact List.mem_append_right _ List.mem_cons_self
  refine guarded_bind (ψ := fun outcome d => Since sha L run d₀ pre d ∧
    outcome = run.runOne part) ?_ ?_
  · refine guarded_query (since_unusable_stable _) ?_ trivial ?_ ?_
    · rintro outcome d m d' ⟨hd, houtcome⟩ hlost
      exact ⟨hd.of_lost hlost, houtcome⟩
    · rintro d ⟨hd, hunusable⟩ taskId' hid'
      obtain rfl := Except.ok.inj (hid.symm.trans hid')
      exact hd.not_stored huses hdone hnone hparts hid hunusable
    · rintro d outcome d' ⟨hd, -⟩ ⟨houtcome, rfl⟩
      exact ⟨hd, houtcome⟩
  · intro outcome
    cases outcome with
    | ok value =>
        refine guarded_bind (ψ := fun _ => Since sha L run d₀ (pre ++ [part])) ?_ ?_
        · refine guarded_bind (ψ := fun digest d => Since sha L run d₀ (pre ++ [part]) d ∧
            digest = sha (run.codec.encode value) ∧ run.runOne part = .ok value) ?_ ?_
          · refine guarded_query ?_ ?_ trivial (fun _ _ => trivial) ?_
            · rintro d m d' ⟨hd, houtcome⟩ hlost
              exact ⟨hd.of_lost hlost, houtcome⟩
            · rintro digest d m d' ⟨hd, hrest⟩ hlost
              exact ⟨hd.of_lost hlost, hrest⟩
            · rintro d digest d' ⟨hd, houtcome⟩ hanswer
              obtain ⟨rfl, rfl⟩ := Prod.mk.inj hanswer
              exact ⟨hd.put (stored_of_ok houtcome.symm), Disk.put_fst, houtcome.symm⟩
          · intro digest s hs
            obtain ⟨hput, rfl, hvalue⟩ := hs
            have hstored := stored_of_ok hvalue
            have hL := hrecords part hpart _ _ hid hstored
            have hrecord : Guarded sha L run (Since sha L run d₀ (pre ++ [part]))
                (Prog.query (StoreQuery.recordDone run.node ⟨taskId, partitionTag part,
                  sha (run.codec.encode value), "", []⟩))
                fun _ => Since sha L run d₀ (pre ++ [part]) := by
              refine guarded_query since_stable (fun _ => since_stable) hL (fun _ _ => trivial) ?_
              rintro d _ d' hd rfl
              exact hd.record fun _ => ⟨hL, part, hlast, _, hid, hstored⟩
            exact hrecord s hput
        · intro _
          refine guarded_bind (ψ := fun _ => Since sha L run d₀ (pre ++ [part])) ?_ ?_
          · exact guarded_ofExcept (fun _ => since_stable) fun _ _ hd _ => hd
          · exact fun acc => guarded_pure since_stable fun _ hd => hd
    | error e =>
        dsimp only
        split_ifs
        · refine guarded_bind (ψ := fun _ => Since sha L run d₀ (pre ++ [part])) ?_ ?_
          · refine guarded_query ?_ (fun _ => since_stable) trivial (fun _ _ => trivial) ?_
            · rintro d m d' ⟨hd, houtcome⟩ hlost
              exact ⟨hd.of_lost hlost, houtcome⟩
            · rintro d _ d' ⟨hd, -⟩ rfl
              exact (hd.more part).of_same rfl rfl
          · exact fun _ => guarded_pure since_stable fun _ hd => hd
        · exact guarded_raise

theorem guarded_runPartition (hrecords : Records sha L run) (huses : Uses sha L run)
    (hdone : ∀ taskId entry, d₀.completed.get taskId = some entry → L taskId entry.blob)
    (hnone : NoneAppears sha run d₀) (hparts : run.plan.partitions = pre ++ part :: post)
    (progress : Progress V) :
    Guarded sha L run (Since sha L run d₀ pre)
      (run.runPartition sha d₀.completed progress part)
      fun _ => Since sha L run d₀ (pre ++ [part]) := by
  unfold ResumableRun.runPartition
  refine guarded_bind (ψ := fun taskId d => Since sha L run d₀ pre d ∧
    run.plan.taskId sha part = .ok taskId) ?_ ?_
  · refine guarded_ofExcept ?_ fun d taskId hd hid => ⟨hd, hid⟩
    rintro taskId d m d' ⟨hd, hid⟩ hlost
    exact ⟨hd.of_lost hlost, hid⟩
  · intro taskId s hs
    obtain ⟨hs, hid⟩ := hs
    refine guarded_bind (guarded_storedPartial (d₀.completed.get taskId)) ?_ s hs
    intro served
    cases served with
    | none =>
        refine (guarded_execute hrecords huses hdone hnone hparts hid progress).weaken ?_
          fun _ _ h => h
        rintro d ⟨hd, hunusable⟩
        exact ⟨hd, hunusable rfl⟩
    | some value =>
        refine guarded_bind (ψ := fun _ => Since sha L run d₀ (pre ++ [part])) ?_ ?_
        · exact guarded_ofExcept (fun _ => since_stable) fun _ _ hd _ => hd.1.more part
        · exact fun acc => guarded_pure since_stable fun _ hd => hd

/-- By induction on the partitions left. -/
theorem guarded_runPartitions (hrecords : Records sha L run) (huses : Uses sha L run)
    (hdone : ∀ taskId entry, d₀.completed.get taskId = some entry → L taskId entry.blob)
    (hnone : NoneAppears sha run d₀) {parts : List Partition}
    (hparts : run.plan.partitions = pre ++ parts) (progress : Progress V) :
    Guarded sha L run (Since sha L run d₀ pre)
      (run.runPartitions sha d₀.completed parts progress) fun _ d => Truthful L d := by
  induction parts generalizing pre progress with
  | nil => exact guarded_pure truthful_stable fun _ hd => hd.truthful
  | cons part rest ih =>
      refine guarded_bind (guarded_runPartition hrecords huses hdone hnone hparts progress) ?_
      intro progress'
      split_ifs
      · exact guarded_pure truthful_stable fun _ hd => hd.truthful
      · exact ih (by rw [hparts, List.append_assoc]; rfl) progress'

/-- A run that has just read the journal asks for no work whose result the store has. -/
theorem guarded_resume (hrecords : Records sha L run) (huses : Uses sha L run)
    (hdone : ∀ taskId entry, d₀.completed.get taskId = some entry → L taskId entry.blob)
    (hnone : NoneAppears sha run d₀) :
    Guarded sha L run (Since sha L run d₀ []) (run.resume sha d₀.completed) fun _ _ => True := by
  have htrue : ∀ {γ : Type} (c : γ), Lasts (storeWorld sha run.runOne) fun _ => True :=
    fun _ _ _ _ _ _ => trivial
  unfold ResumableRun.resume
  refine guarded_bind (ψ := fun _ => Since sha L run d₀ []) ?_ ?_
  · refine guarded_query since_stable (fun _ => since_stable) trivial (fun _ _ => trivial) ?_
    rintro d accepted d' hd hanswer
    rcases hanswer with ⟨bad, rfl⟩ | ⟨-, id, rfl⟩
    · exact hd.of_same rfl rfl
    · have hput : Since sha L run d₀ [] (d.put sha run.environment).2 := by
        refine ⟨hd.truthful.put _, ?_, ?_⟩
        · rw [Disk.entries_put]
          exact hd.entries
        · intro digest hintact
          rcases Disk.intact_put hintact with hold | rfl
          · exact hd.intact digest hold
          · exact Or.inr (Or.inl rfl)
      exact hput.record fun hstage => absurd rfl hstage
  · intro accepted
    refine guarded_bind (ψ := fun _ => Since sha L run d₀ []) ?_ ?_
    · exact guarded_ofExcept (fun _ => since_stable) fun _ _ hd _ => hd
    · intro _
      refine guarded_bind (guarded_runPartitions hrecords huses hdone hnone rfl _) ?_
      intro progress
      refine guarded_bind (ψ := fun _ _ => True) ?_ ?_
      · exact guarded_query truthful_stable (fun _ => htrue ()) trivial (fun _ _ => trivial)
          fun _ _ _ _ _ => trivial
      · intro letters
        refine guarded_bind (ψ := fun _ _ => True) ?_ ?_
        · exact guarded_ofExcept (fun _ => htrue ()) fun _ _ _ _ => trivial
        · exact fun value => guarded_pure (htrue ()) fun _ _ => trivial

/-! ### Blobs that cannot be used -/

/-- Where a blob asked for is missing or corrupted, a partition's process is asked for next. -/
def Recomputes {α : Type} (run : ResumableRun V) : (q : StoreQuery Partition) →
    (StoreAnswer Partition V q → StoreScript Partition V α) → Prop
  | .get _, next => ∃ part ∈ run.plan.partitions, ∃ after, next none = .ask (.call part) after
  | _, _ => True

theorem recomputes_bind {α γ : Type} {f : α → StoreScript Partition V γ} (q : StoreQuery Partition)
    (next : StoreAnswer Partition V q → StoreScript Partition V α) (h : Recomputes run q next) :
    Recomputes run q fun a => (next a).bind f := by
  cases q with
  | get digest =>
      obtain ⟨part, hpart, after, hafter⟩ := h
      refine ⟨part, hpart, fun a => (after a).bind f, ?_⟩
      change (next none).bind f = _
      rw [hafter]
      rfl
  | _ => trivial

theorem everywhere_execute (part : Partition) (progress : Progress V) :
    Everywhere (Recomputes run) (run.execute taskId part progress) := by
  refine ⟨trivial, ?_⟩
  intro outcome
  cases outcome with
  | ok value =>
      refine everywhere_bind (p := run.commit taskId part value) (φ := Recomputes run)
        ⟨trivial, fun _ => ⟨trivial, fun _ => trivial⟩⟩ recomputes_bind fun _ => ?_
      exact everywhere_bind (everywhere_ofExcept (run.fold progress.acc value)) recomputes_bind
        fun _ => trivial
  | error e =>
      change Everywhere _ (if e.isException = true then _ else _)
      split_ifs
      · exact ⟨trivial, fun _ => trivial⟩
      · trivial

theorem everywhere_runPartition (hpart : part ∈ run.plan.partitions) (progress : Progress V) :
    Everywhere (Recomputes run) (run.runPartition sha done progress part) := by
  have hserved : ∀ value, Everywhere (Recomputes run)
      ((Prog.ofExcept (run.fold progress.acc value) >>= fun acc =>
        pure ⟨some acc, progress.report.skip⟩ : StoreScript Partition V (Progress V))) :=
    fun value => everywhere_bind (everywhere_ofExcept _) recomputes_bind fun _ => trivial
  refine everywhere_bind (everywhere_ofExcept _) recomputes_bind ?_
  intro taskId
  cases done.get taskId with
  | none => exact everywhere_execute part progress
  | some entry =>
      refine ⟨⟨part, hpart, _, rfl⟩, ?_⟩
      intro blob
      cases blob with
      | none => exact everywhere_execute part progress
      | some data =>
          refine everywhere_bind (φ := Recomputes run) (p := Prog.ofExcept (run.codec.decode data)
            >>= fun value => pure (some value)) ?_ recomputes_bind ?_
          · exact everywhere_bind (everywhere_ofExcept (run.codec.decode data)) recomputes_bind
              fun _ => trivial
          · intro served
            cases served with
            | none => exact everywhere_execute part progress
            | some value => exact hserved value

theorem everywhere_runPartitions {parts : List Partition}
    (hparts : ∀ part ∈ parts, part ∈ run.plan.partitions) (progress : Progress V) :
    Everywhere (Recomputes run) (run.runPartitions sha done parts progress) := by
  induction parts generalizing progress with
  | nil => trivial
  | cons part rest ih =>
      refine everywhere_bind (everywhere_runPartition (hparts part List.mem_cons_self) progress)
        recomputes_bind ?_
      intro progress'
      split_ifs
      · trivial
      · exact ih (fun p hp => hparts p (List.mem_cons_of_mem _ hp)) progress'

theorem everywhere_resume : Everywhere (Recomputes run) (run.resume sha done) := by
  refine ⟨trivial, fun accepted => ?_⟩
  refine everywhere_bind (p := Prog.ofExcept accepted) (everywhere_ofExcept accepted)
    recomputes_bind fun _ => ?_
  refine everywhere_bind (everywhere_runPartitions (fun _ h => h) _) recomputes_bind ?_
  intro progress
  refine ⟨trivial, fun letters => ?_⟩
  exact everywhere_bind (p := Prog.ofExcept (run.finalValue progress.acc))
    (everywhere_ofExcept (run.finalValue progress.acc)) recomputes_bind fun _ => trivial

end Run

end Graphed
