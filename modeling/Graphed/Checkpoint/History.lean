import Graphed.Checkpoint.Resume
import Graphed.Checkpoint.Shuffle

/-!
# Runs on one store

Runs of any plans follow one another on a store, each finished or killed anywhere, while blobs are
lost. A resumed shuffle returns what a plain run of its plan returns as long as tasks that share an
id do the same work. A resumed plan folds each partial once, and does no work whose result the store
has, as long as partitions that share an id give the same partial and no result appears in the store
behind the journal it has read.
-/

namespace Graphed

open Effects

/-- A run on the store before. -/
inductive EarlierRun where
  | resumable {V : Type} (run : ResumableRun V)
  | shuffle (run : ShuffleRun)

namespace EarlierRun

def job (sha : BlobData → String) : EarlierRun → Job
  | resumable run => run.job sha
  | shuffle run => run.job sha

/-- The plan of several stages a run is of. -/
def stagedPlan : EarlierRun → Option DurablePlanV2
  | resumable _ => none
  | shuffle run => some run.plan

end EarlierRun

variable {sha : BlobData → String} {d : Disk}

/-! ### Shuffles -/

/-- A shuffle on this store returns the hashes of the payloads a plain run of its plan passes for its
value, and those it returns on an empty store. -/
structure ServesOwnBlocks (sha : BlobData → String) (run : ShuffleRun) (d : Disk) : Prop where
  plain : ∀ result d',
    Arrives (storeWorld sha StageCall.result) (run.runShuffleResumable sha) d (.ret result) d' →
    (lastPayloads run.plan).map (fun last => last.map sha) = .ok result.value
  fresh : ∀ result d' result' d'',
    Arrives (storeWorld sha StageCall.result) (run.runShuffleResumable sha) d (.ret result) d' →
    Arrives (storeWorld sha StageCall.result) (run.runShuffleResumable sha) .empty (.ret result')
      d'' → result.value = result'.value

/-- Every earlier run obeys what the plans' own work allows. -/
theorem earlier_obeys (hsha : Function.Injective sha) {plans : List DurablePlanV2}
    {earlier : List EarlierRun} (hplans : ∀ plan ∈ earlier.filterMap EarlierRun.stagedPlan,
      plan ∈ plans) (hsame : SameWork sha plans) :
    ∀ job ∈ earlier.map (EarlierRun.job sha), job.Obeys sha (GivesBlob sha plans) := by
  intro job hjob
  obtain ⟨r, hr, rfl⟩ := List.mem_map.mp hjob
  cases r with
  | resumable run =>
      refine obeys_resumable hsha ?_
      intro part _ taskId data hid _ plan _ j stage task _ _ hid'
      exact absurd hid' (DurablePlan.taskId_ne_v2 hsha hid)
  | shuffle run =>
      have hrun : run.plan ∈ plans := hplans _ (List.mem_filterMap.mpr ⟨_, hr, rfl⟩)
      exact ⟨_, keeps_runShuffleResumable hsha hsame hrun⟩

/-- A hash without collisions. -/
def spell (bs : BlobData) : String := String.ofList (bs.map fun b => Char.ofNat b.toNat)

theorem spell_injective : Function.Injective spell := by
  have hnumber : ∀ n < 256, (Char.ofNat n).toNat = n := by decide +kernel
  have hchar : Function.Injective fun b : UInt8 => Char.ofNat b.toNat := by
    intro a b h
    have hnat := congrArg Char.toNat h
    dsimp only at hnat
    rw [hnumber _ a.toNat_lt, hnumber _ b.toNat_lt] at hnat
    exact UInt8.toNat.inj hnat
  intro xs ys h
  exact List.map_injective_iff.mpr hchar (String.ofList_inj.mp h)

def wholeFile : Partition := ⟨"f", "", 0, 1, none, none, none⟩

def emits (ref : String) (payload : BlobData) : OpSpec StageProcess :=
  ⟨.ref, ref, [], fun _ _ => .ok payload⟩

/-- A map stage of one task, and a stage that gathers it. -/
def gathering (source : OpSpec StageProcess) : ShuffleRun where
  plan := ⟨[], [⟨"map_write", [], source, .nil, [⟨0, wholeFile⟩]⟩,
    ⟨"gather", [0], ⟨.ref, "m:join", [], fun _ inputs => .ok inputs.flatten⟩, .nil,
      [⟨0, wholeFile⟩]⟩]⟩
  node := none
  environment := []

/-- The store a finished run leaves. -/
def storeOf (run : ShuffleRun) (d : Disk) : Disk :=
  (exec (storeStep spell StageCall.result) (run.runShuffleResumable spell) d).2

theorem arrives_storeOf (run : ShuffleRun) (d : Disk) (hashes : List String)
    (h : (exec (storeStep spell StageCall.result) (run.runShuffleResumable spell) d).1.toOption.map
      (·.value) = some hashes) : ∃ report,
    Arrives (storeWorld spell StageCall.result) (run.runShuffleResumable spell) d
      (.ret ⟨hashes, report⟩) (storeOf run d) := by
  unfold storeOf
  cases hrun : exec (storeStep spell StageCall.result) (run.runShuffleResumable spell) d with
  | mk outcome d' =>
      rw [hrun] at h
      cases outcome with
      | error e => cases h
      | ok result =>
          obtain ⟨value, report⟩ := result
          obtain rfl := Option.some.inj h
          exact ⟨report, arrives_exec (storeStep_answers _ _) hrun⟩

/-- What an earlier run would store for a partition under an id of this run, this run would too. -/
def SamePartials {V : Type} (sha : BlobData → String) (run : ResumableRun V) : EarlierRun → Prop
  | .resumable earlier => ∀ q ∈ earlier.plan.partitions, ∀ part ∈ run.plan.partitions,
      ∀ taskId data, earlier.plan.taskId sha q = .ok taskId → run.plan.taskId sha part = .ok taskId →
        earlier.stored q = some data → run.stored part = some data
  | .shuffle _ => True

/-- A run would store what it would store, its partitions being whole. -/
theorem samePartials_self {V : Type} (hsha : Function.Injective sha) {run : ResumableRun V}
    (hwhole : ∀ part ∈ run.plan.partitions, part.WholeStep) :
    SamePartials sha run (.resumable run) := by
  intro q hq part hpart taskId data hid hid' hdata
  obtain ⟨-, -, hkey⟩ := DurablePlan.taskId_inj hsha hid hid'
  rw [← Partition.eq_of_jsonKey (hwhole q hq) (hwhole part hpart) hkey, hdata]

/-- A run that reads the journal of this store folds each partial once, counts each partition, and
works only where the store has no result to use. -/
structure ExactlyOnce {V : Type} (sha : BlobData → String) (run : ResumableRun V) (d : Disk) :
    Prop where
  value : ∀ result d',
    Arrives (storeWorld sha run.runOne) (run.resume sha d.completed) d (.ret result) d' →
    result.report.stopped = none → run.plainValue = .ok result.value
  counted : ∀ result d',
    Arrives (storeWorld sha run.runOne) (run.resume sha d.completed) d (.ret result) d' →
    result.report.stopped = none →
    result.report.executed + result.report.skipped + result.report.dead = run.plan.partitions.length
  neverAgain : ∀ part next d' taskId,
    Arrives (storeWorld sha run.runOne) (run.resume sha d.completed) d (.ask (.call part) next) d' →
    run.plan.taskId sha part = .ok taskId → ¬ d'.Stored sha taskId
  recomputed : ∀ digest next d',
    Arrives (storeWorld sha run.runOne) (run.resume sha d.completed) d (.ask (.get digest) next) d' →
    ∃ part ∈ run.plan.partitions, ∃ after, next none = .ask (.call part) after

def byteCodec : PartialCodec UInt8 where
  encode value := [value]
  decode data :=
    match data with
    | [value] => .ok value
    | _ => .error (valueError "not one byte")
  faithful _ := rfl

/-- A plan that counts its partitions. -/
def counting (partitions : List Partition) : ResumableRun UInt8 where
  plan := ⟨[], ⟨.ref, "m:one", [], fun _ => .ok 1⟩, ⟨.ref, "m:add", [], fun a b => .ok (a + b)⟩,
    ⟨.ref, "m:zero", [], .ok 0⟩, partitions, none, none⟩
  codec := byteCodec
  retry := none
  errorBudget := none
  node := none
  environment := []

/-- The work a program asks for, when that is what it asks for. -/
def callOf {ω β α : Type} : StoreScript ω β α → Option ω
  | .ask (.call work) _ => some work
  | _ => none

theorem ask_of_callOf {ω β α : Type} {p : StoreScript ω β α} {work : ω}
    (h : callOf p = some work) : ∃ next, p = .ask (.call work) next := by
  cases p with
  | ask q next =>
      cases q with
      | call work' =>
          obtain rfl := Option.some.inj h
          exact ⟨next, rfl⟩
      | _ => cases h
  | _ => cases h

/-- Whether a task is journaled with an intact blob. -/
def Disk.isStored (sha : BlobData → String) (d : Disk) (taskId : String) : Bool :=
  (d.completed.get taskId).any fun entry =>
    (d.objects entry.blob).any fun data => sha data = entry.blob

theorem stored_of_isStored {taskId : String} (h : d.isStored sha taskId = true) :
    d.Stored sha taskId := by
  unfold Disk.isStored at h
  rw [Option.any_eq_true] at h
  obtain ⟨entry, hentry, h⟩ := h
  rw [Option.any_eq_true] at h
  obtain ⟨data, hdata, h⟩ := h
  exact ⟨entry, hentry, data, hdata, of_decide_eq_true h⟩

/-- The partition twice: the program and the store after its first result is recorded. -/
def afterFirst : StoreScript Partition UInt8 (ResumeResult UInt8) × Disk :=
  execFor (storeStep spell (counting [wholeFile, wholeFile]).runOne) 4
    ((counting [wholeFile, wholeFile]).resume spell Disk.empty.completed) Disk.empty

end Graphed
