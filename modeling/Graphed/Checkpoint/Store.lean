import Graphed.Checkpoint.Journal
import Graphed.Execution.Durable
import Graphed.Library.Triples

/-!
# The checkpoint store

Blobs under their hashes, the writers' journals and the dead letters, as runs use them. Blobs may
be lost or corrupted, and a run may be killed in the middle of a write. A blob is written whole or
not at all; a journal line may be cut short, and then the line appended next is lost with it.
-/

namespace Graphed

open Effects

abbrev BlobData := List UInt8

/-! ### Logs -/

/-- How a log ends: with its last line, with a part of a line, or with a line without its end. -/
inductive Tail (E : Type) where
  | ended
  | torn
  | unended (entry : E)

/-- A log, as it is read. -/
structure LogFile (E : Type) where
  lines : List E
  tail : Tail E

namespace LogFile

variable {E : Type} {f f' : LogFile E} {entry e : E}

def empty : LogFile E := ⟨[], .ended⟩

def entries (f : LogFile E) : List E :=
  match f.tail with
  | .unended entry => f.lines ++ [entry]
  | _ => f.lines

/-- An append that returns. Behind a line without its end it is read as one with it. -/
def append (f : LogFile E) (entry : E) : LogFile E :=
  match f.tail with
  | .ended => ⟨f.lines ++ [entry], .ended⟩
  | _ => ⟨f.lines, .ended⟩

/-- What an append cut short may leave. -/
inductive Cut (f : LogFile E) (entry : E) : LogFile E → Prop
  | before : Cut f entry f
  | within : Cut f entry ⟨f.lines, .torn⟩
  | unended : f.tail = .ended → Cut f entry ⟨f.lines, .unended entry⟩
  | after : Cut f entry (f.append entry)

theorem mem_entries_of_mem_lines (h : e ∈ f.lines) : e ∈ f.entries := by
  unfold entries
  cases f.tail with
  | unended entry => exact List.mem_append_left _ h
  | _ => exact h

theorem mem_append (h : e ∈ (f.append entry).entries) : e ∈ f.entries ∨ e = entry := by
  unfold append at h
  cases htail : f.tail with
  | ended =>
      rw [htail] at h
      rcases List.mem_append.mp h with hmem | hmem
      · exact Or.inl (mem_entries_of_mem_lines hmem)
      · exact Or.inr (List.mem_singleton.mp hmem)
  | torn =>
      rw [htail] at h
      exact Or.inl (mem_entries_of_mem_lines h)
  | unended entry' =>
      rw [htail] at h
      exact Or.inl (mem_entries_of_mem_lines h)

theorem Cut.mem (hcut : Cut f entry f') (h : e ∈ f'.entries) : e ∈ f.entries ∨ e = entry := by
  cases hcut with
  | before => exact Or.inl h
  | within => exact Or.inl (mem_entries_of_mem_lines h)
  | unended _ =>
      rcases List.mem_append.mp h with hmem | hmem
      · exact Or.inl (mem_entries_of_mem_lines hmem)
      · exact Or.inr (List.mem_singleton.mp hmem)
  | after => exact mem_append h

/-- A log that ends with its last line keeps what is appended. -/
theorem entries_append (hended : f.tail = .ended) :
    (f.append entry).entries = f.entries ++ [entry] ∧ (f.append entry).tail = .ended := by
  unfold append entries
  rw [hended]
  exact ⟨rfl, rfl⟩

end LogFile

/-! ### The disk -/

/-- What a store holds. `bad` are the blobs its `get` found corrupted. -/
structure Disk where
  objects : String → Option BlobData
  names : List String
  journal : String → LogFile JournalEntry
  dead : LogFile DeadLetter
  bad : List String

namespace Disk

def empty : Disk := ⟨fun _ => none, [], fun _ => .empty, .empty, []⟩

def hasBlob (d : Disk) (digest : String) : Bool := (d.objects digest).isSome

/-- A writer's journal, empty before its first record. -/
def log (d : Disk) (name : String) : LogFile JournalEntry :=
  if name ∈ d.names then d.journal name else .empty

/-- The records of every writer's journal, the journals in the order of their names. -/
def entries (d : Disk) : List JournalEntry :=
  (d.names.insertionSort (· ≤ ·)).flatMap fun name => (d.log name).entries

def completed (d : Disk) : Completed := d.entries.foldl (Completed.add d.hasBlob) ⟨[], []⟩

def setObject (d : Disk) (digest : String) (left : Option BlobData) : Disk :=
  { d with objects := fun name => if name = digest then left else d.objects name }

def setJournal (d : Disk) (name : String) (f : LogFile JournalEntry) : Disk :=
  { d with
    names := if name ∈ d.names then d.names else d.names ++ [name]
    journal := fun n => if n = name then f else d.journal n }

/-- Store a blob. One of the right size that was not found corrupted is left as it is. -/
def put (sha : BlobData → String) (d : Disk) (data : BlobData) : String × Disk :=
  if sha data ∈ d.bad ∨ (d.objects (sha data)).map List.length ≠ some data.length then
    (sha data, { d.setObject (sha data) (some data) with bad := d.bad.filter (· ≠ sha data) })
  else (sha data, d)

/-- The blob of a name, none when its bytes do not hash to it. -/
def get (sha : BlobData → String) (d : Disk) (digest : String) : Option BlobData × Disk :=
  match d.objects digest with
  | none => (none, d)
  | some data =>
      if sha data = digest then (some data, d) else (none, { d with bad := digest :: d.bad })

def record (d : Disk) (name : String) (entry : JournalEntry) : Disk :=
  d.setJournal name ((d.log name).append entry)

/-- The blob is there and hashes to its name. -/
def Intact (sha : BlobData → String) (d : Disk) (digest : String) : Prop :=
  ∃ data, d.objects digest = some data ∧ sha data = digest

/-- The task is journaled, and its blob is intact. -/
def Stored (sha : BlobData → String) (d : Disk) (taskId : String) : Prop :=
  ∃ entry, d.completed.get taskId = some entry ∧ d.Intact sha entry.blob

variable {sha : BlobData → String} {d : Disk} {name digest taskId : String} {entry e : JournalEntry}
  {data : BlobData} {f : LogFile JournalEntry}

theorem mem_entries : e ∈ d.entries ↔ ∃ name, e ∈ (d.log name).entries := by
  unfold entries
  simp only [List.mem_flatMap, (List.perm_insertionSort _ d.names).mem_iff]
  constructor
  · rintro ⟨name, -, he⟩
    exact ⟨name, he⟩
  · rintro ⟨name, he⟩
    refine ⟨name, ?_, he⟩
    by_contra hname
    rw [log, if_neg hname] at he
    cases he

theorem log_setJournal (n : String) : (d.setJournal name f).log n =
    if n = name then f else d.log n := by
  unfold log setJournal
  dsimp only
  by_cases hn : n = name
  · subst hn
    by_cases hin : n ∈ d.names <;> simp [hin]
  · by_cases hname : name ∈ d.names <;> simp [hname, hn]

@[simp]
theorem entries_setObject (left : Option BlobData) :
    (d.setObject digest left).entries = d.entries := rfl

@[simp]
theorem entries_put : (d.put sha data).2.entries = d.entries := by
  unfold put
  split_ifs <;> rfl

@[simp]
theorem put_fst : (d.put sha data).1 = sha data := by
  unfold put
  split_ifs <;> rfl

@[simp]
theorem entries_get : (d.get sha digest).2.entries = d.entries := by
  unfold get
  cases d.objects digest with
  | none => rfl
  | some data => dsimp only; split_ifs <;> rfl

@[simp]
theorem objects_get : (d.get sha digest).2.objects = d.objects := by
  unfold get
  cases d.objects digest with
  | none => rfl
  | some data => dsimp only; split_ifs <;> rfl

theorem get_eq_some : (d.get sha digest).1 = some data ↔
    d.objects digest = some data ∧ sha data = digest := by
  unfold get
  cases d.objects digest with
  | none => simp
  | some data' =>
      dsimp only
      split_ifs with h
      · constructor
        · intro heq
          obtain rfl := Option.some.inj heq
          exact ⟨rfl, h⟩
        · exact fun heq => heq.1
      · constructor
        · intro heq
          cases heq
        · rintro ⟨heq, hsha⟩
          obtain rfl := Option.some.inj heq
          exact absurd hsha h

theorem get_eq_none : (d.get sha digest).1 = none ↔ ¬ d.Intact sha digest := by
  rw [Option.eq_none_iff_forall_ne_some]
  constructor
  · rintro h ⟨data, hdata⟩
    exact h data (get_eq_some.mpr hdata)
  · intro h data heq
    exact h ⟨data, get_eq_some.mp heq⟩

/-- A blob put is intact where it was intact, or is the blob put. -/
theorem intact_put (h : (d.put sha data).2.Intact sha digest) :
    d.Intact sha digest ∨ digest = sha data := by
  unfold put at h
  split_ifs at h with hwrite
  · by_cases heq : digest = sha data
    · exact Or.inr heq
    · obtain ⟨data', hdata, hsha⟩ := h
      exact Or.inl ⟨data', by simpa [setObject, heq] using hdata, hsha⟩
  · exact Or.inl h

theorem mem_entries_setJournal (h : e ∈ (d.setJournal name f).entries) :
    e ∈ d.entries ∨ e ∈ f.entries := by
  obtain ⟨n, he⟩ := mem_entries.mp h
  rw [log_setJournal] at he
  split_ifs at he with hn
  · exact Or.inr he
  · exact Or.inl (mem_entries.mpr ⟨n, he⟩)

/-- What a replay reads of a task is one of its records, and its blob is there. -/
theorem completed_get (h : d.completed.get taskId = some entry) :
    entry ∈ d.entries ∧ entry.taskId = taskId ∧ entry.stage ≠ "environment" ∧
      d.hasBlob entry.blob = true := by
  unfold completed at h
  rw [get_foldl, Option.or_eq_some_iff] at h
  rcases h with h | ⟨-, h⟩
  · have hmem := List.mem_of_getLast? h
    rw [List.mem_filter] at hmem
    obtain ⟨hin, hcounts⟩ := hmem
    unfold counts at hcounts
    simp only [Bool.and_eq_true, decide_eq_true_eq] at hcounts
    exact ⟨hin, hcounts.1.1, hcounts.2, hcounts.1.2⟩
  · cases h

/-- A task with a record whose blob is there is read. -/
theorem completed_get_isSome (hmem : e ∈ d.entries) (hstage : e.stage ≠ "environment")
    (hblob : d.hasBlob e.blob = true) : (d.completed.get e.taskId).isSome := by
  unfold completed
  rw [get_foldl]
  have hin : e ∈ d.entries.filter (counts d.hasBlob e.taskId) := by
    rw [List.mem_filter]
    simp [counts, hmem, hstage, hblob]
  cases hlast : (d.entries.filter (counts d.hasBlob e.taskId)).getLast? with
  | none => exact absurd (List.getLast?_eq_none_iff.mp hlast) (List.ne_nil_of_mem hin)
  | some last => rfl

end Disk

/-! ### What runs ask -/

/-- What a run asks of the store, and the work `ω` it does itself. -/
inductive StoreQuery (ω : Type) where
  | completed
  | checkEnvironment (mine : BlobData)
  | get (digest : String)
  | put (data : BlobData)
  | recordDone (node : Option String) (entry : JournalEntry)
  | recordDead (letter : DeadLetter)
  | deadLetters
  | call (work : ω)

abbrev StoreAnswer (ω β : Type) : StoreQuery ω → Type
  | .completed => Completed
  | .checkEnvironment _ => Except Raised Unit
  | .get _ => Option BlobData
  | .put _ => String
  | .recordDone _ _ => Unit
  | .recordDead _ => Unit
  | .deadLetters => List DeadLetter
  | .call _ => Except Raised β

abbrev StoreScript (ω β α : Type) := Prog (StoreQuery ω) (StoreAnswer ω β) Raised α

/-- The record of an environment. -/
def environmentEntry (taskId blob : String) : JournalEntry := ⟨taskId, "", blob, "environment", []⟩

variable {ω β : Type}

/-- What a query answers and leaves. An environment check may refuse, pass, or record. -/
def storeAnswers (sha : BlobData → String) (result : ω → Except Raised β) (d : Disk) :
    (q : StoreQuery ω) → StoreAnswer ω β q → Disk → Prop
  | .completed, done, d' => done = d.completed ∧ d' = d
  | .checkEnvironment mine, outcome, d' =>
      (∃ bad, d' = { d with bad := bad }) ∨ outcome = .ok () ∧
        ∃ taskId, d' = (d.put sha mine).2.record environmentJournal
          (environmentEntry taskId (sha mine))
  | .get digest, blob, d' => (blob, d') = d.get sha digest
  | .put data, digest, d' => (digest, d') = d.put sha data
  | .recordDone node entry, _, d' => d' = d.record (journalName node) entry
  | .recordDead letter, _, d' => d' = { d with dead := d.dead.append letter }
  | .deadLetters, letters, d' => letters = d.dead.entries ∧ d' = d
  | .call work, outcome, d' => outcome = result work ∧ d' = d

/-- A blob is gone, or its bytes are others. -/
inductive Loss where
  | vanish (digest : String)
  | corrupt (digest : String) (data : BlobData)

def lost (sha : BlobData → String) (d : Disk) : Loss → Disk → Prop
  | .vanish digest, d' => d' = d.setObject digest none
  | .corrupt digest data, d' => sha data ≠ digest ∧ d' = d.setObject digest (some data)

theorem entries_of_lost {sha : BlobData → String} {d d' : Disk} {m : Loss}
    (h : lost sha d m d') : d'.entries = d.entries := by
  cases m with
  | vanish digest =>
      obtain rfl := h
      rfl
  | corrupt digest data =>
      obtain ⟨-, rfl⟩ := h
      rfl

/-- A loss leaves no blob intact that was not. -/
theorem intact_of_lost {sha : BlobData → String} {d d' : Disk} {m : Loss} {digest : String}
    (h : lost sha d m d') (hintact : d'.Intact sha digest) : d.Intact sha digest := by
  obtain ⟨data, hdata, hsha⟩ := hintact
  cases m with
  | vanish name =>
      obtain rfl := h
      unfold Disk.setObject at hdata
      dsimp only at hdata
      split_ifs at hdata
      exact ⟨data, hdata, hsha⟩
  | corrupt name other =>
      obtain ⟨hother, rfl⟩ := h
      unfold Disk.setObject at hdata
      dsimp only at hdata
      split_ifs at hdata with hname
      · obtain rfl := Option.some.inj hdata
        exact absurd (hsha.trans hname) hother
      · exact ⟨data, hdata, hsha⟩

/-- What a query killed in its middle may leave. -/
def storeCut (sha : BlobData → String) (d : Disk) : StoreQuery ω → Disk → Prop
  | .checkEnvironment mine, d' => (∃ bad, d' = { d with bad := bad }) ∨ d' = (d.put sha mine).2 ∨
      ∃ taskId f, ((d.put sha mine).2.log environmentJournal).Cut
        (environmentEntry taskId (sha mine)) f ∧ d' = (d.put sha mine).2.setJournal
          environmentJournal f
  | .get digest, d' => d' = d ∨ d' = (d.get sha digest).2
  | .put data, d' => d' = d ∨ d' = (d.put sha data).2
  | .recordDone node entry, d' => ∃ f, (d.log (journalName node)).Cut entry f ∧
      d' = d.setJournal (journalName node) f
  | .recordDead letter, d' => ∃ f, d.dead.Cut letter f ∧ d' = { d with dead := f }
  | _, d' => d' = d

def storeWorld (sha : BlobData → String) (result : ω → Except Raised β) :
    World (StoreQuery ω) (StoreAnswer ω β) Loss Disk where
  answers := storeAnswers sha result
  moves := lost sha

/-- What a query answers and leaves when the environment passes. -/
def storeStep (sha : BlobData → String) (result : ω → Except Raised β) (d : Disk) :
    (q : StoreQuery ω) → StoreAnswer ω β q × Disk
  | .completed => (d.completed, d)
  | .checkEnvironment _ => (.ok (), d)
  | .get digest => d.get sha digest
  | .put data => d.put sha data
  | .recordDone node entry => ((), d.record (journalName node) entry)
  | .recordDead letter => ((), { d with dead := d.dead.append letter })
  | .deadLetters => (d.dead.entries, d)
  | .call work => (result work, d)

theorem storeStep_answers (sha : BlobData → String) (result : ω → Except Raised β) (d : Disk)
    (q : StoreQuery ω) : storeAnswers sha result d q (storeStep sha result d q).1
      (storeStep sha result d q).2 := by
  cases q with
  | checkEnvironment mine => exact Or.inl ⟨d.bad, rfl⟩
  | completed => exact ⟨rfl, rfl⟩
  | deadLetters => exact ⟨rfl, rfl⟩
  | call work => exact ⟨rfl, rfl⟩
  | _ => rfl

/-! ### Records a run may make -/

/-- Every record of a task says what `L` allows of it. -/
def Truthful (L : String → String → Prop) (d : Disk) : Prop :=
  ∀ e ∈ d.entries, e.stage ≠ "environment" → L e.taskId e.blob

/-- A query that records only what `L` allows. -/
def Licit (L : String → String → Prop) : StoreQuery ω → Prop
  | .recordDone _ entry => L entry.taskId entry.blob
  | _ => True

section Truthful

variable {sha : BlobData → String} {result : ω → Except Raised β} {L : String → String → Prop}
  {d d' : Disk}

theorem truthful_empty : Truthful L Disk.empty := by
  intro e he
  cases he

theorem Truthful.of_entries (h : Truthful L d) (hentries : d'.entries = d.entries) :
    Truthful L d' := by
  unfold Truthful
  rw [hentries]
  exact h

theorem Truthful.setJournal (h : Truthful L d) {name : String} {f : LogFile JournalEntry}
    {entry : JournalEntry} (hf : (d.log name).Cut entry f)
    (hentry : entry.stage ≠ "environment" → L entry.taskId entry.blob) :
    Truthful L (d.setJournal name f) := by
  intro e he hstage
  rcases Disk.mem_entries_setJournal he with hmem | hmem
  · exact h e hmem hstage
  · rcases hf.mem hmem with hold | rfl
    · exact h e (Disk.mem_entries.mpr ⟨name, hold⟩) hstage
    · exact hentry hstage

theorem Truthful.record (h : Truthful L d) {name : String} {entry : JournalEntry}
    (hentry : entry.stage ≠ "environment" → L entry.taskId entry.blob) :
    Truthful L (d.record name entry) := h.setJournal LogFile.Cut.after hentry

theorem Truthful.put (h : Truthful L d) (data : BlobData) : Truthful L (d.put sha data).2 :=
  h.of_entries Disk.entries_put

theorem Truthful.lost {m : Loss} (h : Truthful L d) (hlost : Graphed.lost sha d m d') :
    Truthful L d' := h.of_entries (entries_of_lost hlost)

theorem truthful_stable : Lasts (storeWorld sha result) (Truthful L) :=
  fun _ _ _ h hlost => h.lost hlost

/-- What a run is allowed to record keeps the records truthful. -/
theorem Truthful.answers (h : Truthful L d) {q : StoreQuery ω} {a : StoreAnswer ω β q}
    (hlicit : Licit L q) (hanswer : storeAnswers sha result d q a d') : Truthful L d' := by
  cases q with
  | completed =>
      obtain ⟨-, rfl⟩ := hanswer
      exact h
  | checkEnvironment mine =>
      rcases hanswer with ⟨bad, rfl⟩ | ⟨-, taskId, rfl⟩
      · exact h.of_entries rfl
      · exact (h.put mine).record fun hstage => absurd rfl hstage
  | get digest =>
      obtain rfl := (Prod.mk.inj hanswer).2
      exact h.of_entries Disk.entries_get
  | put data =>
      obtain rfl := (Prod.mk.inj hanswer).2
      exact h.put data
  | recordDone node entry =>
      obtain rfl := hanswer
      exact h.record fun _ => hlicit
  | recordDead letter =>
      obtain rfl := hanswer
      exact h.of_entries rfl
  | deadLetters =>
      obtain ⟨-, rfl⟩ := hanswer
      exact h
  | call work =>
      obtain ⟨-, rfl⟩ := hanswer
      exact h

/-- So does a query killed in its middle. -/
theorem Truthful.cut (h : Truthful L d) {q : StoreQuery ω} (hlicit : Licit L q)
    (hcut : storeCut sha d q d') : Truthful L d' := by
  cases q with
  | checkEnvironment mine =>
      rcases hcut with ⟨bad, rfl⟩ | rfl | ⟨taskId, f, hf, rfl⟩
      · exact h.of_entries rfl
      · exact h.put mine
      · exact (h.put mine).setJournal hf fun hstage => absurd rfl hstage
  | get digest =>
      rcases hcut with rfl | rfl
      · exact h
      · exact h.of_entries Disk.entries_get
  | put data =>
      rcases hcut with rfl | rfl
      · exact h
      · exact h.put data
  | recordDone node entry =>
      obtain ⟨f, hf, rfl⟩ := hcut
      exact h.setJournal hf fun _ => hlicit
  | recordDead letter =>
      obtain ⟨f, -, rfl⟩ := hcut
      exact h.of_entries rfl
  | _ =>
      obtain rfl := hcut
      exact h

/-- A program that records only what `L` allows, while every record says what `L` allows, and
returns what `φ` says. -/
def Keeps {α : Type} (sha : BlobData → String) (result : ω → Except Raised β)
    (L : String → String → Prop) (p : StoreScript ω β α) (φ : α → Prop) : Prop :=
  Triple (storeWorld sha result) (fun _ => Licit L) (Truthful L) p
    fun o d => ∀ a, o = .ok a → Truthful L d ∧ φ a

variable {α γ : Type} {φ : α → Prop} {ψ : γ → Prop}

theorem keeps_stable {o : Except Raised α} :
    Lasts (storeWorld sha result) fun d => ∀ a, o = .ok a → Truthful L d ∧ φ a := by
  intro d m d' h hlost a ha
  exact ⟨truthful_stable d m d' (h a ha).1 hlost, (h a ha).2⟩

theorem keeps_ofExcept {x : Except Raised α} (h : ∀ a, x = .ok a → φ a) :
    Keeps sha result L (Prog.ofExcept x) φ :=
  triple_ofExcept keeps_stable fun _ hd a ha => ⟨hd, h a ha⟩

theorem keeps_pure {a : α} (h : φ a) : Keeps sha result L (pure a) φ := by
  refine triple_ret keeps_stable fun _ hd b hb => ⟨hd, ?_⟩
  obtain rfl := Except.ok.inj hb
  exact h

theorem keeps_raise {e : Raised} : Keeps sha result L (Prog.raise e) φ :=
  triple_raise keeps_stable fun _ _ _ he => by cases he

theorem keeps_bind {p : StoreScript ω β γ} {f : γ → StoreScript ω β α}
    (hp : Keeps sha result L p ψ) (hf : ∀ c, ψ c → Keeps sha result L (f c) φ) :
    Keeps sha result L (p >>= f) φ := by
  refine triple_bind hp ?_ ?_
  · intro c d hd
    obtain ⟨htruthful, hc⟩ := hd c rfl
    exact hf c hc d htruthful
  · intro e d _ a ha
    cases ha

theorem keeps_query {q : StoreQuery ω} {φ : StoreAnswer ω β q → Prop} (hlicit : Licit L q)
    (h : ∀ d a d', Truthful L d → storeAnswers sha result d q a d' → φ a) :
    Keeps sha result L (Prog.query q) φ := by
  refine triple_query truthful_stable (fun _ _ => hlicit) (fun _ => keeps_stable) ?_
  intro d a d' hd hanswer b hb
  obtain rfl := Except.ok.inj hb
  exact ⟨hd.answers hlicit hanswer, h d a d' hd hanswer⟩

theorem Keeps.weaken {p : StoreScript ω β α} {φ' : α → Prop} (h : Keeps sha result L p φ)
    (himp : ∀ a, φ a → φ' a) : Keeps sha result L p φ' :=
  Triple.weaken h (fun _ hd => hd) fun _ _ ho a ha => ⟨(ho a ha).1, himp a (ho a ha).2⟩

/-- The journal a run reads says of each task what `L` allows. -/
theorem keeps_completed : Keeps sha result L (Prog.query StoreQuery.completed)
    fun done => ∀ taskId entry, done.get taskId = some entry → L taskId entry.blob := by
  refine keeps_query trivial ?_
  rintro d done d' hd ⟨rfl, rfl⟩ taskId entry hentry
  obtain ⟨hmem, rfl, hstage, -⟩ := Disk.completed_get hentry
  exact hd entry hmem hstage

theorem keeps_put {data : BlobData} :
    Keeps sha result L (Prog.query (StoreQuery.put data)) fun digest => digest = sha data := by
  refine keeps_query trivial ?_
  intro d digest d' _ hanswer
  exact (Prod.mk.inj hanswer).1.trans Disk.put_fst

theorem keeps_get {digest : String} :
    Keeps sha result L (Prog.query (StoreQuery.get digest))
      fun blob => ∀ data, blob = some data → sha data = digest := by
  refine keeps_query trivial ?_
  intro d blob d' _ hanswer data hdata
  have hget : (d.get sha digest).1 = some data := (Prod.mk.inj hanswer).1.symm.trans hdata
  exact (Disk.get_eq_some.mp hget).2

theorem keeps_call {work : ω} :
    Keeps sha result L (Prog.query (StoreQuery.call work)) fun outcome => outcome = result work :=
  keeps_query trivial fun _ _ _ _ hanswer => hanswer.1

end Truthful

/-! ### Histories of a store -/

/-- A program over the store, whatever its work and values are. -/
structure Job where
  {Work Result Value : Type}
  result : Work → Except Raised Result
  script : StoreScript Work Result Value

/-- What a store holds after jobs, each stopped anywhere or finished, with blobs lost meanwhile. A
store may be opened anew, and then knows of other bad blobs. -/
inductive LeftBy (sha : BlobData → String) : List Job → Disk → Prop
  | fresh : LeftBy sha [] Disk.empty
  | run {jobs : List Job} {job : Job} {d d' : Disk} : LeftBy sha jobs d →
      Stops (storeWorld sha job.result) (storeCut sha) job.script d d' → LeftBy sha (jobs ++ [job]) d'
  | opened {jobs : List Job} {d : Disk} {bad : List String} : LeftBy sha jobs d →
      LeftBy sha jobs { d with bad := bad }
  | lost {jobs : List Job} {d d' : Disk} {m : Loss} : LeftBy sha jobs d → lost sha d m d' →
      LeftBy sha jobs d'

/-- A job asks only what `L` allows while every record says what `L` allows. -/
def Job.Obeys (sha : BlobData → String) (L : String → String → Prop) (job : Job) : Prop :=
  ∃ R, Triple (storeWorld sha job.result) (fun _ => Licit L) (Truthful L) job.script R

/-- **Records stay truthful.** After any history of jobs that obey, every record does. -/
theorem truthful_of_leftBy {sha : BlobData → String} {L : String → String → Prop} {jobs : List Job}
    {d : Disk} (hobeys : ∀ job ∈ jobs, job.Obeys sha L) (h : LeftBy sha jobs d) :
    Truthful L d := by
  induction h with
  | fresh => exact truthful_empty
  | @run jobs job d d' _ hstops ih =>
      have hd : Truthful L d := ih fun j hj => hobeys j (List.mem_append_left _ hj)
      obtain ⟨R, htriple⟩ := hobeys job (List.mem_append_right _ (List.mem_singleton_self job))
      refine htriple.stops truthful_stable ?_ ?_ hd hd hstops
      · intro s q a s' hs hlicit hanswer
        exact hs.answers hlicit hanswer
      · intro s q s' hs hlicit hcut
        exact hs.cut hlicit hcut
  | opened _ ih => exact (ih hobeys).of_entries rfl
  | lost _ hlost ih => exact (ih hobeys).lost hlost

end Graphed
