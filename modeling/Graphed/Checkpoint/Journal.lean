import Graphed.Library.Json
import Mathlib.Data.List.Sort

/-!
# The journal of a checkpoint store

A store appends a line for each completed task to its writer's journal and one for each failure to
its dead-letter log, and replays them. A crash leaves a part of a line. A part left at the end of a
file is skipped; but a line appended after it is read as one with it, and lost.
-/

namespace Graphed

open JsonText

structure JournalEntry where
  taskId : String
  partition : String
  blob : String
  stage : String
  deps : List String
deriving DecidableEq

/-! ### Lines -/

/-- A record is a dict: its items in the order of their keys, which is how it is written. -/
abbrev JsonRecord := Fields

def recordLine (record : JsonRecord) : List Char := dump (.obj record) ++ ['\n']

/-- A parsed record, none for a torn one. -/
def parseRecord (raw : List Char) : Option Value :=
  match loads raw with
  | some (.word .null) => none
  | parsed => parsed

/-- Every line ending read as a newline. -/
def universalNewlines : List Char → List Char
  | [] => []
  | '\r' :: '\n' :: cs => '\n' :: universalNewlines cs
  | '\r' :: cs => '\n' :: universalNewlines cs
  | c :: cs => c :: universalNewlines cs

/-- The lines of a text, each with its newline. -/
def linesOf : List Char → List (List Char)
  | [] => []
  | c :: cs =>
      if c = '\n' then [c] :: linesOf cs
      else
        match linesOf cs with
        | [] => [[c]]
        | line :: lines => (c :: line) :: lines

def readLines (text : List Char) : List Value :=
  (linesOf (universalNewlines text)).filterMap parseRecord

/-! ### Records -/

def textValue (s : String) : Value := .str s.toList

def textItems : List String → Items
  | [] => .nil
  | s :: rest => .cons (textValue s) (textItems rest)

/-- Stage and deps are written only when set. -/
def doneRecord (taskId partition blob stage : String) (deps : List String) : JsonRecord :=
  let identified := Fields.cons "task_id".toList (textValue taskId) .nil
  let staged :=
    if stage = "" then identified else .cons "stage".toList (textValue stage) identified
  let placed := Fields.cons "partition".toList (textValue partition) staged
  let joined := if deps = [] then placed else .cons "deps".toList (.arr (textItems deps)) placed
  .cons "blob".toList (textValue blob) joined

/-- The item of a dict; of several with one key, the last read. -/
def getItem (key : String) : Fields → Option Value
  | .nil => none
  | .cons k v rest => (getItem key rest).or (if k = key.toList then some v else none)

/-- What `str` gives. The store writes texts only where it is asked for. -/
def strOf : Value → String
  | .str s => String.ofList s
  | .num n => String.ofList n.text
  | .word .null => "None"
  | .word .true => "True"
  | .word .false => "False"
  | .word .nan => "nan"
  | .word .infinity => "inf"
  | .word .negInfinity => "-inf"
  | v => String.ofList (dump v)

def strItems : Items → List String
  | .nil => []
  | .cons v rest => strOf v :: strItems rest

/-! ### Replay -/

/-- What `completed` returns: the entries by task id, and the environment records set aside. -/
structure Completed where
  entries : List (String × JournalEntry)
  environments : List JournalEntry

namespace Completed

def get (done : Completed) (taskId : String) : Option JournalEntry := done.entries.lookup taskId

def set (done : Completed) (entry : JournalEntry) : Completed :=
  { done with entries := (entry.taskId, entry) :: done.entries }

end Completed

/-- The entry of a record whose blob is a text. -/
def entryOf (record : Fields) (blob : String) : JournalEntry where
  taskId := ((getItem "task_id" record).map strOf).getD ""
  partition := ((getItem "partition" record).map strOf).getD ""
  blob := blob
  stage := ((getItem "stage" record).map strOf).getD ""
  deps :=
    match getItem "deps" record with
    | some (.arr items) => strItems items
    | _ => []

/-- Replay one record. A record that is no dict has no `get`. -/
def replayOne (present : String → Bool) (done : Completed) : Value → Except String Completed
  | .obj record =>
      match getItem "blob" record with
      | some (.str blob) =>
          if present (String.ofList blob) then
            let entry := entryOf record (String.ofList blob)
            if entry.stage = "environment" then
              .ok { done with environments := done.environments ++ [entry] }
            else .ok (done.set entry)
          else .ok done
      | _ => .ok done
  | _ => .error "AttributeError"

def replay (records : List Value) (present : String → Bool) : Except String Completed :=
  records.foldlM (replayOne present) ⟨[], []⟩

/-! ### The directory -/

/-- The files of a store: their names and what they hold. -/
structure Dir where
  names : List String
  text : String → List Char

namespace Dir

def empty : Dir := ⟨[], fun _ => []⟩

/-- Write at the end of a file, made when it is not there. -/
def append (d : Dir) (file : String) (written : List Char) : Dir where
  names := if file ∈ d.names then d.names else d.names ++ [file]
  text f := if f = file then d.text f ++ written else d.text f

end Dir

def journalName (node : Option String) : String :=
  match node with
  | none => "journal.log"
  | some node => "journal." ++ node ++ ".log"

def environmentJournal : String := "journal.environment.log"

def deadLetterLog : String := "dead_letter.log"

/-- The names that match `journal*.log`. -/
def isJournal (name : String) : Bool :=
  "journal".toList.isPrefixOf name.toList && ".log".toList.isSuffixOf (name.toList.drop 7)

/-- The journals, in the order of their names. -/
def journals (d : Dir) : List String :=
  (d.names.filter isJournal).insertionSort (· ≤ ·)

def completed (d : Dir) (present : String → Bool) : Except String Completed :=
  replay ((journals d).flatMap fun name => readLines (d.text name)) present

def deadLetters (d : Dir) : List Value := readLines (d.text deadLetterLog)

/-! ### Appends -/

/-- A call that appends a record. -/
inductive Append where
  | recordDone (node : Option String) (taskId partition blob stage : String) (deps : List String)
  | recordEnvironment (taskId blob : String)
  | recordDead (descriptor : JsonRecord)

namespace Append

def file : Append → String
  | recordDone node .. => journalName node
  | recordEnvironment .. => environmentJournal
  | recordDead _ => deadLetterLog

def record : Append → JsonRecord
  | recordDone _ taskId partition blob stage deps => doneRecord taskId partition blob stage deps
  | recordEnvironment taskId blob => doneRecord taskId "" blob "environment" []
  | recordDead descriptor => descriptor

end Append

/-- How an append ended: it returned, or crashed with a part of its line written. -/
inductive Outcome where
  | returned
  | torn (written : Nat)

def written (a : Append) : Outcome → List Char
  | .returned => recordLine a.record
  | .torn n => (recordLine a.record).take n

abbrev History := List (Append × Outcome)

def Dir.after (d : Dir) (x : Append × Outcome) : Dir := d.append x.1.file (written x.1 x.2)

/-- The directory after a history of appends. -/
def storeAfter (h : History) : Dir := h.foldl Dir.after Dir.empty

/-! ### Reading lines back -/

theorem printable_ne_newline {cs : List Char} (h : cs.all isPrintable = true) :
    '\n' ∉ cs ∧ '\r' ∉ cs := by
  rw [List.all_eq_true] at h
  constructor
  · intro hmem
    exact absurd (h _ hmem) (by decide)
  · intro hmem
    exact absurd (h _ hmem) (by decide)

theorem universalNewlines_id {cs : List Char} (h : '\r' ∉ cs) : universalNewlines cs = cs := by
  induction cs with
  | nil => rfl
  | cons c cs ih =>
      rw [List.mem_cons, not_or] at h
      rw [universalNewlines, ih h.2]
      · rintro _ rfl
        exact absurd rfl h.1
      · rintro rfl
        exact absurd rfl h.1

theorem linesOf_line {cs : List Char} (h : '\n' ∉ cs) (rest : List Char) :
    linesOf (cs ++ '\n' :: rest) = (cs ++ ['\n']) :: linesOf rest := by
  induction cs with
  | nil => rfl
  | cons c cs ih =>
      rw [List.mem_cons, not_or] at h
      rw [List.cons_append, linesOf, if_neg (fun hc => h.1 hc.symm), ih h.2]
      rfl

theorem linesOf_tail {cs : List Char} (h : '\n' ∉ cs) (hne : cs ≠ []) : linesOf cs = [cs] := by
  induction cs with
  | nil => exact absurd rfl hne
  | cons c cs ih =>
      rw [List.mem_cons, not_or] at h
      rw [linesOf, if_neg (fun hc => h.1 hc.symm)]
      cases cs with
      | nil => rfl
      | cons d cs => rw [ih h.2 (List.cons_ne_nil _ _)]

/-- A part of a line, cut before the end of its JSON text. -/
def TornPart (cs : List Char) : Prop :=
  cs = [] ∨ ∃ record rest, rest ≠ [] ∧ dump (.obj record) = cs ++ rest

theorem TornPart.printable {cs : List Char} (h : TornPart cs) : cs.all isPrintable = true := by
  rcases h with rfl | ⟨record, rest, -, htext⟩
  · rfl
  · have hall := dump_printable (.obj record)
    rw [htext, List.all_append, Bool.and_eq_true_iff] at hall
    exact hall.1

theorem parseRecord_line (record : JsonRecord) :
    parseRecord (recordLine record) = some (.obj record) := by
  unfold parseRecord recordLine
  rw [loads_line]

theorem parseRecord_torn {cs : List Char} (h : TornPart cs) : parseRecord cs = none := by
  unfold parseRecord
  rcases h with rfl | ⟨record, rest, hrest, htext⟩
  · rfl
  · rw [loads_of_torn hrest htext]

theorem linesOf_records (records : List JsonRecord) {tail : List Char} (htail : TornPart tail) :
    (linesOf (records.flatMap recordLine ++ tail)).filterMap parseRecord =
      records.map Value.obj := by
  induction records with
  | nil =>
      rw [List.flatMap_nil, List.nil_append]
      by_cases hne : tail = []
      · subst hne
        rfl
      · rw [linesOf_tail (printable_ne_newline htail.printable).1 hne, List.filterMap_cons,
          parseRecord_torn htail]
        rfl
  | cons record records ih =>
      have hline : linesOf (recordLine record ++ (records.flatMap recordLine ++ tail)) =
          recordLine record :: linesOf (records.flatMap recordLine ++ tail) := by
        unfold recordLine
        rw [List.append_assoc, List.singleton_append,
          linesOf_line (printable_ne_newline (dump_printable _)).1]
      rw [List.flatMap_cons, List.append_assoc, hline, List.filterMap_cons, parseRecord_line, ih,
        List.map_cons]

/-- Whole lines are read back, and a torn part after them is skipped. -/
theorem readLines_records (records : List JsonRecord) {tail : List Char}
    (htail : TornPart tail) :
    readLines (records.flatMap recordLine ++ tail) = records.map Value.obj := by
  have hnone : '\r' ∉ records.flatMap recordLine ++ tail := by
    intro hmem
    rcases List.mem_append.mp hmem with hlines | hlast
    · obtain ⟨record, -, hin⟩ := List.mem_flatMap.mp hlines
      unfold recordLine at hin
      rcases List.mem_append.mp hin with hdump | hend
      · exact (printable_ne_newline (dump_printable _)).2 hdump
      · exact absurd (List.mem_singleton.mp hend) (by decide)
    · exact (printable_ne_newline htail.printable).2 hlast
  unfold readLines
  rw [universalNewlines_id hnone]
  exact linesOf_records records htail

/-! ### Clean histories -/

/-- A file that an append can start a line in. -/
def EndsLine (cs : List Char) : Prop := cs = [] ∨ cs.getLast? = some '\n'

/-- Every append finds its file empty or at the end of a line, and a crash cuts the JSON text of
its line. -/
def Clean : Dir → History → Prop
  | _, [] => True
  | d, (a, .returned) :: h => EndsLine (d.text a.file) ∧ Clean (d.after (a, .returned)) h
  | d, (a, .torn n) :: h => EndsLine (d.text a.file) ∧ n < (dump (.obj a.record)).length ∧
      Clean (d.after (a, .torn n)) h

/-- The appends to a file that returned. -/
def returnedTo (h : History) (file : String) : List Append :=
  h.filterMap fun x =>
    match x.2 with
    | .returned => if x.1.file = file then some x.1 else none
    | .torn _ => none

theorem TornPart.nil_of_endsLine {lines tail : List Char} (htail : TornPart tail)
    (hend : EndsLine (lines ++ tail)) : tail = [] := by
  by_contra hne
  have hlast : (lines ++ tail).getLast? = some '\n' := by
    refine hend.resolve_left ?_
    intro hnil
    exact hne (List.append_eq_nil_iff.mp hnil).2
  rw [List.getLast?_append_of_ne_nil _ hne] at hlast
  exact (printable_ne_newline htail.printable).1 (List.mem_of_getLast? hlast)

/-- The records of the appends that returned, and a torn part at most. -/
def Holds (d : Dir) (records : String → List JsonRecord) : Prop :=
  ∀ file, ∃ tail, d.text file = (records file).flatMap recordLine ++ tail ∧ TornPart tail

/-- One append keeps what its files hold. -/
theorem holds_step {d : Dir} {records : String → List JsonRecord} (hholds : Holds d records)
    {a : Append} (hend : EndsLine (d.text a.file)) : Holds (d.after (a, .returned))
      (fun file => records file ++ if a.file = file then [a.record] else []) := by
  intro file
  obtain ⟨tail, htext, htail⟩ := hholds file
  by_cases hfile : a.file = file
  · subst hfile
    rw [htext] at hend
    obtain rfl := htail.nil_of_endsLine hend
    refine ⟨[], ?_, Or.inl rfl⟩
    simp [Dir.after, Dir.append, htext, written]
  · refine ⟨tail, ?_, htail⟩
    simp [Dir.after, Dir.append, htext, hfile, Ne.symm hfile]

theorem holds_torn {d : Dir} {records : String → List JsonRecord} (hholds : Holds d records)
    {a : Append} {n : Nat} (hend : EndsLine (d.text a.file))
    (hn : n < (dump (.obj a.record)).length) : Holds (d.after (a, .torn n)) records := by
  intro file
  obtain ⟨tail, htext, htail⟩ := hholds file
  by_cases hfile : a.file = file
  · subst hfile
    rw [htext] at hend
    obtain rfl := htail.nil_of_endsLine hend
    refine ⟨(dump (.obj a.record)).take n, ?_, ?_⟩
    · simp [Dir.after, Dir.append, htext, written, recordLine, List.take_append_of_le_length hn.le]
    · refine Or.inr ⟨a.record, (dump (.obj a.record)).drop n, ?_, ?_⟩
      · rw [Ne, List.drop_eq_nil_iff]
        omega
      · exact (List.take_append_drop n _).symm
  · refine ⟨tail, ?_, htail⟩
    simp [Dir.after, Dir.append, htext, Ne.symm hfile]

/-- By induction on the history, from any directory. -/
theorem holds_of_clean {d : Dir} {records : String → List JsonRecord} (hholds : Holds d records)
    {h : History} (hclean : Clean d h) : Holds (h.foldl Dir.after d)
      (fun file => records file ++ (returnedTo h file).map Append.record) := by
  induction h generalizing d records with
  | nil => simpa [returnedTo] using hholds
  | cons x h ih =>
      obtain ⟨a, o⟩ := x
      cases o with
      | returned =>
          obtain ⟨hend, hrest⟩ := hclean
          have hnext := ih (holds_step hholds hend) hrest
          have hrecords : (fun file => (records file ++ if a.file = file then [a.record] else []) ++
              (returnedTo h file).map Append.record) = fun file => records file ++
                (returnedTo ((a, Outcome.returned) :: h) file).map Append.record := by
            funext file
            by_cases hfile : a.file = file <;> simp [returnedTo, hfile]
          rw [← hrecords]
          exact hnext
      | torn n =>
          obtain ⟨hend, hn, hrest⟩ := hclean
          exact ih (holds_torn hholds hend hn) hrest

/-! ### Replaying what returned -/

/-- The entry an append to a journal records. -/
def Append.entry : Append → Option JournalEntry
  | recordDone _ taskId partition blob stage deps => some ⟨taskId, partition, blob, stage, deps⟩
  | recordEnvironment taskId blob => some ⟨taskId, "", blob, "environment", []⟩
  | recordDead _ => none

/-- Replaying an entry. -/
def Completed.add (present : String → Bool) (done : Completed) (entry : JournalEntry) : Completed :=
  if present entry.blob then
    if entry.stage = "environment" then
      { done with environments := done.environments ++ [entry] }
    else done.set entry
  else done

theorem strItems_textItems (deps : List String) : strItems (textItems deps) = deps := by
  induction deps with
  | nil => rfl
  | cons s rest ih => rw [textItems, strItems, ih, textValue, strOf, String.ofList_toList]

theorem getItem_blob (taskId partition blob stage : String) (deps : List String) :
    getItem "blob" (doneRecord taskId partition blob stage deps) = some (textValue blob) := by
  unfold doneRecord
  split_ifs <;> rfl

/-- A record read back is the entry it was written for. -/
theorem entryOf_doneRecord (taskId partition blob stage : String) (deps : List String) :
    entryOf (doneRecord taskId partition blob stage deps) blob =
      ⟨taskId, partition, blob, stage, deps⟩ := by
  have htask : getItem "task_id" (doneRecord taskId partition blob stage deps) =
      some (textValue taskId) := by
    unfold doneRecord
    split_ifs <;> rfl
  have hpartition : getItem "partition" (doneRecord taskId partition blob stage deps) =
      some (textValue partition) := by
    unfold doneRecord
    split_ifs <;> rfl
  have hstage : getItem "stage" (doneRecord taskId partition blob stage deps) =
      if stage = "" then none else some (textValue stage) := by
    unfold doneRecord
    split_ifs <;> rfl
  have hdeps : getItem "deps" (doneRecord taskId partition blob stage deps) =
      if deps = [] then none else some (.arr (textItems deps)) := by
    unfold doneRecord
    split_ifs <;> rfl
  unfold entryOf
  rw [htask, hpartition, hstage, hdeps]
  have htext : ∀ s, strOf (textValue s) = s := fun s => String.ofList_toList
  by_cases hs : stage = "" <;> by_cases hd : deps = [] <;>
    simp [hs, hd, htext, strItems_textItems]

theorem replayOne_entry (present : String → Bool) (done : Completed) {a : Append}
    {entry : JournalEntry} (hentry : a.entry = some entry) :
    replayOne present done (.obj a.record) = .ok (done.add present entry) := by
  have hdone : ∀ taskId partition blob stage deps, replayOne present done
      (.obj (doneRecord taskId partition blob stage deps)) =
        .ok (done.add present ⟨taskId, partition, blob, stage, deps⟩) := by
    intro taskId partition blob stage deps
    unfold replayOne Completed.add
    simp only [getItem_blob, textValue, String.ofList_toList, entryOf_doneRecord]
    split_ifs <;> rfl
  cases a with
  | recordDone node taskId partition blob stage deps =>
      obtain rfl := Option.some.inj hentry
      exact hdone ..
  | recordEnvironment taskId blob =>
      obtain rfl := Option.some.inj hentry
      exact hdone ..
  | recordDead descriptor => cases hentry

theorem replay_entries (present : String → Bool) (done : Completed) (appends : List Append)
    (hall : ∀ a ∈ appends, a.entry.isSome) :
    (appends.map fun a => Value.obj a.record).foldlM (replayOne present) done =
      .ok ((appends.filterMap Append.entry).foldl (Completed.add present) done) := by
  induction appends generalizing done with
  | nil => rfl
  | cons a appends ih =>
      obtain ⟨entry, hentry⟩ := Option.isSome_iff_exists.mp (hall a List.mem_cons_self)
      rw [List.map_cons, List.foldlM_cons, replayOne_entry present done hentry,
        List.filterMap_cons, hentry]
      exact ih _ fun b hb => hall b (List.mem_cons_of_mem _ hb)

/-- An entry counts for a task when its blob is present and it is no environment's. -/
def counts (present : String → Bool) (taskId : String) (entry : JournalEntry) : Bool :=
  entry.taskId = taskId && present entry.blob && entry.stage ≠ "environment"

theorem get_add (present : String → Bool) (done : Completed) (entry : JournalEntry)
    (taskId : String) : (done.add present entry).get taskId =
      if counts present taskId entry then some entry else done.get taskId := by
  unfold Completed.add counts Completed.set Completed.get
  by_cases hpresent : present entry.blob = true
  · by_cases hstage : entry.stage = "environment"
    · simp [hpresent, hstage]
    · rw [if_pos hpresent, if_neg hstage]
      by_cases htask : taskId = entry.taskId
      · subst htask
        simp [hpresent, hstage]
      · have hne : (taskId == entry.taskId) = false := by simpa using htask
        rw [List.lookup_cons, hne, if_neg]
        simp [Ne.symm htask]
  · simp [hpresent]

/-- The last entry that counts wins. -/
theorem get_foldl (present : String → Bool) (done : Completed) (entries : List JournalEntry)
    (taskId : String) : (entries.foldl (Completed.add present) done).get taskId =
      ((entries.filter (counts present taskId)).getLast?).or (done.get taskId) := by
  induction entries generalizing done with
  | nil => rfl
  | cons entry entries ih =>
      rw [List.foldl_cons, ih, get_add, List.filter_cons]
      by_cases hcounts : counts present taskId entry = true
      · rw [if_pos hcounts, if_pos hcounts, List.getLast?_cons]
        cases (entries.filter (counts present taskId)).getLast? <;> rfl
      · rw [if_neg hcounts, if_neg hcounts]

theorem environments_foldl (present : String → Bool) (done : Completed)
    (entries : List JournalEntry) : (entries.foldl (Completed.add present) done).environments =
      done.environments ++ entries.filter fun e => present e.blob && e.stage = "environment" := by
  induction entries generalizing done with
  | nil => simp
  | cons entry entries ih =>
      rw [List.foldl_cons, ih, List.filter_cons]
      unfold Completed.add Completed.set
      by_cases hpresent : present entry.blob = true <;>
        by_cases hstage : entry.stage = "environment" <;> simp [hpresent, hstage]

/-! ### What a store gives back -/

/-- The entries whose appends returned, the journals in the order of their names. -/
def journalled (h : History) : List JournalEntry :=
  ((journals (storeAfter h)).flatMap (returnedTo h)).filterMap Append.entry

/-- The descriptors whose appends returned. -/
def failures (h : History) : List Value :=
  h.filterMap fun x =>
    match x with
    | (.recordDead descriptor, .returned) => some (.obj descriptor)
    | _ => none

/-- A store loses no append that returned, and reads none that did not. -/
structure LosesNothing (h : History) (present : String → Bool) : Prop where
  completed : ∃ done, completed (storeAfter h) present = .ok done ∧
    (∀ taskId, done.get taskId = ((journalled h).filter (counts present taskId)).getLast?) ∧
    done.environments =
      (journalled h).filter fun e => present e.blob && e.stage = "environment"
  everyJournal : (journals (storeAfter h)).Nodup ∧
    ∀ x ∈ h, x.1.entry.isSome → x.1.file ∈ journals (storeAfter h)
  deadLetters : deadLetters (storeAfter h) = failures h

theorem isJournal_file {a : Append} (ha : a.entry.isSome) : isJournal a.file = true := by
  cases a with
  | recordDone node taskId partition blob stage deps =>
      cases node with
      | none =>
          change isJournal "journal.log" = true
          decide
      | some node =>
          unfold isJournal Append.file journalName
          rw [Bool.and_eq_true, List.isPrefixOf_iff_prefix, List.isSuffixOf_iff_suffix]
          simp only [String.toList_append, List.append_assoc]
          refine ⟨⟨'.' :: (node.toList ++ ".log".toList), rfl⟩, ?_⟩
          exact ⟨'.' :: node.toList, rfl⟩
  | recordEnvironment taskId blob =>
      change isJournal environmentJournal = true
      decide
  | recordDead descriptor => cases ha

theorem entry_of_isJournal {a : Append} (ha : isJournal a.file = true) : a.entry.isSome := by
  cases a with
  | recordDone node taskId partition blob stage deps => rfl
  | recordEnvironment taskId blob => rfl
  | recordDead descriptor =>
      change isJournal deadLetterLog = true at ha
      exact absurd ha (by decide)

theorem names_after {d : Dir} {h : History} (hnodup : d.names.Nodup) :
    (h.foldl Dir.after d).names.Nodup ∧
      ∀ name, name ∈ (h.foldl Dir.after d).names ↔ name ∈ d.names ∨ ∃ x ∈ h, x.1.file = name := by
  induction h generalizing d with
  | nil => exact ⟨hnodup, by simp⟩
  | cons x h ih =>
      have hmem : ∀ name, name ∈ (d.after x).names ↔ name ∈ d.names ∨ x.1.file = name := by
        intro name
        unfold Dir.after Dir.append
        dsimp only
        split
        · rename_i hin
          constructor
          · exact Or.inl
          · rintro (hname | rfl)
            · exact hname
            · exact hin
        · rw [List.mem_append, List.mem_singleton]
          tauto
      have hnext : (d.after x).names.Nodup := by
        unfold Dir.after Dir.append
        dsimp only
        split
        · exact hnodup
        · rename_i hin
          exact List.Nodup.append hnodup (List.nodup_singleton _) (by simpa using hin)
      obtain ⟨hnames, hiff⟩ := ih hnext
      refine ⟨hnames, ?_⟩
      intro name
      rw [List.foldl_cons, hiff, hmem]
      simp only [List.mem_cons, exists_eq_or_imp]
      tauto

theorem failures_eq (h : History) :
    (returnedTo h deadLetterLog).map (fun a => Value.obj a.record) = failures h := by
  unfold returnedTo failures
  rw [List.map_filterMap]
  apply List.filterMap_congr
  rintro ⟨a, o⟩ _
  cases o with
  | torn n => cases a <;> rfl
  | returned =>
      cases a with
      | recordDead descriptor => rfl
      | recordEnvironment taskId blob => rfl
      | recordDone node taskId partition blob stage deps =>
          have hne : journalName node ≠ deadLetterLog := by
            intro heq
            have hjournal : isJournal (journalName node) = true :=
              isJournal_file (a := .recordDone node taskId partition blob stage deps) rfl
            rw [heq] at hjournal
            exact absurd hjournal (by decide)
          simp [Append.file, hne]

/-- **In a clean history the journal loses no append that returned.** -/
theorem losesNothing_of_clean (h : History) (present : String → Bool)
    (hclean : Clean Dir.empty h) : LosesNothing h present := by
  have hempty : Holds Dir.empty fun _ => [] := fun file => ⟨[], rfl, Or.inl rfl⟩
  have hholds := holds_of_clean hempty hclean
  have hread : ∀ name, readLines ((storeAfter h).text name) =
      (returnedTo h name).map fun a => Value.obj a.record := by
    intro name
    obtain ⟨tail, htext, htail⟩ := hholds name
    change readLines ((h.foldl Dir.after Dir.empty).text name) = _
    rw [htext, readLines_records _ htail]
    simp
  obtain ⟨hnodup, hnames⟩ := names_after (d := Dir.empty) (h := h) List.nodup_nil
  have hperm : (journals (storeAfter h)).Perm ((storeAfter h).names.filter isJournal) :=
    List.perm_insertionSort _ _
  refine ⟨?_, ⟨?_, ?_⟩, ?_⟩
  · have hall : ∀ a ∈ (journals (storeAfter h)).flatMap (returnedTo h), a.entry.isSome := by
      intro a ha
      obtain ⟨name, hname, hin⟩ := List.mem_flatMap.mp ha
      obtain ⟨x, -, hx⟩ := List.mem_filterMap.mp hin
      have hfile : a.file = name := by
        split at hx
        · split at hx
          · rename_i hf
            obtain rfl := Option.some.inj hx
            exact hf
          · cases hx
        · cases hx
      apply entry_of_isJournal
      rw [hfile]
      exact (List.mem_filter.mp (hperm.mem_iff.mp hname)).2
    refine ⟨(journalled h).foldl (Completed.add present) ⟨[], []⟩, ?_, ?_, ?_⟩
    · unfold Graphed.completed replay
      simp only [hread]
      rw [← List.map_flatMap]
      exact replay_entries present ⟨[], []⟩ _ hall
    · intro taskId
      rw [get_foldl]
      cases ((journalled h).filter (counts present taskId)).getLast? <;> rfl
    · rw [environments_foldl]
      rfl
  · exact hperm.nodup_iff.mpr (hnodup.filter _)
  · intro x hx hentry
    rw [hperm.mem_iff, List.mem_filter]
    exact ⟨(hnames _).mpr (Or.inr ⟨x, hx, rfl⟩), isJournal_file hentry⟩
  · unfold Graphed.deadLetters
    rw [hread, failures_eq]

/-! ### Two appends -/

def firstDone : Append := .recordDone none "t1" "p1" "b1" "" []

def secondDone : Append := .recordDone none "t2" "p2" "b2" "" []

/-- The second append crashes in the middle of its line, and nothing is appended after it. -/
theorem losesNothing_torn_last :
    LosesNothing [(firstDone, .returned), (secondDone, .torn 5)] fun _ => true := by
  apply losesNothing_of_clean
  refine ⟨Or.inl rfl, Or.inr (by decide), by decide, trivial⟩

/-- An append that returns after a crash in the middle of a line is lost. -/
theorem append_after_torn_lost :
    ¬ LosesNothing [(firstDone, .torn 5), (secondDone, .returned)] fun _ => true := by
  rintro ⟨⟨done, hdone, hget, -⟩, -, -⟩
  have hnone : (completed (storeAfter [(firstDone, .torn 5), (secondDone, .returned)])
      fun _ => true).map (fun done => done.get "t2") = .ok none := by rfl
  rw [hdone] at hnone
  have hlost : done.get "t2" = none := Except.ok.inj hnone
  rw [hget "t2"] at hlost
  exact absurd hlost (by decide)

end Graphed
