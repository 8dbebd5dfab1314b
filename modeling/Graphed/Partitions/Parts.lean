import Graphed.Library.Dict
import Graphed.Partitions.Cuts

/-!
# Parts of a write

Each partition of a write derives the index of its part from itself: the base of its file and its step,
which an eager partition finds among the even ranges over its file's rows. The tables of bases and rows
are read off the partitions. Every partition has an index, and no two have one.
-/

namespace Graphed

/-! ### Indices -/

/-- What a file's table entries are filed under. -/
inductive FileKey where
  | uri (uri : String)
  | object (uri tree : String)
deriving DecidableEq

inductive PartError where
  | duplicateInput (key : FileKey)
  | notBlind (p : Partition)
  | noStep (entryStart entryStop n steps : Int)
  | missing (key : FileKey)
deriving DecidableEq

/-- The first key that some earlier one equals. -/
def firstRepeat : List FileKey → List FileKey → Option FileKey
  | _, [] => none
  | seen, key :: keys => if key ∈ seen then some key else firstRepeat (key :: seen) keys

/-- The bases of the files' parts; a file listed twice is refused. -/
def fileBases (keys : List FileKey) (stepsPerFile : Int) :
    Except PartError (List (FileKey × Int)) :=
  match firstRepeat [] keys with
  | some key => .error (.duplicateInput key)
  | none => .ok (keys.zipIdx.map fun key => (key.1, key.2 * stepsPerFile))

def tableItem (table : List (FileKey × Int)) (key : FileKey) : Except PartError Int :=
  match table.lookup key with
  | some v => .ok v
  | none => .error (.missing key)

/-- The first step with this range, if there is one. -/
def stepOf (entryStart entryStop n steps : Int) : Except PartError Int :=
  match (List.range steps.toNat).find? fun (s : Nat) =>
      (stepStart n steps s, stepStart n steps (s + 1)) == (entryStart, entryStop) with
  | some s => .ok s
  | none => .error (.noStep entryStart entryStop n steps)

/-- The base of a blind partition's file and its step. -/
def blindPartIndex (p : Partition) (bases : List (FileKey × Int)) : Except PartError Int :=
  match p.blindStep with
  | none => .error (.notBlind p)
  | some step =>
      match bases.lookup (.object p.uri p.tree) with
      | some base => .ok (base + step)
      | none => do
          let base ← tableItem bases (.uri p.uri)
          .ok (base + step)

/-- The index of a partition of a flat file, against the file's rows. -/
def derivePartIndex (numRows : String → Int) (stepsPerFile : Int) (bases : List (FileKey × Int))
    (p : Partition) : Except PartError Int :=
  if p.blindStep.isSome then blindPartIndex p bases
  else do
    let base ← tableItem bases (.uri p.uri)
    let step ← stepOf p.entryStart p.entryStop (numRows p.uri) stepsPerFile
    .ok (base + step)

/-! ### Tables -/

def fileKey (p : Partition) : FileKey := if p.tree = "" then .uri p.uri else .object p.uri p.tree

/-- The first partition of its file: step zero, or a range from the first entry. -/
def opensFile (p : Partition) : Bool :=
  p.blindStep == some 0 || p.blindStep.isNone && p.entryStart == 0

structure FileTables where
  bases : List (FileKey × Int)
  rows : List (FileKey × Int)

/-- The row count of each file is the stop of its last eager partition. -/
def rowTable (partitions : List Partition) : List (FileKey × Int) :=
  (partitions.filter fun p => p.blindStep.isNone).foldl
    (fun table p => dictUpdate table [(fileKey p, p.entryStop)]) []

def fileTables (partitions : List Partition) (stepsPerFile : Int) : Except PartError FileTables := do
  let bases ← fileBases ((partitions.filter opensFile).map fileKey) stepsPerFile
  .ok ⟨bases, rowTable partitions⟩

/-- The index a reader-backed writer derives. -/
def partIndex (tables : FileTables) (stepsPerFile : Int) (p : Partition) : Except PartError Int :=
  if p.blindStep.isSome then blindPartIndex p tables.bases
  else do
    let base ← tableItem tables.bases (fileKey p)
    let rows ← tableItem tables.rows (fileKey p)
    let step ← stepOf p.entryStart p.entryStop rows stepsPerFile
    .ok (base + step)

/-- The index a writer of data in memory derives. -/
def memoryIndex (memoryRows stepsPerFile : Int) (p : Partition) : Except PartError Int :=
  stepOf p.entryStart p.entryStop memoryRows stepsPerFile

/-! ### Partitions of a source -/

/-- The partitions of one file: blind, or with the even ranges over its rows. -/
def filePartitions (count : String → String → Int) (steps : Int) (openFiles : Bool)
    (file : String × String) : List Partition :=
  if openFiles then
    (eagerRanges (count file.1 file.2) steps).map fun r =>
      ⟨file.1, file.2, r.1, r.2, none, none, none⟩
  else (List.range steps.toNat).filterMap fun (s : Nat) => Partition.blind file.1 file.2 s steps

def memoryPartitions (sourceName : String) (n steps : Int) : List Partition :=
  (eagerRanges n steps).map fun r => ⟨"memory://" ++ sourceName, "", r.1, r.2, none, none, none⟩

/-- A part's file name, its index of five digits or more. -/
def partName (namePrefix : String) (index : Nat) (suffix : String) : String :=
  let digits := Nat.toDigits 10 index
  namePrefix ++ "-" ++ String.ofList (List.replicate (5 - digits.length) '0' ++ digits) ++ suffix

/-! ### The ranges kept -/

variable {n steps : Int}

/-- The steps an eager file keeps. -/
def keptSteps (n steps : Int) : List Nat :=
  let kept := (List.range steps.toNat).filter fun (s : Nat) =>
    decide (stepStart n steps s < stepStart n steps (s + 1))
  if kept.isEmpty then [0] else kept

theorem eagerRanges_eq (hsteps : 1 ≤ steps) : eagerRanges n steps =
    (keptSteps n steps).map fun (s : Nat) => (stepStart n steps s, stepStart n steps (s + 1)) := by
  unfold eagerRanges keptSteps
  dsimp only
  rw [List.filter_map, List.isEmpty_map]
  change (if ((List.range steps.toNat).filter fun (s : Nat) =>
    decide (stepStart n steps s < stepStart n steps (s + 1))).isEmpty then _ else _) = _
  split
  · obtain ⟨k, hk⟩ : ∃ k, steps.toNat = k + 1 := ⟨steps.toNat - 1, by omega⟩
    rw [hk, List.range_succ_eq_map]
    rfl
  · rfl

theorem keptSteps_lt (hsteps : 1 ≤ steps) {s : Nat} (h : s ∈ keptSteps n steps) : s < steps.toNat := by
  unfold keptSteps at h
  dsimp only at h
  split at h
  · obtain rfl := List.mem_singleton.mp h
    omega
  · exact List.mem_range.mp (List.mem_filter.mp h).1

theorem keptSteps_sorted (n steps : Int) : (keptSteps n steps).Pairwise (· < ·) := by
  unfold keptSteps
  dsimp only
  split
  · exact List.pairwise_singleton _ _
  · exact List.pairwise_lt_range.filter _

/-- A file without rows keeps its first step, and any other the steps with rows. -/
theorem keptSteps_cases (hn : 0 ≤ n) (hsteps : 1 ≤ steps) :
    n = 0 ∧ keptSteps n steps = [0] ∨
      0 < n ∧ keptSteps n steps ≠ [] ∧
        ∀ s ∈ keptSteps n steps, stepStart n steps s < stepStart n steps (s + 1) := by
  have hall := flatMap_steps hn hsteps
  unfold keptSteps
  dsimp only
  split
  · rename_i hempty
    refine .inl ⟨?_, rfl⟩
    have hnone : rows 0 n = [] := by
      rw [← hall, List.flatMap_eq_nil_iff]
      intro s hs
      have hdrop := List.filter_eq_nil_iff.mp (List.isEmpty_iff.mp hempty) s hs
      exact rows_of_le (by simpa using hdrop)
    have hlength := congrArg List.length hnone
    rw [length_rows] at hlength
    simp only [List.length_nil] at hlength
    omega
  · rename_i hsome
    have hmem : ∀ s ∈ (List.range steps.toNat).filter fun (s : Nat) =>
        decide (stepStart n steps s < stepStart n steps (s + 1)),
        stepStart n steps s < stepStart n steps (s + 1) :=
      fun s hs => of_decide_eq_true (List.mem_filter.mp hs).2
    have hne := mt List.isEmpty_iff.mpr hsome
    refine .inr ⟨?_, hne, hmem⟩
    obtain ⟨s, hs⟩ := List.exists_mem_of_ne_nil _ hne
    have hlt := List.mem_range.mp (List.mem_filter.mp hs).1
    have hstep := hmem s hs
    have hzero := stepStart_mono hn hsteps (by omega : (0 : Int) ≤ s)
    have hlast := stepStart_mono hn hsteps (by omega : (s : Int) + 1 ≤ steps)
    rw [stepStart_zero] at hzero
    rw [stepStart_last hsteps] at hlast
    omega

/-- **A kept range is traced back to its step.** -/
theorem stepOf_kept (hn : 0 ≤ n) (hsteps : 1 ≤ steps) {s : Nat} (h : s ∈ keptSteps n steps) :
    stepOf (stepStart n steps s) (stepStart n steps (s + 1)) n steps = .ok s := by
  have hlt := keptSteps_lt hsteps h
  have hfind : (List.range steps.toNat).find? (fun (t : Nat) =>
      (stepStart n steps t, stepStart n steps (t + 1)) ==
        (stepStart n steps s, stepStart n steps (s + 1))) = some s := by
    rw [List.find?_range_eq_some]
    refine ⟨beq_self_eq_true _, List.mem_range.mpr hlt, fun t ht => ?_⟩
    rw [Bool.not_eq_true', beq_eq_false_iff_ne]
    intro heq
    obtain ⟨-, hstop⟩ := Prod.mk.inj heq
    obtain ⟨rfl, hkept⟩ | ⟨-, -, hkept⟩ := keptSteps_cases hn hsteps
    · rw [hkept, List.mem_singleton] at h
      omega
    · have hrow := hkept s h
      have hbefore := stepStart_mono hn hsteps (by omega : (t : Int) + 1 ≤ s)
      omega
  unfold stepOf
  rw [hfind]

theorem flatMap_kept (hn : 0 ≤ n) (hsteps : 1 ≤ steps) : (keptSteps n steps).flatMap
    (fun (s : Nat) => rows (stepStart n steps s) (stepStart n steps (s + 1))) = rows 0 n := by
  rw [← flatMap_eagerRanges hn hsteps, eagerRanges_eq hsteps, List.flatMap_map]

/-- Of the steps kept the first alone starts at the first entry. -/
theorem keptSteps_first (hn : 0 ≤ n) (hsteps : 1 ≤ steps) : ∃ s rest,
    keptSteps n steps = s :: rest ∧ stepStart n steps s = 0 ∧
      ∀ t ∈ rest, stepStart n steps t ≠ 0 := by
  obtain ⟨rfl, hkept⟩ | ⟨hpos, hne, hkept⟩ := keptSteps_cases hn hsteps
  · exact ⟨0, [], hkept, stepStart_zero 0 steps, fun t ht => absurd ht List.not_mem_nil⟩
  · obtain ⟨s, rest, hsteps'⟩ := List.exists_cons_of_ne_nil hne
    have hrows := flatMap_kept hn hsteps
    have hsorted := keptSteps_sorted n steps
    rw [hsteps'] at hkept hrows hsorted
    have hs := hkept s List.mem_cons_self
    rw [List.flatMap_cons, rows_cons hs, rows_cons hpos, List.cons_append] at hrows
    have hzero := (List.cons.inj hrows).1
    refine ⟨s, rest, hsteps', hzero, fun t ht => ?_⟩
    have hlt := (List.pairwise_cons.mp hsorted).1 t ht
    have hmono := stepStart_mono hn hsteps (by omega : (s : Int) + 1 ≤ t)
    omega

/-- The last step kept stops at the last entry. -/
theorem keptSteps_last (hn : 0 ≤ n) (hsteps : 1 ≤ steps) :
    ∃ (init : List Nat) (s : Nat), keptSteps n steps = init ++ [s] ∧ stepStart n steps (s + 1) = n := by
  obtain ⟨rfl, hkept⟩ | ⟨hpos, hne, hkept⟩ := keptSteps_cases hn hsteps
  · refine ⟨[], 0, hkept, ?_⟩
    rw [stepStart, Int.mul_zero, Int.zero_fdiv]
  · have hsplit := (List.dropLast_append_getLast hne).symm
    generalize (keptSteps n steps).dropLast = init at hsplit
    generalize (keptSteps n steps).getLast hne = s at hsplit
    have hrows := flatMap_kept hn hsteps
    rw [hsplit] at hkept hrows
    have hs := hkept s (List.mem_append_right _ List.mem_cons_self)
    rw [List.flatMap_append, List.flatMap_singleton, rows_concat hs, rows_concat hpos,
      ← List.append_assoc] at hrows
    have hlast := List.cons.inj (List.append_inj_right' hrows rfl)
    exact ⟨init, s, hsplit, by omega⟩

/-! ### The partitions of one file -/

section File

variable (count : String → String → Int) (steps : Int) (openFiles : Bool)

/-- The steps of a file that have a partition. -/
def fileSteps (file : String × String) : List Nat :=
  if openFiles then keptSteps (count file.1 file.2) steps else List.range steps.toNat

/-- The partition of a step. -/
def stepPartition (file : String × String) (s : Nat) : Partition :=
  if openFiles then
    ⟨file.1, file.2, stepStart (count file.1 file.2) steps s,
      stepStart (count file.1 file.2) steps (s + 1), none, none, none⟩
  else ⟨file.1, file.2, 0, 0, some s, some steps, none⟩

def keyOf (file : String × String) : FileKey :=
  if file.2 = "" then .uri file.1 else .object file.1 file.2

end File

theorem keyOf_inj {file file' : String × String} (h : keyOf file = keyOf file') : file = file' := by
  obtain ⟨uri, tree⟩ := file
  obtain ⟨uri', tree'⟩ := file'
  unfold keyOf at h
  dsimp only at h
  split at h
  · split at h
    · rename_i htree htree'
      rw [FileKey.uri.inj h, htree, htree']
    · cases h
  · split at h
    · cases h
    · obtain ⟨rfl, rfl⟩ := FileKey.object.inj h
      rfl

variable {count : String → String → Int} {openFiles : Bool}

theorem filePartitions_eq (hsteps : 1 ≤ steps) (file : String × String) :
    filePartitions count steps openFiles file =
      (fileSteps count steps openFiles file).map (stepPartition count steps openFiles file) := by
  unfold filePartitions fileSteps
  cases openFiles with
  | true =>
      rw [if_pos rfl, if_pos rfl, eagerRanges_eq hsteps, List.map_map]
      rfl
  | false =>
      rw [if_neg Bool.false_ne_true, if_neg Bool.false_ne_true, ← List.filterMap_eq_map]
      refine List.filterMap_congr fun s hs => ?_
      have hlt := List.mem_range.mp hs
      exact if_neg (by omega)

theorem fileKey_stepPartition (file : String × String) (s : Nat) :
    fileKey (stepPartition count steps openFiles file s) = keyOf file := by
  cases openFiles <;> rfl

/-- One partition of a file opens it. -/
theorem filter_opensFile (hcount : ∀ uri tree, 0 ≤ count uri tree) (hsteps : 1 ≤ steps)
    (file : String × String) :
    ((filePartitions count steps openFiles file).filter opensFile).map fileKey = [keyOf file] := by
  have hone : ∃ s rest, fileSteps count steps openFiles file = s :: rest ∧
      opensFile (stepPartition count steps openFiles file s) = true ∧
        ∀ t ∈ rest, opensFile (stepPartition count steps openFiles file t) = false := by
    cases openFiles with
    | true =>
        obtain ⟨s, rest, hkept, hzero, hrest⟩ :=
          keptSteps_first (hcount file.1 file.2) hsteps
        refine ⟨s, rest, hkept, ?_, fun t ht => ?_⟩
        · exact decide_eq_true hzero
        · exact decide_eq_false (hrest t ht)
    | false =>
        obtain ⟨k, hk⟩ : ∃ k, steps.toNat = k + 1 := ⟨steps.toNat - 1, by omega⟩
        refine ⟨0, (List.range k).map Nat.succ, ?_, rfl, fun t ht => ?_⟩
        · change List.range steps.toNat = _
          rw [hk, List.range_succ_eq_map]
        · obtain ⟨u, -, rfl⟩ := List.mem_map.mp ht
          rfl
  obtain ⟨s, rest, hfile, hopens, hrest⟩ := hone
  rw [filePartitions_eq hsteps, hfile, List.map_cons, List.filter_cons, if_pos hopens]
  have hnone : (rest.map (stepPartition count steps openFiles file)).filter opensFile = [] := by
    rw [List.filter_eq_nil_iff]
    intro p hp
    obtain ⟨t, ht, rfl⟩ := List.mem_map.mp hp
    rw [hrest t ht]
    exact Bool.false_ne_true
  rw [hnone, List.map_singleton, fileKey_stepPartition]

/-! ### The tables of all files -/

theorem firstRepeat_eq_none {seen keys : List FileKey} :
    firstRepeat seen keys = none ↔ keys.Nodup ∧ ∀ key ∈ keys, key ∉ seen := by
  induction keys generalizing seen with
  | nil => simp [firstRepeat]
  | cons key keys ih =>
      rw [firstRepeat]
      split
      · rename_i hseen
        exact ⟨(fun h => nomatch h), fun h => absurd hseen (h.2 key List.mem_cons_self)⟩
      · rename_i hnew
        rw [ih, List.nodup_cons]
        constructor
        · rintro ⟨hnodup, hout⟩
          refine ⟨⟨fun hmem => hout key hmem List.mem_cons_self, hnodup⟩, fun k hk => ?_⟩
          obtain rfl | hk := List.mem_cons.mp hk
          · exact hnew
          · exact fun hmem => hout k hk (List.mem_cons_of_mem _ hmem)
        · rintro ⟨⟨hkey, hnodup⟩, hout⟩
          refine ⟨hnodup, fun k hk hmem => ?_⟩
          obtain rfl | hmem := List.mem_cons.mp hmem
          · exact hkey hk
          · exact hout k (List.mem_cons_of_mem _ hk) hmem

/-- The files' first partitions, in order. -/
theorem filter_opensFile_all (hcount : ∀ uri tree, 0 ≤ count uri tree) (hsteps : 1 ≤ steps)
    (files : List (String × String)) :
    ((files.flatMap (filePartitions count steps openFiles)).filter opensFile).map fileKey =
      files.map keyOf := by
  induction files with
  | nil => rfl
  | cons file files ih =>
      rw [List.flatMap_cons, List.filter_append, List.map_append, ih,
        filter_opensFile hcount hsteps, List.map_cons, List.singleton_append]

theorem lookup_bases (steps : Int) (start : Nat) {files : List (String × String)} (hnodup : files.Nodup)
    {file : String × String} {i : Nat} (h : (file, i) ∈ files.zipIdx start) :
    (((files.map keyOf).zipIdx start).map fun key => (key.1, key.2 * steps)).lookup (keyOf file) =
      some (i * steps) := by
  induction files generalizing start with
  | nil => cases h
  | cons first rest ih =>
      obtain ⟨hfirst, hrest⟩ := List.nodup_cons.mp hnodup
      rw [List.map_cons, List.zipIdx_cons, List.map_cons, List.lookup_cons]
      obtain heq | h := List.mem_cons.mp h
      · obtain ⟨rfl, rfl⟩ := Prod.mk.inj heq
        rw [beq_self_eq_true]
      · have hne : (keyOf file == keyOf first) = false := by
          rw [beq_eq_false_iff_ne]
          intro heq
          exact hfirst (keyOf_inj heq ▸ List.fst_mem_of_mem_zipIdx h)
        rw [hne]
        exact ih (start + 1) hrest h

/-- No entry of a table of bases is filed under a pair when the file has none. -/
theorem lookup_object_none (files : List (String × String)) (uri : String) (start : Nat) :
    (((files.map keyOf).zipIdx start).map fun key => (key.1, key.2 * steps)).lookup
      (.object uri "") = none := by
  induction files generalizing start with
  | nil => rfl
  | cons first rest ih =>
      have hne : (FileKey.object uri "" == keyOf first) = false := by
        rw [beq_eq_false_iff_ne]
        unfold keyOf
        split
        · exact fun h => nomatch h
        · rename_i htree
          intro h
          exact htree (FileKey.object.inj h).2.symm
      rw [List.map_cons, List.zipIdx_cons, List.map_cons, List.lookup_cons, hne]
      exact ih (start + 1)

theorem rowTable_append (xs ys : List Partition) (key : FileKey)
    (hys : ∀ p ∈ ys, p.blindStep = none → fileKey p ≠ key) :
    (rowTable (xs ++ ys)).lookup key = (rowTable xs).lookup key := by
  unfold rowTable
  rw [List.filter_append, List.foldl_append]
  generalize (xs.filter fun p => p.blindStep.isNone).foldl
    (fun table p => dictUpdate table [(fileKey p, p.entryStop)]) [] = table
  induction ys generalizing table with
  | nil => rfl
  | cons p ys ih =>
      have hrest := fun q hq => hys q (List.mem_cons_of_mem _ hq)
      rw [List.filter_cons]
      split
      · rename_i hp
        have hne : (key == fileKey p) = false := by
          rw [beq_eq_false_iff_ne]
          exact fun heq => hys p List.mem_cons_self (by simpa using hp) heq.symm
        rw [List.foldl_cons, ih hrest, lookup_dictUpdate, List.lookup_cons, hne]
        rfl
      · exact ih hrest table

/-- The row table of eager files holds each file's row count. -/
theorem lookup_rowTable (hcount : ∀ uri tree, 0 ≤ count uri tree) (hsteps : 1 ≤ steps)
    {files : List (String × String)} (hnodup : files.Nodup) {file : String × String}
    (h : file ∈ files) :
    (rowTable (files.flatMap (filePartitions count steps true))).lookup (keyOf file) =
      some (count file.1 file.2) := by
  obtain ⟨front, back, rfl⟩ := List.append_of_mem h
  obtain ⟨-, hback, -⟩ := List.nodup_append.mp hnodup
  have hnot : file ∉ back := (List.nodup_cons.mp hback).1
  obtain ⟨init, s, hkept, hlast⟩ := keptSteps_last (hcount file.1 file.2) hsteps
  have hfile : filePartitions count steps true file =
      init.map (stepPartition count steps true file) ++ [stepPartition count steps true file s] := by
    rw [filePartitions_eq hsteps]
    change (keptSteps _ _).map _ = _
    rw [hkept, List.map_append, List.map_singleton]
  rw [List.flatMap_append, List.flatMap_cons, ← List.append_assoc, rowTable_append, hfile,
    ← List.append_assoc]
  · unfold rowTable
    rw [List.filter_append, List.foldl_append]
    change (dictUpdate _ [(fileKey _, stepStart _ _ _)]).lookup _ = _
    rw [fileKey_stepPartition, hlast, lookup_dictUpdate, List.lookup_cons_self]
    rfl
  · intro p hp _ heq
    obtain ⟨other, hother, hp⟩ := List.mem_flatMap.mp hp
    rw [filePartitions_eq hsteps] at hp
    obtain ⟨t, -, rfl⟩ := List.mem_map.mp hp
    rw [fileKey_stepPartition] at heq
    exact hnot (keyOf_inj heq ▸ hother)

/-! ### Every partition has its own part -/

theorem tableItem_ok {table : List (FileKey × Int)} {key : FileKey} {v : Int}
    (h : table.lookup key = some v) : tableItem table key = .ok v := by
  unfold tableItem
  rw [h]

/-- The base of a file and a blind partition's step, also in a table filed by uri alone. -/
theorem blindPartIndex_ok {files : List (String × String)} (hnodup : files.Nodup)
    {file : String × String} {i : Nat} (h : (file, i) ∈ files.zipIdx) {p : Partition} {s : Int}
    (hp : p.blindStep = some s) (huri : p.uri = file.1) (htree : p.tree = file.2) :
    blindPartIndex p ((files.map keyOf).zipIdx.map fun key => (key.1, key.2 * steps)) =
      .ok (i * steps + s) := by
  have hbase := lookup_bases steps 0 hnodup h
  unfold blindPartIndex
  rw [hp, huri, htree]
  dsimp only
  by_cases hplain : file.2 = ""
  · have hkey : keyOf file = .uri file.1 := if_pos hplain
    rw [hplain, lookup_object_none, tableItem_ok (hkey ▸ hbase)]
    rfl
  · have hkey : keyOf file = .object file.1 file.2 := if_neg hplain
    rw [← hkey, hbase]

theorem partIndex_ok (hcount : ∀ uri tree, 0 ≤ count uri tree) (hsteps : 1 ≤ steps)
    {files : List (String × String)} (hnodup : files.Nodup) {file : String × String} {i : Nat}
    (h : (file, i) ∈ files.zipIdx) {s : Nat} (hs : s ∈ fileSteps count steps openFiles file) :
    partIndex ⟨(files.map keyOf).zipIdx.map fun key => (key.1, key.2 * steps),
      rowTable (files.flatMap (filePartitions count steps openFiles))⟩ steps
        (stepPartition count steps openFiles file s) = .ok (i * steps + s) := by
  cases openFiles with
  | true =>
      have hbase := lookup_bases steps 0 hnodup h
      have hrows := lookup_rowTable hcount hsteps hnodup (List.fst_mem_of_mem_zipIdx h)
      have hstep := stepOf_kept (hcount file.1 file.2) hsteps hs
      unfold partIndex
      rw [fileKey_stepPartition, tableItem_ok hbase, tableItem_ok hrows]
      change (stepOf (stepStart (count file.1 file.2) steps s)
        (stepStart (count file.1 file.2) steps (s + 1)) (count file.1 file.2) steps >>= _) = _
      rw [hstep]
      rfl
  | false =>
      have hblind : (stepPartition count steps false file s).blindStep = some (s : Int) := rfl
      exact blindPartIndex_ok hnodup h hblind rfl rfl

/-- Indices of files from one on: their bases and steps. -/
theorem nodup_indices (start : Nat) (hsteps : 1 ≤ steps) (stepsOf : String × String → List Nat)
    (hlt : ∀ file, ∀ s ∈ stepsOf file, s < steps.toNat) (hnodup : ∀ file, (stepsOf file).Nodup)
    (files : List (String × String)) :
    ((files.zipIdx start).flatMap fun file =>
      (stepsOf file.1).map fun (s : Nat) => (file.2 : Int) * steps + s).Nodup ∧
    ∀ index ∈ (files.zipIdx start).flatMap fun file =>
      (stepsOf file.1).map fun (s : Nat) => (file.2 : Int) * steps + s, start * steps ≤ index := by
  induction files generalizing start with
  | nil => exact ⟨List.nodup_nil, fun _ h => absurd h List.not_mem_nil⟩
  | cons file files ih =>
      obtain ⟨hrest, hbelow⟩ := ih (start + 1)
      have hnext : ((start + 1 : Nat) : Int) * steps = start * steps + steps := by
        push_cast
        ring
      rw [hnext] at hbelow
      rw [List.zipIdx_cons, List.flatMap_cons]
      constructor
      · refine List.nodup_append.mpr ⟨?_, hrest, fun index hindex other hother => ?_⟩
        · refine (hnodup file).map fun s t hst => ?_
          have heq : (start : Int) * steps + s = start * steps + t := hst
          omega
        · obtain ⟨s, hs, rfl⟩ := List.mem_map.mp hindex
          have hs' := hlt file s hs
          have hother' := hbelow other hother
          dsimp only
          omega
      · intro index hindex
        obtain hindex | hindex := List.mem_append.mp hindex
        · obtain ⟨s, -, rfl⟩ := List.mem_map.mp hindex
          dsimp only
          omega
        · have hindex' := hbelow index hindex
          omega

theorem fileSteps_lt (hsteps : 1 ≤ steps) (file : String × String) :
    ∀ s ∈ fileSteps count steps openFiles file, s < steps.toNat := by
  intro s hs
  cases openFiles with
  | true => exact keptSteps_lt hsteps hs
  | false => exact List.mem_range.mp hs

theorem nodup_fileSteps (file : String × String) : (fileSteps count steps openFiles file).Nodup := by
  cases openFiles with
  | true => exact (keptSteps_sorted _ _).imp fun h => Nat.ne_of_lt h
  | false => exact List.nodup_range

/-- A read of each partition of some files, one after another. -/
theorem mapM_partitions {f : Partition → Except PartError Int} (hsteps : 1 ≤ steps) (start : Nat)
    (files : List (String × String))
    (h : ∀ file i, (file, i) ∈ files.zipIdx start → ∀ s ∈ fileSteps count steps openFiles file,
      f (stepPartition count steps openFiles file s) = .ok (i * steps + s)) :
    (files.flatMap (filePartitions count steps openFiles)).mapM f =
      .ok ((files.zipIdx start).flatMap fun file =>
        (fileSteps count steps openFiles file.1).map fun (s : Nat) => (file.2 : Int) * steps + s) := by
  induction files generalizing start with
  | nil => rfl
  | cons file files ih =>
      have hrest := ih (start + 1) fun other i hmem => h other i (List.mem_cons_of_mem _ hmem)
      have hhere := h file start List.mem_cons_self
      rw [List.flatMap_cons, List.mapM_append, hrest, filePartitions_eq hsteps, List.zipIdx_cons,
        List.flatMap_cons]
      have hblock : ∀ ss : List Nat, (∀ s ∈ ss,
          f (stepPartition count steps openFiles file s) = .ok (start * steps + s)) →
          (ss.map (stepPartition count steps openFiles file)).mapM f =
            .ok (ss.map fun (s : Nat) => (start : Int) * steps + s) := by
        intro ss hss
        induction ss with
        | nil => rfl
        | cons s ss ih =>
            rw [List.map_cons, List.mapM_cons, hss s List.mem_cons_self,
              ih fun t ht => hss t (List.mem_cons_of_mem _ ht)]
            rfl
      rw [hblock _ hhere]
      rfl

theorem fileTables_ok (hcount : ∀ uri tree, 0 ≤ count uri tree) (hsteps : 1 ≤ steps)
    {files : List (String × String)} (hnodup : files.Nodup) :
    fileTables (files.flatMap (filePartitions count steps openFiles)) steps =
      .ok ⟨(files.map keyOf).zipIdx.map fun key => (key.1, key.2 * steps),
        rowTable (files.flatMap (filePartitions count steps openFiles))⟩ := by
  have hkeys : firstRepeat [] (files.map keyOf) = none :=
    firstRepeat_eq_none.mpr ⟨hnodup.map fun _ _ h => keyOf_inj h, fun _ _ => List.not_mem_nil⟩
  unfold fileTables fileBases
  rw [filter_opensFile_all hcount hsteps, hkeys]
  rfl

theorem fileTables_repeated (hcount : ∀ uri tree, 0 ≤ count uri tree) (hsteps : 1 ≤ steps)
    {files : List (String × String)} (hrepeat : ¬files.Nodup) :
    ∃ key, fileTables (files.flatMap (filePartitions count steps openFiles)) steps =
      .error (.duplicateInput key) := by
  cases hkeys : firstRepeat [] (files.map keyOf) with
  | none => exact absurd (firstRepeat_eq_none.mp hkeys).1.of_map hrepeat
  | some key =>
      refine ⟨key, ?_⟩
      unfold fileTables fileBases
      rw [filter_opensFile_all hcount hsteps, hkeys]
      rfl

theorem makePartitions_eq (numRows : String → Int) (hsteps : 1 ≤ steps) (paths : List String) :
    makePartitions numRows paths steps openFiles = .ok ((paths.map fun path => (path, "")).flatMap
      (filePartitions (fun uri _ => numRows uri) steps openFiles)) := by
  unfold makePartitions
  rw [if_neg (by omega), List.flatMap_map]
  rfl

theorem derivePartIndex_ok {numRows : String → Int} (hrows : ∀ uri, 0 ≤ numRows uri)
    (hsteps : 1 ≤ steps) {files : List (String × String)} (hnodup : files.Nodup)
    {file : String × String} {i : Nat} (h : (file, i) ∈ files.zipIdx) (hplain : file.2 = "")
    {s : Nat} (hs : s ∈ fileSteps (fun uri _ => numRows uri) steps openFiles file) :
    derivePartIndex numRows steps ((files.map keyOf).zipIdx.map fun key => (key.1, key.2 * steps))
      (stepPartition (fun uri _ => numRows uri) steps openFiles file s) = .ok (i * steps + s) := by
  cases openFiles with
  | true =>
      have hbase := lookup_bases steps 0 hnodup h
      have hkey : keyOf file = .uri file.1 := if_pos hplain
      have hstep := stepOf_kept (hrows file.1) hsteps hs
      change (tableItem _ (.uri file.1) >>= fun base => stepOf (stepStart (numRows file.1) steps s)
        (stepStart (numRows file.1) steps (s + 1)) (numRows file.1) steps >>= _) = _
      rw [tableItem_ok (hkey ▸ hbase), hstep]
      rfl
  | false =>
      have hblind : (stepPartition (fun uri _ => numRows uri) steps false file s).blindStep =
        some (s : Int) := rfl
      exact blindPartIndex_ok hnodup h hblind rfl rfl

theorem partName_inj {namePrefix suffix : String} {i j : Nat}
    (h : partName namePrefix i suffix = partName namePrefix j suffix) : i = j := by
  have hchars := congrArg String.toList h
  simp only [partName, String.toList_append, String.toList_ofList] at hchars
  have hpadded := List.append_cancel_left (List.append_cancel_right hchars)
  have hvalue : ∀ k n : Nat,
      Nat.ofDigitChars 10 (List.replicate k '0' ++ Nat.toDigits 10 n) 0 = n := by
    intro k n
    rw [Nat.ofDigitChars_append, Nat.ofDigitChars_replicate_zero, Nat.mul_zero,
      Nat.ofDigitChars_ten_toDigits]
  rw [← hvalue (5 - (Nat.toDigits 10 i).length) i, hpadded, hvalue]

/-- What each write of some files gives its partitions: an index of their own. -/
structure OwnParts (count : String → String → Int) (steps : Int) (openFiles : Bool) : Prop where
  files : ∀ files : List (String × String), files.Nodup → ∃ tables indices,
    fileTables (files.flatMap (filePartitions count steps openFiles)) steps = .ok tables ∧
    (∀ file i, (file, i) ∈ files.zipIdx → tables.bases.lookup (keyOf file) = some (i * steps) ∧
      (openFiles = true → tables.rows.lookup (keyOf file) = some (count file.1 file.2))) ∧
    (files.flatMap (filePartitions count steps openFiles)).mapM (partIndex tables steps) =
      .ok indices ∧ indices.Nodup ∧ ∀ index ∈ indices, 0 ≤ index
  repeated : ∀ files : List (String × String), ¬files.Nodup → ∃ key,
    fileTables (files.flatMap (filePartitions count steps openFiles)) steps =
      .error (.duplicateInput key)
  flat : ∀ paths : List String, paths.Nodup → ∃ bases partitions indices,
    fileBases (paths.map .uri) steps = .ok bases ∧
    makePartitions (fun uri => count uri "") paths steps openFiles = .ok partitions ∧
    partitions.mapM (derivePartIndex (fun uri => count uri "") steps bases) = .ok indices ∧
    indices.Nodup ∧ ∀ index ∈ indices, 0 ≤ index
  memory : ∀ (sourceName : String) (n : Int), 0 ≤ n → ∃ indices,
    (memoryPartitions sourceName n steps).mapM (memoryIndex n steps) = .ok indices ∧
    indices.Nodup ∧ ∀ index ∈ indices, 0 ≤ index
  inverted : ∀ n : Int, 0 ≤ n → ∀ r ∈ eagerRanges n steps, ∃ s : Nat, s < steps ∧
    stepOf r.1 r.2 n steps = .ok s ∧ r = (stepStart n steps s, stepStart n steps (s + 1))
  names : ∀ (namePrefix suffix : String) (i j : Nat),
    partName namePrefix i suffix = partName namePrefix j suffix → i = j

/-- **Every partition of a write has its own part.** -/
theorem ownParts (count : String → String → Int) (steps : Int) (openFiles : Bool)
    (hcount : ∀ uri tree, 0 ≤ count uri tree) (hsteps : 1 ≤ steps) :
    OwnParts count steps openFiles where
  files files hnodup := by
    obtain ⟨hindices, hnonneg⟩ := nodup_indices 0 hsteps (fileSteps count steps openFiles)
      (fileSteps_lt hsteps) nodup_fileSteps files
    refine ⟨_, _, fileTables_ok hcount hsteps hnodup, fun file i h => ⟨lookup_bases steps 0 hnodup h, ?_⟩,
      mapM_partitions hsteps 0 files fun file i h s hs => partIndex_ok hcount hsteps hnodup h hs,
      hindices, fun index h => ?_⟩
    · rintro rfl
      exact lookup_rowTable hcount hsteps hnodup (List.fst_mem_of_mem_zipIdx h)
    · have hbelow := hnonneg index h
      rwa [Int.natCast_zero, Int.zero_mul] at hbelow
  repeated files hrepeat := fileTables_repeated hcount hsteps hrepeat
  flat paths hnodup := by
    have hfiles : (paths.map fun path => (path, "")).Nodup :=
      hnodup.map fun _ _ h => (Prod.mk.inj h).1
    have hkeys : (paths.map fun path => (path, "")).map keyOf = paths.map .uri := by
      rw [List.map_map]
      rfl
    obtain ⟨hindices, hnonneg⟩ := nodup_indices 0 hsteps
      (fileSteps (fun uri _ => count uri "") steps openFiles) (fileSteps_lt hsteps)
      nodup_fileSteps (paths.map fun path => (path, ""))
    refine ⟨_, _, _, ?_, makePartitions_eq _ hsteps paths, mapM_partitions hsteps 0 _
      fun file i h s hs => derivePartIndex_ok (fun uri => hcount uri "") hsteps hfiles h ?_ hs,
      hindices, fun index h => ?_⟩
    · unfold fileBases
      rw [← hkeys, firstRepeat_eq_none.mpr ⟨hfiles.map fun _ _ h => keyOf_inj h,
        fun _ _ => List.not_mem_nil⟩]
    · obtain ⟨path, -, heq⟩ := List.mem_map.mp (List.fst_mem_of_mem_zipIdx h)
      exact (congrArg Prod.snd heq).symm
    · have hbelow := hnonneg index h
      rwa [Int.natCast_zero, Int.zero_mul] at hbelow
  memory sourceName n hn := by
    have hread : ∀ ss : List Nat, (∀ s ∈ ss, s ∈ keptSteps n steps) →
        (ss.map fun (s : Nat) => (⟨"memory://" ++ sourceName, "", stepStart n steps s,
          stepStart n steps (s + 1), none, none, none⟩ : Partition)).mapM (memoryIndex n steps) =
            .ok (ss.map fun (s : Nat) => (s : Int)) := by
      intro ss hss
      induction ss with
      | nil => rfl
      | cons s ss ih =>
          have hstep : memoryIndex n steps ⟨"memory://" ++ sourceName, "", stepStart n steps s,
              stepStart n steps (s + 1), none, none, none⟩ = .ok (s : Int) :=
            stepOf_kept hn hsteps (hss s List.mem_cons_self)
          rw [List.map_cons, List.mapM_cons, hstep, ih fun t ht => hss t (List.mem_cons_of_mem _ ht)]
          rfl
    have hnodup : (keptSteps n steps).Nodup := (keptSteps_sorted n steps).imp fun h => Nat.ne_of_lt h
    refine ⟨_, ?_, hnodup.map fun s t h => Int.ofNat_inj.mp h, fun index h => ?_⟩
    · unfold memoryPartitions
      rw [eagerRanges_eq hsteps, List.map_map]
      exact hread _ fun s hs => hs
    · obtain ⟨s, -, rfl⟩ := List.mem_map.mp h
      exact Int.natCast_nonneg s
  inverted n hn r hr := by
    rw [eagerRanges_eq hsteps] at hr
    obtain ⟨s, hs, rfl⟩ := List.mem_map.mp hr
    have hlt := keptSteps_lt hsteps hs
    exact ⟨s, by omega, stepOf_kept hn hsteps hs, rfl⟩
  names _ _ _ _ h := partName_inj h

theorem ownParts_three : OwnParts (fun _ _ => 5) 3 true :=
  ownParts (fun _ _ => 5) 3 true (fun _ _ => by decide) (by decide)

end Graphed
