import Graphed.Partitions.Ranges
import Mathlib.Data.List.Induction

/-!
# Every cut reads each row once

However a file is cut, its ranges list its rows in order, each once. Capping a partition and resolving
it commute, so reading from the front stops exactly at the rows asked for. The row groups of a range
hold its rows, and groups without rows among them.
-/

namespace Graphed

/-! ### Even steps -/

variable {n steps : Int}

theorem stepStart_zero (n steps : Int) : stepStart n steps 0 = 0 := by
  rw [stepStart, Int.zero_mul, Int.zero_fdiv]

theorem stepStart_last (hsteps : 1 ≤ steps) (n : Int) : stepStart n steps steps = n := by
  rw [stepStart, Int.mul_fdiv_cancel_left n (by omega)]

theorem stepStart_mono (hn : 0 ≤ n) (hsteps : 1 ≤ steps) {s t : Int} (h : s ≤ t) :
    stepStart n steps s ≤ stepStart n steps t := by
  unfold stepStart
  rw [Int.fdiv_eq_ediv_of_nonneg _ (by omega), Int.fdiv_eq_ediv_of_nonneg _ (by omega)]
  exact Int.ediv_le_ediv (by omega) (Int.mul_le_mul_of_nonneg_right h hn)

/-- The even steps over a file list its rows. -/
theorem flatMap_steps (hn : 0 ≤ n) (hsteps : 1 ≤ steps) :
    (List.range steps.toNat).flatMap (fun (s : Nat) =>
      rows (stepStart n steps s) (stepStart n steps (s + 1))) = rows 0 n := by
  have hcuts := (flatMap_rows (fun (s : Nat) => stepStart n steps s) (n := steps.toNat)
    fun i _ => stepStart_mono hn hsteps (by omega)).2
  rw [Int.toNat_of_nonneg (by omega), stepStart_last hsteps, Int.natCast_zero,
    stepStart_zero] at hcuts
  refine Eq.trans ?_ hcuts
  refine List.flatMap_congr fun s _ => ?_
  rw [Int.natCast_succ]

theorem flatMap_filter_rows (ranges : List (Int × Int)) :
    (ranges.filter fun r => decide (r.1 < r.2)).flatMap (fun r => rows r.1 r.2) =
      ranges.flatMap fun r => rows r.1 r.2 := by
  induction ranges with
  | nil => rfl
  | cons r ranges ih =>
      rw [List.filter_cons, List.flatMap_cons, ← ih]
      by_cases h : r.1 < r.2
      · rw [if_pos (decide_eq_true h), List.flatMap_cons]
      · rw [if_neg (by simpa using h), rows_of_le (by omega), List.nil_append]

/-- So do the ranges kept of them. -/
theorem flatMap_eagerRanges (hn : 0 ≤ n) (hsteps : 1 ≤ steps) :
    (eagerRanges n steps).flatMap (fun r => rows r.1 r.2) = rows 0 n := by
  have hall : ((List.range steps.toNat).map fun (s : Nat) =>
      (stepStart n steps s, stepStart n steps (s + 1))).flatMap (fun r => rows r.1 r.2) =
        rows 0 n := by
    rw [List.flatMap_map]
    exact flatMap_steps hn hsteps
  unfold eagerRanges
  dsimp only
  generalize (List.range steps.toNat).map (fun (s : Nat) =>
    (stepStart n steps s, stepStart n steps (s + 1))) = ranges at hall ⊢
  split
  · rename_i hempty
    -- no step has a row, so neither has the first
    have hnone : rows 0 n = [] := by
      rw [← hall, ← flatMap_filter_rows, List.isEmpty_iff.mp hempty]
      rfl
    rw [← List.take_append_drop 1 ranges, List.flatMap_append, hnone] at hall
    rw [hnone]
    exact (List.append_eq_nil_iff.mp hall).1
  · rw [flatMap_filter_rows, hall]

/-! ### Ranges of a fixed length -/

theorem flatMap_chunksFrom (dataset : Dataset) {size : Int} (hsize : 0 < size) (start : Int) :
    (chunksFrom dataset size hsize start).flatMap Partition.range = rows start dataset.nEvents := by
  induction start using chunksFrom.induct dataset size hsize with
  | case1 start hlt stop ih =>
      rw [chunksFrom, if_pos hlt, List.flatMap_cons, ih]
      change rows start (min (start + size) dataset.nEvents) ++ rows (min _ _) _ = _
      exact rows_append (by omega) (by omega)
  | case2 start hge =>
      rw [chunksFrom, if_neg hge, rows_of_le (by omega)]
      rfl

theorem flatMap_eventRanges {k : Int} (hk : 1 ≤ k) (file : Partition) :
    (eventRanges k file).flatMap Partition.range = file.range := by
  obtain ⟨uri, tree, lo, hi, step, nSteps, limit⟩ := file
  change ((steppedRange lo (max hi (lo + 1)) k).map _).flatMap _ = rows lo hi
  unfold steppedRange
  rw [List.flatMap_map, List.flatMap_map]
  change (List.range _).flatMap (fun (i : Nat) => rows (lo + i * k) (min (lo + i * k + k) hi)) = _
  by_cases hlt : lo < hi
  · rw [Int.max_eq_left (by omega), Int.fdiv_eq_ediv_of_nonneg _ (by omega)]
    generalize hcount : ((hi - lo + k - 1) / k).toNat = count
    have hsplit := Int.emod_add_mul_ediv (hi - lo + k - 1) k
    have hlow := Int.emod_nonneg (hi - lo + k - 1) (by omega : k ≠ 0)
    have hhigh := Int.emod_lt_of_pos (hi - lo + k - 1) (by omega : 0 < k)
    have hnonneg : 0 ≤ (hi - lo + k - 1) / k := Int.ediv_nonneg (by omega) (by omega)
    rw [← Int.toNat_of_nonneg hnonneg, hcount, Int.mul_comm] at hsplit
    have hnext : ∀ i : Nat, ((i + 1 : Nat) : Int) * k = i * k + k := fun i => by push_cast; ring
    have hbelow : ∀ i < count, lo + (i : Int) * k < hi := by
      intro i hi'
      have hle : ((i + 1 : Nat) : Int) * k ≤ count * k :=
        Int.mul_le_mul_of_nonneg_right (by omega) (by omega)
      rw [hnext] at hle
      omega
    have hcuts := (flatMap_rows (fun (i : Nat) => min (lo + i * k) hi) (n := count)
      fun i _ => by
        rw [hnext]
        omega).2
    rw [Int.natCast_zero, Int.zero_mul, Int.add_zero, Int.min_eq_left (by omega : lo ≤ hi),
      Int.min_eq_right (by omega : hi ≤ lo + count * k)] at hcuts
    rw [← hcuts]
    refine List.flatMap_congr fun i hmem => ?_
    rw [hnext, Int.min_eq_left (hbelow i (List.mem_range.mp hmem)).le, Int.add_assoc]
  · rw [rows_of_le (by omega), List.flatMap_eq_nil_iff]
    intro i _
    have hpos : 0 ≤ (i : Int) * k := Int.mul_nonneg (by omega) (by omega)
    exact rows_of_le (by omega)

/-! ### Capped partitions -/

namespace Partition

theorem first_first (p : Partition) (n m : Int) : (p.first n).first m = p.first (min m n) := by
  obtain ⟨uri, tree, start, stop, step, nSteps, limit⟩ := p
  cases step with
  | none =>
      change Partition.mk _ _ _ (min (min stop (start + n)) (start + m)) _ _ _ =
        Partition.mk _ _ _ (min stop (start + min m n)) _ _ _
      congr 1
      omega
  | some s =>
      cases limit with
      | none => rfl
      | some l =>
          change Partition.mk uri tree start stop (some s) nSteps (some (min m (min n l))) =
            Partition.mk uri tree start stop (some s) nSteps (some (min (min m n) l))
          rw [show min m (min n l) = min (min m n) l by omega]

/-- The constructors set a blind step with its number, or neither. -/
theorem Built.wholeStep {p : Partition} (h : Built p) : p.blindStep.isSome = p.blindNSteps.isSome := by
  induction h with
  | ranged _ _ _ _ => rfl
  | @blind uri tree step nSteps p h =>
      unfold Partition.blind at h
      split at h
      · cases h
      · obtain rfl := Option.some.inj h
        rfl
  | @first p h n ih =>
      unfold Partition.first
      split
      · exact ih
      · exact ih

/-- **Capping and resolving commute.** -/
theorem range_first_resolve {p : Partition} (h : p.blindStep.isSome = p.blindNSteps.isSome)
    (n numEntries : Int) :
    ((p.first n).resolve numEntries).range = (p.resolve numEntries).range.take n.toNat := by
  obtain ⟨uri, tree, start, stop, step, nSteps, limit⟩ := p
  have htake : ∀ a b : Int, rows a (min b (a + n)) = (rows a b).take n.toNat := by
    intro a b
    rw [take_rows]
    by_cases hn : 0 ≤ n
    · rw [Int.toNat_of_nonneg hn]
    · rw [rows_of_le (by omega), rows_of_le (by omega)]
  cases step with
  | none =>
      cases nSteps with
      | none => exact htake start stop
      | some k => cases h
  | some s =>
      cases nSteps with
      | none => cases h
      | some k =>
          cases limit with
          | none => exact htake _ _
          | some l =>
              change rows (Int.fdiv (s * numEntries) k) (min (Int.fdiv ((s + 1) * numEntries) k)
                (Int.fdiv (s * numEntries) k + min n l)) = (rows (Int.fdiv (s * numEntries) k)
                  (min (Int.fdiv ((s + 1) * numEntries) k) (Int.fdiv (s * numEntries) k + l))).take _
              rw [← htake]
              congr 1
              omega

end Partition

/-! ### Reading from the front -/

/-- **Reading from the front.** Partitions that give the rows their caps leave are read up to exactly
the rows asked for. -/
theorem flatten_readFirst {Row : Type} (readPartition : Partition → List Row)
    {parts : List Partition} (hread : ∀ p ∈ parts, ∀ n : Nat,
      readPartition (p.first n) = (readPartition p).take n) (entries read : Nat)
    (hle : read ≤ entries) :
    (readFirst readPartition entries parts read).flatten =
      (parts.flatMap readPartition).take (entries - read) := by
  induction parts generalizing read with
  | nil => exact (List.take_nil).symm
  | cons p ps ih =>
      have hwanted : (entries : Int) - read = ((entries - read : Nat) : Int) := by omega
      unfold readFirst
      dsimp only
      rw [hwanted, Int.toNat_natCast, hread p List.mem_cons_self, List.take_take, Nat.min_self,
        List.flatten_cons, List.flatMap_cons, List.take_append]
      congr 1
      split
      · rename_i hdone
        have hzero : entries - read - (readPartition p).length = 0 := by
          rw [List.length_take] at hdone
          omega
        rw [hzero]
        rfl
      · rename_i hmore
        have hshort : (readPartition p).length < entries - read := by
          rw [List.length_take] at hmore
          omega
        rw [List.take_of_length_le hshort.le, ← Int.natCast_add,
          ih (fun q hq => hread q (List.mem_cons_of_mem _ hq)) _ (by omega), Nat.sub_add_eq]

/-! ### Row groups -/

/-- The row a group of a file starts at. -/
def groupStart (sizes : List Nat) (g : Nat) : Int := (sizes.take g).sum

def groupRows (sizes : List Nat) (g : Nat) : List Int :=
  rows (groupStart sizes g) (groupStart sizes (g + 1))

/-- A group that starts before a range ends and ends after it starts. -/
def meets (sizes : List Nat) (start stop : Int) (g : Nat) : Bool :=
  decide (groupStart sizes g < stop ∧ start < groupStart sizes (g + 1))

theorem groupStart_append {sizes : List Nat} (size : Nat) {g : Nat} (h : g ≤ sizes.length) :
    groupStart (sizes ++ [size]) g = groupStart sizes g := by
  unfold groupStart
  rw [List.take_append_of_le_length h]

theorem groupStart_last (sizes : List Nat) : groupStart sizes sizes.length = sizes.sum := by
  rw [groupStart, List.take_length]

theorem groupStart_concat (sizes : List Nat) (size : Nat) :
    groupStart (sizes ++ [size]) (sizes.length + 1) = sizes.sum + size := by
  have hlength : sizes.length + 1 = (sizes ++ [size]).length := by
    rw [List.length_append, List.length_singleton]
  rw [hlength, groupStart_last, List.sum_append, List.sum_singleton, Int.natCast_add]

/-- What a walk over some groups has found: the rows of the groups kept are those from the first of
them on, up to the walk's row or to the range's end. -/
structure Walked (sizes : List Nat) (start stop : Int) (walk : GroupWalk) : Prop where
  row : walk.row = sizes.sum
  groups : walk.groups = (List.range sizes.length).filter (meets sizes start stop)
  none : walk.groups = [] → walk.row ≤ start ∧ walk.first = 0
  kept : walk.groups ≠ [] → ∃ e, walk.first ≤ start ∧ 0 ≤ walk.first ∧ start < e ∧
    (e = walk.row ∨ stop ≤ e ∧ e ≤ walk.row) ∧
      walk.groups.flatMap (groupRows sizes) = rows walk.first e

theorem walked {start stop : Int} (hstart : 0 ≤ start) (hlt : start < stop) (sizes : List Nat) :
    Walked sizes start stop (sizes.zipIdx.foldl (walkGroup start stop) ⟨0, [], 0⟩) := by
  induction sizes using List.reverseRec with
  | nil => exact ⟨rfl, rfl, fun _ => ⟨hstart, rfl⟩, fun h => absurd rfl h⟩
  | append_singleton sizes size ih =>
      rw [List.zipIdx_append, List.foldl_append]
      generalize sizes.zipIdx.foldl (walkGroup start stop) ⟨0, [], 0⟩ = walk at ih ⊢
      have hend := groupStart_concat sizes size
      have hbegin : groupStart (sizes ++ [size]) sizes.length = walk.row := by
        rw [groupStart_append size le_rfl, groupStart_last, ih.row]
      have hmeets : ∀ g ∈ List.range sizes.length,
          meets (sizes ++ [size]) start stop g = meets sizes start stop g := by
        intro g hg
        have hg' := List.mem_range.mp hg
        unfold meets
        rw [groupStart_append size hg'.le, groupStart_append size hg']
      have hrows : ∀ g ∈ walk.groups, groupRows (sizes ++ [size]) g = groupRows sizes g := by
        intro g hg
        rw [ih.groups] at hg
        have hg' := List.mem_range.mp (List.mem_filter.mp hg).1
        unfold groupRows
        rw [groupStart_append size hg'.le, groupStart_append size hg']
      have hfilter : (List.range (sizes ++ [size]).length).filter
          (meets (sizes ++ [size]) start stop) = walk.groups ++
            if walk.row < stop ∧ start < walk.row + size then [sizes.length] else [] := by
        rw [List.length_append, List.length_singleton, List.range_succ, List.filter_append,
          List.filter_congr hmeets, ← ih.groups, List.filter_singleton]
        unfold meets
        rw [hbegin, hend, ← ih.row]
        simp only [Bool.cond_decide]
      change Walked _ _ _ (walkGroup start stop walk (size, 0 + sizes.length))
      rw [Nat.zero_add]
      have hsum : (((sizes ++ [size]).sum : Nat) : Int) = walk.row + size := by
        rw [ih.row, List.sum_append, List.sum_singleton, Int.natCast_add]
      have hold : walk.groups.flatMap (groupRows (sizes ++ [size])) =
          walk.groups.flatMap (groupRows sizes) := List.flatMap_congr hrows
      unfold walkGroup
      dsimp only
      by_cases hmeet : walk.row < stop ∧ start < walk.row + size
      · have hnew : groupRows (sizes ++ [size]) sizes.length =
            rows walk.row (walk.row + size) := by
          rw [groupRows, hbegin, hend, ih.row]
        rw [if_pos hmeet]
        refine ⟨hsum.symm, ?_, fun h => absurd h (by simp), fun _ => ?_⟩
        · rw [hfilter, if_pos hmeet]
        · refine ⟨walk.row + size, ?_, ?_, hmeet.2, .inl rfl, ?_⟩
          all_goals dsimp only
          all_goals by_cases hempty : walk.groups = []
          · rw [if_pos (List.isEmpty_iff.mpr hempty)]
            exact (ih.none hempty).1
          · rw [if_neg (by simpa using hempty)]
            obtain ⟨e, hfirst, -⟩ := ih.kept hempty
            exact hfirst
          · rw [if_pos (List.isEmpty_iff.mpr hempty), ih.row]
            exact Int.natCast_nonneg _
          · rw [if_neg (by simpa using hempty)]
            obtain ⟨e, -, hnonneg, -⟩ := ih.kept hempty
            exact hnonneg
          · rw [if_pos (List.isEmpty_iff.mpr hempty), hempty, List.nil_append,
              List.flatMap_singleton, hnew]
          · rw [if_neg (by simpa using hempty)]
            obtain ⟨e, hfirst, -, hbelow, hreach, hall⟩ := ih.kept hempty
            obtain rfl | ⟨hstop, hle⟩ := hreach
            · rw [List.flatMap_append, hold, hall, List.flatMap_singleton, hnew]
              exact rows_append (by omega) (by omega)
            · exact absurd hmeet.1 (by omega)
      · rw [if_neg hmeet]
        refine ⟨hsum.symm, ?_, fun h => ?_, fun h => ?_⟩
        · rw [hfilter, if_neg hmeet, List.append_nil]
        · obtain ⟨hrow, hfirst⟩ := ih.none h
          exact ⟨by dsimp only; omega, hfirst⟩
        · obtain ⟨e, hfirst, hnonneg, hbelow, hreach, hall⟩ := ih.kept h
          refine ⟨e, hfirst, hnonneg, hbelow, ?_, hold.trans hall⟩
          dsimp only
          omega

/-- The groups a range asks for. -/
theorem mem_rowGroupsFor {start stop : Int} (hstart : 0 ≤ start) (hlt : start < stop)
    (sizes : List Nat) (g : Nat) :
    g ∈ (rowGroupsFor sizes start stop).1 ↔ g < sizes.length ∧
      ((∃ x ∈ groupRows sizes g, start ≤ x ∧ x < stop) ∨
        groupRows sizes g = [] ∧ start < groupStart sizes g ∧ groupStart sizes g < stop) := by
  have hgroups : (rowGroupsFor sizes start stop).1 = _ := (walked hstart hlt sizes).groups
  rw [hgroups, List.mem_filter, List.mem_range, meets, decide_eq_true_iff]
  refine and_congr_right fun _ => ?_
  have hle : groupStart sizes g ≤ groupStart sizes (g + 1) := by
    unfold groupStart
    rw [List.take_add_one, List.sum_append, Int.natCast_add]
    omega
  have hempty : groupRows sizes g = [] ↔ groupStart sizes (g + 1) ≤ groupStart sizes g := by
    rw [groupRows, ← List.length_eq_zero_iff, length_rows]
    omega
  constructor
  · rintro ⟨hbegin, hend⟩
    by_cases hnone : groupStart sizes (g + 1) ≤ groupStart sizes g
    · exact .inr ⟨hempty.mpr hnone, by omega, hbegin⟩
    · exact .inl ⟨max start (groupStart sizes g), mem_rows.mpr ⟨by omega, by omega⟩, by omega,
        by omega⟩
  · rintro (⟨x, hx, hlow, hhigh⟩ | ⟨hnone, hbegin, hend⟩)
    · obtain ⟨hfrom, hto⟩ := mem_rows.mp hx
      exact ⟨by omega, by omega⟩
    · exact ⟨hend, by omega⟩

/-- The rows sliced out of the groups read are the range's. -/
theorem slice_rowGroupsFor {start stop : Int} (hstart : 0 ≤ start) (hlt : start < stop)
    (sizes : List Nat) :
    0 ≤ (rowGroupsFor sizes start stop).2 ∧ (rowGroupsFor sizes start stop).2 ≤ start ∧
      (((rowGroupsFor sizes start stop).1.flatMap (groupRows sizes)).drop
        (start - (rowGroupsFor sizes start stop).2).toNat).take (stop - start).toNat =
          rows start (min stop sizes.sum) := by
  have hwalk := walked hstart hlt sizes
  unfold rowGroupsFor
  generalize sizes.zipIdx.foldl (walkGroup start stop) ⟨0, [], 0⟩ = walk at hwalk ⊢
  dsimp only
  by_cases hempty : walk.groups = []
  · obtain ⟨hrow, hfirst⟩ := hwalk.none hempty
    have hshort : (sizes.sum : Int) ≤ start := by
      rw [← hwalk.row]
      exact hrow
    rw [hempty, hfirst, rows_of_le (by omega)]
    exact ⟨le_rfl, hstart, by simp⟩
  · obtain ⟨e, hfirst, hnonneg, hbelow, hreach, hall⟩ := hwalk.kept hempty
    refine ⟨hnonneg, hfirst, ?_⟩
    rw [hall, drop_rows, take_rows, Int.toNat_of_nonneg (by omega), Int.toNat_of_nonneg (by omega)]
    rw [← hwalk.row]
    congr 1 <;> omega

/-! ### All cuts -/

/-- The rows a partition reads, with the file they are of. -/
def rowsRead (count : String → String → Int) (p : Partition) : List (String × String × Int) :=
  (p.resolve (count p.uri p.tree)).range.map fun x => (p.uri, p.tree, x)

theorem rowsRead_first (count : String → String → Int) {p : Partition} (h : p.Built) (n : Nat) :
    rowsRead count (p.first n) = (rowsRead count p).take n := by
  have huri : (p.first n).uri = p.uri ∧ (p.first n).tree = p.tree := by
    unfold Partition.first
    split <;> exact ⟨rfl, rfl⟩
  unfold rowsRead
  rw [huri.1, huri.2, Partition.range_first_resolve h.wholeStep, Int.toNat_natCast, List.map_take]

theorem flatMap_blind (hn : 0 ≤ n) (hsteps : 1 ≤ steps) (uri tree : String) :
    ∃ parts : List Partition,
      (List.range steps.toNat).map (fun (s : Nat) => Partition.blind uri tree s steps) =
        parts.map some ∧ parts.flatMap (fun p => (p.resolve n).range) = rows 0 n := by
  refine ⟨(List.range steps.toNat).map fun (s : Nat) =>
    ⟨uri, tree, 0, 0, some s, some steps, none⟩, ?_, ?_⟩
  · rw [List.map_map]
    refine List.map_congr_left fun s hs => ?_
    have hlt := List.mem_range.mp hs
    exact if_neg (by omega)
  · rw [List.flatMap_map]
    exact flatMap_steps hn hsteps

theorem eventPartitions_ok {sourceType : String} {count : Option (Partition → Int)}
    {files counted : List Partition} {k : Int} (hk : 1 ≤ k)
    (h : files.mapM (countedFile sourceType count) = .ok counted) :
    eventPartitions sourceType count files k = .ok (counted.flatMap (eventRanges k)) := by
  unfold eventPartitions
  rw [if_neg (by omega), h]
  rfl

/-- What every cut of `n` entries reads, by steps, by a chunk size or by a cap. -/
structure CutsOnce (n steps size : Int) : Prop where
  blind : ∀ uri tree : String, ∃ parts : List Partition,
    (List.range steps.toNat).map (fun (s : Nat) => Partition.blind uri tree s steps) =
      parts.map some ∧ parts.flatMap (fun p => (p.resolve n).range) = rows 0 n
  eager : (eagerRanges n steps).flatMap (fun r => rows r.1 r.2) = rows 0 n
  dataset : ∀ uri tree name : String, ∃ parts,
    partitionDataset ⟨uri, n, tree, name⟩ size = .ok parts ∧
      parts.flatMap Partition.range = rows 0 n
  events : ∀ sourceType count files counted,
    files.mapM (countedFile sourceType count) = .ok counted →
      ∃ parts, eventPartitions sourceType count files size = .ok parts ∧
        parts.flatMap Partition.range = counted.flatMap Partition.range
  capped : ∀ p : Partition, p.Built → ∀ cap : Int,
    ((p.first cap).resolve n).range = (p.resolve n).range.take cap.toNat
  cappedTwice : ∀ (p : Partition) (cap cap' : Int),
    (p.first cap).first cap' = p.first (min cap' cap)
  front : ∀ (count : String → String → Int) (parts : List Partition), (∀ p ∈ parts, p.Built) →
    ∀ entries : Nat, (readFirst (rowsRead count) entries parts 0).flatten =
      (parts.flatMap (rowsRead count)).take entries
  groups : ∀ (sizes : List Nat) (start stop : Int), 0 ≤ start → start < stop →
    (∀ g, g ∈ (rowGroupsFor sizes start stop).1 ↔ g < sizes.length ∧
      ((∃ x ∈ groupRows sizes g, start ≤ x ∧ x < stop) ∨
        groupRows sizes g = [] ∧ start < groupStart sizes g ∧ groupStart sizes g < stop)) ∧
    (((rowGroupsFor sizes start stop).1.flatMap (groupRows sizes)).drop
      (start - (rowGroupsFor sizes start stop).2).toNat).take (stop - start).toNat =
        rows start (min stop sizes.sum)

/-- **Every cut reads each row once.** -/
theorem cuts_once (n steps size : Int) (hn : 0 ≤ n) (hsteps : 1 ≤ steps) (hsize : 1 ≤ size) :
    CutsOnce n steps size where
  blind := flatMap_blind hn hsteps
  eager := flatMap_eagerRanges hn hsteps
  dataset uri tree name := by
    refine ⟨_, dif_neg (by omega), ?_⟩
    exact flatMap_chunksFrom ⟨uri, n, tree, name⟩ (by omega) 0
  events sourceType count files counted h := by
    refine ⟨_, eventPartitions_ok hsize h, ?_⟩
    rw [List.flatMap_assoc]
    exact List.flatMap_congr fun file _ => flatMap_eventRanges hsize file
  capped p h cap := Partition.range_first_resolve h.wholeStep cap n
  cappedTwice p cap cap' := p.first_first cap cap'
  front count parts h entries := by
    exact flatten_readFirst (rowsRead count) (fun p hp k => rowsRead_first count (h p hp) k)
      entries 0 (Nat.zero_le _)
  groups sizes start stop hstart hlt :=
    ⟨mem_rowGroupsFor hstart hlt sizes, (slice_rowGroupsFor hstart hlt sizes).2.2⟩

theorem cuts_once_five : CutsOnce 5 3 2 := cuts_once 5 3 2 (by decide) (by decide) (by decide)

/-- A group without rows is asked for where it begins inside the range. -/
theorem emptyGroup_kept : ¬∀ g < 3, g ∈ (rowGroupsFor [2, 0, 2] 0 4).1 ↔
    ∃ x ∈ groupRows [2, 0, 2] g, 0 ≤ x ∧ x < 4 := by
  intro h
  obtain ⟨x, hx, -⟩ := (h 1 (by decide)).mp (by decide)
  have hnone : groupRows [2, 0, 2] 1 = [] := by decide
  rw [hnone] at hx
  cases hx

end Graphed
