import Graphed.Execution.Barriers
import Mathlib.Data.Finset.Card
import Mathlib.Logic.Encodable.Pi
import Mathlib.Logic.Equiv.List

/-!
# A shuffled run is the whole run

Each destination gathers the rows routed to it, of every partition in order. So the fold of the
destinations is the value of the graph on the whole dataset, where rows of different groups add up:
the rows of one key under a hash route, of one partition under a count.
-/

namespace Graphed.Exchange

open Evaluator JsonText Routing

variable {ρ X R : Type}

/-! ### Routes -/

section Routes

variable (B : Backend ρ X)

/-- What a row, of a task, is routed by: its key, or its task. -/
def Route.group (r : Route) (row : Int × ρ) : Int :=
  match r.scheme with
  | .hash => (B.key r.key row.2).toNat
  | _ => row.1

/-- The destination of a group. -/
def Route.destOf (r : Route) (group : Int) : Nat :=
  match r.scheme with
  | .hash => route B.sha256 (BitVec.ofInt 64 group) r.parts 0
  | _ => (group % r.parts).toNat

variable {B}

theorem Route.destOf_lt {r : Route} (hparts : 0 < r.parts) (group : Int) :
    r.destOf B group < r.parts := by
  have hmod : (group % r.parts).toNat < r.parts := by
    have hpos : (0 : Int) < r.parts := by omega
    have hlt := Int.emod_lt_of_pos group hpos
    omega
  unfold Route.destOf
  cases r.scheme with
  | hash => exact route_lt _ _ hparts _
  | _ => exact hmod

theorem Route.destOf_hash {r : Route} (hscheme : r.scheme = .hash) (row : Int × ρ) :
    r.destOf B (r.group B row) = route B.sha256 (B.key r.key row.2) r.parts 0 := by
  unfold Route.destOf Route.group
  rw [hscheme]
  simp only [BitVec.ofInt_natCast, BitVec.ofNat_toNat, BitVec.setWidth_eq]

theorem enumerated_range {V : Type} (parts : Nat) (f : Nat → V) :
    enumerated ((List.range parts).map f) =
      (List.range parts).map fun d : Nat => ((d : Int), f d) := by
  apply List.ext_getElem (by simp [enumerated])
  intro i hi hi'
  simp [enumerated]

/-- A block's rows reach the destinations of their groups. -/
theorem MapWrite.routed_block {w : MapWrite ρ X} (hscheme : w.route.scheme ≠ .position)
    (hparts : 0 < w.route.parts) (task : Task) (rows : List ρ) :
    w.routed B task (.block rows) = .ok ((List.range w.route.parts).map fun d : Nat =>
      ((d : Int), .block (rows.filter fun x =>
        w.route.destOf B (w.route.group B (task.key, x)) = d))) := by
  unfold MapWrite.routed
  cases hroute : w.route.scheme with
  | position => exact absurd hroute hscheme
  | hash =>
      simp only [Backend.partition_block, buckets, List.map_map, Except.map]
      rw [enumerated_range]
      congr 1
      apply List.map_congr_left
      intro d _
      simp only [Function.comp_apply, Route.destOf_hash hroute]
  | count =>
      change Except.ok (enumerated ((List.range w.route.parts).map fun d : Nat =>
        if (d : Int) = task.key % w.route.parts then Held.block rows else .block [])) = _
      rw [enumerated_range]
      congr 1
      apply List.map_congr_left
      intro d _
      have hnonneg := Int.emod_nonneg task.key (b := (w.route.parts : Int)) (by omega)
      have hdest : ∀ x : ρ, w.route.destOf B (w.route.group B (task.key, x)) =
          (task.key % w.route.parts).toNat := by
        intro x
        unfold Route.destOf Route.group
        rw [hroute]
      by_cases hd : (d : Int) = task.key % w.route.parts
      · rw [if_pos hd, List.filter_eq_self.mpr]
        intro x _
        rw [hdest x]
        exact decide_eq_true (by omega)
      · rw [if_neg hd, List.filter_eq_nil_iff.mpr]
        intro x _
        rw [hdest x]
        simp only [decide_eq_true_eq]
        omega

end Routes

/-! ### The stages' payloads -/

section Payloads

variable {B : Backend ρ X} {P : Pickle R}

/-- A map task's payload, given the block of each destination. -/
def payload (B : Backend ρ X) (P : Pickle R) (parts : Nat) (block : Nat → List ρ) : List UInt8 :=
  P.dumpsBlocks ((List.range parts).map fun d : Nat => ((d : Int), B.toWire (.block (block d))))

theorem lookup_range {V : Type} {parts : Nat} (f : Nat → V) {d : Nat} (hd : d < parts) :
    ((List.range parts).map fun e : Nat => ((e : Int), f e)).lookup (d : Int) = some (f d) := by
  induction parts with
  | zero => omega
  | succ n ih =>
      rw [List.range_succ, List.map_append, List.lookup_append]
      rcases Nat.lt_succ_iff_lt_or_eq.mp hd with hlt | rfl
      · rw [ih hlt]
        rfl
      · have hnone : ((List.range d).map fun e : Nat => ((e : Int), f e)).lookup (d : Int) =
            none := by
          rw [List.lookup_eq_none_iff]
          intro item hitem
          obtain ⟨e, he, rfl⟩ := List.mem_map.mp hitem
          have hlt := List.mem_range.mp he
          simp only [bne_iff_ne, ne_eq]
          omega
        rw [hnone, List.map_singleton, List.lookup_cons_self]
        rfl

/-- A gather finds its destination's blocks, one map task after the other. -/
theorem Gather.blocks_payloads {α : Type} {parts d : Nat} (hd : d < parts) (tasks : List α)
    (block : α → Nat → List ρ) :
    Gather.blocks B P d (tasks.map fun t => payload B P parts (block t)) =
      .ok (tasks.map fun t => .block (block t d)) := by
  have hsplit : (tasks.map fun t => payload B P parts (block t)).mapM (split P) =
      .ok (tasks.map fun t => (List.range parts).map fun e : Nat =>
        ((e : Int), B.toWire (.block (block t e)))) := by
    rw [Attempts.mapM_map]
    exact Attempts.mapM_of_ok fun t _ => P.loads_dumpsBlocks _
  have hlookup : (tasks.map fun t => (List.range parts).map fun e : Nat =>
      ((e : Int), B.toWire (.block (block t e)))).filterMap (·.lookup (d : Int)) =
        tasks.map fun t => B.toWire (.block (block t d)) := by
    rw [List.filterMap_map, ← List.filterMap_eq_map]
    apply List.filterMap_congr
    intro t _
    exact lookup_range _ hd
  unfold Gather.blocks
  rw [hsplit]
  change (List.filterMap _ _).mapM B.fromWire = _
  rw [hlookup, Attempts.mapM_map]
  exact Attempts.mapM_of_ok fun t _ => B.fromWire_toWire _

/-- Nothing is lost when a gather is handed its own destination's blocks only. -/
theorem Gather.blocks_pick (d : Int) (mappings : List (List (Int × List UInt8))) :
    Gather.blocks B P d (mappings.map fun mapping => pick P mapping d) =
      Gather.blocks B P d (mappings.map P.dumpsBlocks) := by
  have hsplit : ∀ f : List (Int × List UInt8) → List (Int × List UInt8),
      (mappings.map fun mapping => P.dumpsBlocks (f mapping)).mapM (split P) =
        .ok (mappings.map f) := by
    intro f
    rw [Attempts.mapM_map]
    exact Attempts.mapM_of_ok fun mapping _ => P.loads_dumpsBlocks _
  have hpicked : (mappings.map fun mapping =>
      (mapping.lookup d).elim [] fun block => [(d, block)]).filterMap (·.lookup d) =
        mappings.filterMap (·.lookup d) := by
    rw [List.filterMap_map]
    apply List.filterMap_congr
    intro mapping _
    rw [Function.comp_apply]
    cases mapping.lookup d with
    | none => rfl
    | some block =>
        rw [Option.elim_some, List.lookup_cons_self]
  have hwhole := hsplit id
  rw [List.map_id] at hwhole
  unfold Gather.blocks pick
  rw [hsplit fun mapping => (mapping.lookup d).elim [] fun block => [(d, block)]]
  change (List.filterMap _ _).mapM B.fromWire = _
  rw [hpicked]
  change _ = ((mappings.map fun mapping => P.dumpsBlocks (id mapping)).mapM (split P) >>= _)
  rw [hwhole]
  rfl

/-- A shuffle's gather evaluates the graph on its destination's rows. -/
theorem Gather.call_payloads {E : Evaluator (Held ρ X) Raised} {g : Gather ρ X R} {target : Nat}
    (hleft : g.nLeft = none) (hbarrier : g.barrierInputs = [target]) {α : Type} {tasks : List α}
    (htasks : tasks ≠ []) {parts d : Nat} (hd : d < parts) (block : α → Nat → List ρ)
    {task : Task} (hkey : task.key = d) :
    g.call B P E task (tasks.map fun t => payload B P parts (block t)) =
      (g.after E [(target, .block (tasks.flatMap fun t => block t d))]).map P.dumps := by
  have hne : (tasks.map fun t => block t d) ≠ [] := by simpa using htasks
  have hconcat := B.concat_blocks hne
  rw [List.map_map] at hconcat
  have hgiven : g.given B (tasks.map fun t => .block (block t d)) =
      .ok [(target, .block (tasks.flatMap fun t => block t d))] := by
    unfold Gather.given
    rw [hleft, hbarrier]
    change ([(target, tasks.map fun t => Held.block (block t d))].mapM _ >>= _) = _
    rw [List.mapM_cons]
    change (((B.concat (tasks.map (Held.block ∘ fun t => block t d))).map _ >>= _) >>= _) = _
    rw [hconcat]
    rfl
  unfold Gather.call
  rw [hkey, Gather.blocks_payloads hd]
  change (g.given B _ >>= _) = _
  rw [hgiven]
  change (g.after E _ >>= _) = _
  cases g.after E [(target, .block (tasks.flatMap fun t => block t d))] with
  | error e => rfl
  | ok value => rfl

end Payloads

/-! ### The run -/

/-- Folding with refusals: each value first, then the fold. -/
theorem foldl_eq_ok_iff {ε α β : Type} {f : α → Except ε β} {op : β → β → Except ε β} {xs : List α}
    {acc : Except ε β} {v : β} :
    xs.foldl (fun acc x => do
      let a ← acc
      let b ← f x
      op a b) acc = .ok v ↔
      ∃ bs a, xs.mapM f = .ok bs ∧ acc = .ok a ∧ bs.foldlM op a = .ok v := by
  induction xs generalizing acc with
  | nil =>
      constructor
      · intro h
        exact ⟨[], v, rfl, h, rfl⟩
      · rintro ⟨bs, a, hbs, ha, hfold⟩
        cases hbs
        cases hfold
        exact ha
  | cons x xs ih =>
      rw [List.foldl_cons, ih]
      constructor
      · rintro ⟨bs, a', hbs, hstep, hfold⟩
        obtain ⟨a, ha, hrest⟩ := Attempts.bind_eq_ok_iff.mp hstep
        obtain ⟨b, hb, hop⟩ := Attempts.bind_eq_ok_iff.mp hrest
        refine ⟨b :: bs, a, Attempts.mapM_cons_eq_ok_iff.mpr ⟨b, bs, hb, hbs, rfl⟩, ha, ?_⟩
        rw [List.foldlM_cons]
        exact Attempts.bind_eq_ok_iff.mpr ⟨a', hop, hfold⟩
      · rintro ⟨all, a, hall, ha, hfold⟩
        obtain ⟨b, bs, hb, hbs, rfl⟩ := Attempts.mapM_cons_eq_ok_iff.mp hall
        rw [List.foldlM_cons] at hfold
        obtain ⟨a', hop, hfold⟩ := Attempts.bind_eq_ok_iff.mp hfold
        exact ⟨bs, a', hbs, Attempts.bind_eq_ok_iff.mpr
          ⟨a, ha, Attempts.bind_eq_ok_iff.mpr ⟨b, hb, hop⟩⟩, hfold⟩

/-- Merging values that may be refused. -/
def merged (fold : Fold R) (a b : Except Raised R) : Except Raised R := do
  let a ← a
  let b ← b
  fold.combine a b

section Run

variable {B : Backend ρ X} {P : Pickle R} {E : Evaluator (Held ρ X) Raised}

theorem Fold.call_dumps (fold : Fold R) (task : Task) (values : List R) :
    fold.call P task (values.map P.dumps) =
      (fold.empty >>= fun empty => values.foldlM fold.combine empty).map P.dumps := by
  have hfold : ∀ empty, (values.map P.dumps).foldlM (fun acc payload => do
      let value ← P.loads payload
      fold.combine acc value) empty = values.foldlM fold.combine empty := by
    intro empty
    rw [List.foldlM_map]
    simp only [P.loads_dumps]
    rfl
  unfold Fold.call
  simp only [hfold]
  cases fold.empty with
  | error e => rfl
  | ok empty =>
      change (values.foldlM fold.combine empty >>= fun value => Except.ok (P.dumps value)) =
        (values.foldlM fold.combine empty).map P.dumps
      cases values.foldlM fold.combine empty with
      | error e => rfl
      | ok value => rfl

theorem mapM_map_ok {α β γ : Type} (f : α → Except Raised β) (g : β → γ) (xs : List α) :
    (xs.mapM fun x => (f x).map g) = (xs.mapM f).map fun ys => ys.map g := by
  induction xs with
  | nil => rfl
  | cons x xs ih =>
      rw [List.mapM_cons, List.mapM_cons, ih]
      cases f x with
      | error e => rfl
      | ok y =>
          cases xs.mapM f with
          | error e => rfl
          | ok ys => rfl

theorem mapTasks_ne_nil {partitions : List Partition} (h : partitions ≠ []) :
    mapTasks partitions ≠ [] := by
  simpa [mapTasks] using h

theorem mem_mapTasks {partitions : List Partition} {task : Task}
    (h : task ∈ mapTasks partitions) : task.partition ∈ partitions := by
  obtain ⟨p, hp, rfl⟩ := List.mem_map.mp h
  exact List.fst_mem_of_mem_zipIdx hp

/-- What the map tasks write. -/
theorem mapM_mapTasks {w : MapWrite ρ X} (hscheme : w.route.scheme ≠ .position)
    (hparts : 0 < w.route.parts) {partitions : List Partition} {rows : Partition → List ρ}
    (hrows : ∀ p ∈ partitions, w.value E p = .ok (.block (rows p))) (upstream : List (List UInt8)) :
    (mapTasks partitions).mapM (fun task => w.call B P E task upstream) =
      .ok ((mapTasks partitions).map fun t => payload B P w.route.parts fun d =>
        (rows t.partition).filter fun x =>
          w.route.destOf B (w.route.group B (t.key, x)) = d) := by
  apply Attempts.mapM_of_ok
  intro task htask
  unfold MapWrite.call
  rw [hrows _ (mem_mapTasks htask)]
  change (w.routed B task (.block (rows task.partition)) >>= _) = _
  rw [MapWrite.routed_block hscheme hparts]
  change Except.ok (P.dumpsBlocks (List.map _ (List.map _ _))) = _
  rw [List.map_map]
  rfl

/-- What the gathers write. -/
theorem mapM_destTasks {g : Gather ρ X R} {target : Nat} (hleft : g.nLeft = none)
    (hbarrier : g.barrierInputs = [target]) {α : Type} {tasks : List α} (htasks : tasks ≠ [])
    (parts : Nat) (block : α → Nat → List ρ) :
    ((destTasks parts).mapM fun task =>
      g.call B P E task (tasks.map fun t => payload B P parts (block t))) =
      ((List.range parts).mapM fun d : Nat =>
        g.after E [(target, .block (tasks.flatMap fun t => block t d))]).map
          fun values => values.map P.dumps := by
  rw [destTasks, Attempts.mapM_map, ← mapM_map_ok]
  apply Attempts.mapM_congr
  intro d hd
  exact Gather.call_payloads hleft hbarrier htasks (List.mem_range.mp hd) block rfl

/-- A plan of one side and a fold, given what its map tasks write and what its gathers return. -/
theorem runPlan_build (I : Identity) (w : MapWrite ρ X) (g : Gather ρ X R) (fold : Fold R)
    {partitions : List Partition} {parts : Nat} {out : List (List UInt8)}
    (hmap : (mapTasks partitions).mapM (fun task => w.call B P E task []) = .ok out)
    {values : Except Raised (List R)}
    (hgather : (destTasks parts).mapM (fun task => g.call B P E task out) =
      values.map fun values => values.map P.dumps) :
    runPlan P (build B P E I "gather" [(w, partitions)] g parts (some fold)) =
      (values >>= fun values => fold.empty >>= fun empty =>
        values.foldlM fold.combine empty).map .folded := by
  have hstages : runStages (build B P E I "gather" [(w, partitions)] g parts (some fold)).stages
      [] = (values >>= fun values =>
        (fold.call P ⟨0, ⟨"reduce", "", 0, 1, none, none, none⟩⟩ (values.map P.dumps)).map
          fun last => [out, values.map P.dumps, [last]]) := by
    change ((mapTasks partitions).mapM (fun task => w.call B P E task []) >>= fun out =>
      runStages _ [out]) = _
    rw [hmap]
    change ((destTasks parts).mapM (fun task => g.call B P E task (out ++ [])) >>= fun out' =>
      runStages _ [out, out']) = _
    rw [List.append_nil, hgather]
    cases values with
    | error e => rfl
    | ok values =>
        change ([_].mapM (fun task => fold.call P task (values.map P.dumps ++ [])) >>= fun last =>
          runStages [] [out, values.map P.dumps, last]) = _
        rw [List.append_nil, List.mapM_cons]
        change ((fold.call P _ (values.map P.dumps) >>= _) >>= _) = Except.map _ _
        cases fold.call P ⟨0, ⟨"reduce", "", 0, 1, none, none, none⟩⟩ (values.map P.dumps) with
        | error e => rfl
        | ok last => rfl
  unfold runPlan lastPayloads
  rw [hstages]
  cases values with
  | error e => rfl
  | ok values =>
      change (((fold.call P _ (values.map P.dumps)).map _ >>= _) >>= _) =
        (fold.empty >>= fun empty => values.foldlM fold.combine empty).map _
      rw [Fold.call_dumps]
      cases fold.empty >>= fun empty => values.foldlM fold.combine empty with
      | error e => rfl
      | ok value =>
          change planValue P _ [P.dumps value] = _
          unfold planValue
          rw [List.mapM_cons, P.loads_dumps]
          rfl

/-- What a folded shuffle returns: each destination's value on its rows, folded in order. -/
theorem runPlan_shuffle (I : Identity) {w : MapWrite ρ X} {g : Gather ρ X R} {fold : Fold R}
    (hscheme : w.route.scheme ≠ .position) (hparts : 0 < w.route.parts)
    (hleft : g.nLeft = none) (hbarrier : g.barrierInputs = [w.target])
    {partitions : List Partition} (hpartitions : partitions ≠ []) {rows : Partition → List ρ}
    (hrows : ∀ p ∈ partitions, w.value E p = .ok (.block (rows p))) {v : RunValue R} :
    runPlan P (build B P E I "gather" [(w, partitions)] g w.route.parts (some fold)) = .ok v ↔
      ∃ value, v = .folded value ∧ (buckets (w.route.destOf B ∘ w.route.group B) w.route.parts
        ((mapTasks partitions).flatMap fun t => (rows t.partition).map fun x => (t.key, x))).foldl
          (fun acc tagged =>
            merged fold acc (g.after E [(w.target, .block (tagged.map Prod.snd))])) fold.empty =
        .ok value := by
  have hbuckets : (buckets (w.route.destOf B ∘ w.route.group B) w.route.parts
      ((mapTasks partitions).flatMap fun t => (rows t.partition).map fun x => (t.key, x))) =
        (List.range w.route.parts).map fun d => (mapTasks partitions).flatMap fun t =>
          ((rows t.partition).filter fun x =>
            w.route.destOf B (w.route.group B (t.key, x)) = d).map fun x => (t.key, x) := by
    apply List.map_congr_left
    intro d _
    rw [List.filter_flatMap]
    apply List.flatMap_congr
    intro t _
    rw [List.filter_map]
    rfl
  rw [hbuckets, List.foldl_map, runPlan_build I w g fold (mapM_mapTasks hscheme hparts hrows [])
    (mapM_destTasks hleft hbarrier (mapTasks_ne_nil hpartitions) _ _)]
  have hrows' : ∀ d : Nat, ((mapTasks partitions).flatMap fun t =>
      ((rows t.partition).filter fun x =>
        w.route.destOf B (w.route.group B (t.key, x)) = d).map fun x => (t.key, x)).map Prod.snd =
      (mapTasks partitions).flatMap fun t => (rows t.partition).filter fun x =>
        w.route.destOf B (w.route.group B (t.key, x)) = d := by
    intro d
    rw [List.map_flatMap]
    apply List.flatMap_congr
    intro t _
    rw [List.map_map]
    exact List.map_id _
  simp only [hrows', merged, foldl_eq_ok_iff, Attempts.map_eq_ok_iff, Attempts.bind_eq_ok_iff]
  constructor
  · rintro ⟨value, ⟨values, hvalues, empty, hempty, hfold⟩, rfl⟩
    exact ⟨value, rfl, values, empty, hvalues, hempty, hfold⟩
  · rintro ⟨value, rfl, values, empty, hvalues, hempty, hfold⟩
    exact ⟨value, ⟨values, hvalues, empty, hempty, hfold⟩, rfl⟩

/-- **A shuffled run is the whole run.** Where the barrier's input is the rows of the chunks in
order, and what is recorded after it adds up over rows of different keys under a hash route, or of
different partitions under a count, the plan's value is that of the graph on the whole dataset. -/
theorem shuffled_whole (I : Identity) {w : MapWrite ρ X} {barrier : Nat} {params : ParamMap}
    (hbarrier : Barrier w.nodes w.marked barrier (.exchange params [w.target]))
    (hscheme : w.route.scheme ≠ .position) (hparts : 0 < w.route.parts)
    {partitions : List Partition} (hpartitions : partitions ≠ []) {rows : Partition → List ρ}
    (hrows : ∀ p ∈ partitions, w.value E p = .ok (.block (rows p))) {whole : Held ρ X}
    (hwhole : w.evaluated E whole = .ok (.block (partitions.flatMap rows)))
    {reduce : List (Option (Held ρ X)) → Except Raised R} {fold : Fold R}
    (hadditive : KeyAdditive (w.route.group B) (fun tagged =>
      (⟨w.nodes, w.marked, [w.target], none, reduce⟩ : Gather ρ X R).after E
        [(w.target, .block (tagged.map Prod.snd))]) (merged fold) fold.empty)
    (v : RunValue R) :
    runPlan P (shufflePlan B P E I w partitions reduce fold) = .ok v ↔
      ∃ value, v = .folded value ∧ wholeValue E w reduce whole = .ok value := by
  have hall : ((mapTasks partitions).flatMap fun t =>
      (rows t.partition).map fun x => (t.key, x)).map Prod.snd = partitions.flatMap rows := by
    rw [List.map_flatMap]
    have hrows' : ∀ t : Task, ((rows t.partition).map fun x => (t.key, x)).map Prod.snd =
        rows t.partition := by
      intro t
      rw [List.map_map]
      exact List.map_id _
    simp only [hrows']
    rw [mapTasks, List.flatMap_map]
    conv_rhs => rw [← List.zipIdx_map_fst 0 partitions, List.flatMap_map]
  have hlt : ∀ row ∈ (mapTasks partitions).flatMap fun t =>
      (rows t.partition).map fun x => (t.key, x),
      w.route.destOf B (w.route.group B row) < w.route.parts := fun row _ =>
    w.route.destOf_lt hparts _
  have hvalue := MapWrite.plainValue_of_evaluated hbarrier.wellFormed
    (hbarrier.target_lt List.mem_cons_self) hwhole
  have hvalues : (IrNode.exchange params [w.target]).inputs.mapM
      ((bound E [(w.sourceName, .ok whole)]).plainValue true w.nodes []) =
        .ok [.block (partitions.flatMap rows)] := by
    change [w.target].mapM _ = _
    rw [mapM_eq_ok, List.map_singleton, hvalue, List.map_singleton]
  rw [shufflePlan, runPlan_shuffle I hscheme hparts rfl rfl hpartitions hrows,
    hadditive.foldl_buckets hlt, hall]
  apply exists_congr
  intro value
  apply and_congr_right
  intro _
  unfold Gather.after wholeValue
  rw [Attempts.bind_eq_ok_iff, Attempts.bind_eq_ok_iff]
  apply exists_congr
  intro slots
  exact and_congr_left fun _ => hbarrier.evaluate_whole hvalues slots

end Run

/-! ### Counting distinct bytes -/

/-- Bytes are the rows, each its own key, and a block is written as its bytes. -/
def byteBackend : Backend UInt8 Empty where
  sha256 bytes := bytes.reverse
  key _ row := BitVec.ofNat 64 row.toNat
  toWire
    | .block rows => rows
    | .other x => x.elim
  fromWire bytes := .ok (.block bytes)
  fromWire_toWire
    | .block _ => rfl
    | .other x => x.elim
  notRows := typeError "no rows"
  noBlocks := valueError "need at least one array to concatenate"

theorem unary_loads (value : Nat) :
    (.ok (List.replicate value (0 : UInt8)).length : Except Raised Nat) = .ok value := by
  rw [List.length_replicate]

/-- Payloads as long as their code. -/
def unaryPickle : Pickle Nat where
  dumpsBlocks blocks :=
    List.replicate (Encodable.encode (blocks.map fun block =>
      (block.1, block.2.map UInt8.toNat))) 0
  loadsBlocks bytes :=
    match (Encodable.decode bytes.length : Option (List (Int × List Nat))) with
    | some blocks => .ok (blocks.map fun block => (block.1, block.2.map UInt8.ofNat))
    | none => .error (valueError "not a payload")
  loads_dumpsBlocks blocks := by
    have hbytes : ∀ bytes : List UInt8, (bytes.map UInt8.toNat).map UInt8.ofNat = bytes := by
      intro bytes
      rw [List.map_map]
      exact (List.map_congr_left fun b _ => UInt8.ofNat_toNat).trans (List.map_id _)
    rw [List.length_replicate, Encodable.encodek]
    simp only [List.map_map]
    congr 1
    refine (List.map_congr_left fun block _ => ?_).trans (List.map_id _)
    exact Prod.ext rfl (hbytes block.2)
  dumps value := List.replicate value 0
  loads bytes := .ok bytes.length
  loads_dumps := unary_loads

/-- Operations that answer their one operand. -/
def identities : Evaluator (Held UInt8 Empty) Raised where
  sources := []
  evalStage _ ins _ :=
    match ins with
    | [some value] => .ok value
    | _ => .error (typeError "one operand")
  unalignedOps := []
  rows _ := none
  externals := []
  dumps _ := "{}"
  repr _ := ""
  onFailure := none
  unboundSource name := typeError name
  unboundExternal hash := typeError hash
  misaligned op _ := valueError op
  unknownKind kind := typeError kind

def byteRows (p : Partition) : List UInt8 := if p.entryStart = 0 then [7, 1, 7] else [1, 4]

/-- Read bytes, shuffled by value to three destinations. -/
def byteWrite : MapWrite UInt8 Empty where
  nodes := [.source "events" (.new []), .exchange (.new [("scheme", .str "hash")]) [0]]
  marked := [1]
  target := 0
  sourceName := "events"
  reader p := .ok (.block (byteRows p))
  route := ⟨.hash, "value", 3⟩

def distinct : List (Option (Held UInt8 Empty)) → Except Raised Nat
  | [some (.block rows)] => .ok rows.toFinset.card
  | _ => .error (typeError "one block")

theorem barrier_byteWrite : Barrier byteWrite.nodes byteWrite.marked 1
    (.exchange (.new [("scheme", .str "hash")]) [0]) where
  wellFormed := by
    refine ⟨?_, ?_, ?_⟩
    · have hall : ∀ i : Fin byteWrite.nodes.length, ∀ j ∈ byteWrite.nodes[i].inputs, j < i := by
        decide
      intro i nd hnd
      obtain ⟨hi, rfl⟩ := List.getElem?_eq_some_iff.mp hnd
      exact hall ⟨i, hi⟩
    all_goals
      intro ins members hmem
      simp [byteWrite] at hmem
  node := rfl
  marked_lt := by decide
  cone := by
    have hone : Demanded byteWrite.nodes [] byteWrite.marked 1 := .output List.mem_cons_self
    intro n hn
    rcases n with _ | _ | n
    · exact .input hone List.not_mem_nil rfl List.mem_cons_self
    · exact hone
    · exact absurd hn (by simp [byteWrite])
  noSource := by
    intro n nd hn hnd name params hsource
    have hzero : n = 0 := by
      rw [hsource] at hnd
      match n with
      | 0 => rfl
      | 1 => cases hnd
      | n + 2 => cases hnd
    rw [hzero] at hn
    generalize hm : 0 = m at hn
    cases hn with
    | output ho => simp [byteWrite] at ho; omega
    | @input _ k nd' hk hcut hnd' hmem =>
        rcases k with _ | _ | k
        · cases hnd'
          exact absurd hmem List.not_mem_nil
        · exact hcut List.mem_cons_self
        · cases hnd'

/-- How many distinct bytes there are adds up over bytes that are not shared. -/
theorem keyAdditive_distinct : KeyAdditive (byteWrite.route.group byteBackend)
    (fun tagged => (⟨byteWrite.nodes, byteWrite.marked, [byteWrite.target], none, distinct⟩ :
      Gather UInt8 Empty Nat).after identities [(byteWrite.target,
        .block (tagged.map Prod.snd))]) (merged ⟨fun a b => .ok (a + b), .ok 0⟩) (.ok 0) := by
  have hafter : ∀ tagged : List (Int × UInt8),
      (⟨byteWrite.nodes, byteWrite.marked, [byteWrite.target], none, distinct⟩ :
        Gather UInt8 Empty Nat).after identities [(byteWrite.target,
          .block (tagged.map Prod.snd))] = .ok (tagged.map Prod.snd).toFinset.card := fun _ => rfl
  have hgroup : ∀ row : Int × UInt8, byteWrite.route.group byteBackend row = row.2.toNat := by
    intro row
    have hlt := row.2.toNat_lt
    change ((BitVec.ofNat 64 row.2.toNat).toNat : Int) = _
    rw [BitVec.toNat_ofNat, Nat.mod_eq_of_lt (by omega)]
  refine ⟨rfl, fun xs ys h => ?_, fun xs ys h => ?_⟩
  · rw [hafter, hafter, hafter, List.map_append, List.toFinset_append]
    change Except.ok _ = Except.ok (_ + _)
    rw [Finset.card_union_of_disjoint]
    rw [Finset.disjoint_left]
    intro b hbx hby
    obtain ⟨x, hx, hxb⟩ := List.mem_map.mp (List.mem_toFinset.mp hbx)
    obtain ⟨y, hy, hyb⟩ := List.mem_map.mp (List.mem_toFinset.mp hby)
    apply h x hx y hy
    rw [hgroup, hgroup, hxb, hyb]
  · rw [hafter, hafter, List.toFinset_eq_of_perm _ _ (h.perm.map Prod.snd)]

/-- Two partitions with a byte in common, and the whole with one byte read twice. -/
theorem shuffled_whole_bytes : ∃ value,
    runPlan unaryPickle (shufflePlan byteBackend unaryPickle identities
      ⟨[], fun _ => [], fun _ => .nil⟩ byteWrite
      [⟨"a", "t", 0, 3, none, none, none⟩, ⟨"a", "t", 3, 5, none, none, none⟩] distinct
      ⟨fun a b => .ok (a + b), .ok 0⟩) = .ok (.folded value) ∧
    wholeValue identities byteWrite distinct (.block [7, 1, 7, 1, 4]) = .ok value := by
  have hrows : ∀ p ∈ [(⟨"a", "t", 0, 3, none, none, none⟩ : Partition),
      ⟨"a", "t", 3, 5, none, none, none⟩],
      byteWrite.value identities p = .ok (.block (byteRows p)) := fun _ _ => rfl
  exact ⟨3, (shuffled_whole ⟨[], fun _ => [], fun _ => .nil⟩ barrier_byteWrite (by decide)
    (by decide) (by decide) hrows rfl keyAdditive_distinct _).mpr ⟨3, rfl, rfl⟩, rfl⟩

end Graphed.Exchange
