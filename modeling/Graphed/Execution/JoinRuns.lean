import Graphed.Execution.ShuffleRuns
import Graphed.Library.KeyedJoins

/-!
# A joined run is the whole run

Both sides of a join are routed by one key, so a destination has all rows of the keys it is sent, of
both sides, and decides by itself which of them match none. The destinations' joins are the join of
the whole, and their fold is its value.
-/

namespace Graphed.Exchange

open Evaluator JsonText Routing

variable {ρ X R : Type} {B : Backend ρ X} {P : Pickle R} {E : Evaluator (Held ρ X) Raised}

/-! ### The gathers of two sides -/

/-- A join's gather evaluates the graph on its destination's rows of both sides. -/
theorem Gather.call_sides {g : Gather ρ X R} {t t' : Nat} {α : Type}
    {tasks tasks' : List α} (hleft : g.nLeft = some tasks.length)
    (hbarrier : g.barrierInputs = [t, t']) (htasks : tasks ≠ []) (htasks' : tasks' ≠ [])
    {parts d : Nat} (hd : d < parts) (block block' : α → Nat → List ρ) {task : Task}
    (hkey : task.key = d) :
    g.call B P E task ((tasks.map fun s => payload B P parts (block s)) ++
        tasks'.map fun s => payload B P parts (block' s)) =
      (g.after E [(t, .block (tasks.flatMap fun s => block s d)),
        (t', .block (tasks'.flatMap fun s => block' s d))]).map P.dumps := by
  have hinputs : (tasks.map fun s => payload B P parts (block s)) ++
      (tasks'.map fun s => payload B P parts (block' s)) =
        (tasks.map Sum.inl ++ tasks'.map Sum.inr).map fun s : α ⊕ α =>
          payload B P parts (Sum.elim block block' s) := by
    rw [List.map_append, List.map_map, List.map_map]
    rfl
  have hblocks : (tasks.map Sum.inl ++ tasks'.map Sum.inr).map (fun s : α ⊕ α =>
      Held.block (X := X) (Sum.elim block block' s d)) =
        (tasks.map fun s => Held.block (block s d)) ++
          tasks'.map fun s => Held.block (block' s d) := by
    rw [List.map_append, List.map_map, List.map_map]
    rfl
  have hconcat : ∀ {rows : List α} (f : α → List ρ), rows ≠ [] →
      B.concat (rows.map fun s => .block (f s)) = .ok (.block (rows.flatMap f)) := by
    intro rows f hrows
    have hne : rows.map f ≠ [] := by simpa using hrows
    have h := B.concat_blocks hne
    rwa [List.map_map] at h
  have hgiven : g.given B ((tasks.map fun s => .block (block s d)) ++
      tasks'.map fun s => .block (block' s d)) =
        .ok [(t, .block (tasks.flatMap fun s => block s d)),
          (t', .block (tasks'.flatMap fun s => block' s d))] := by
    have hlength : tasks.length = (tasks.map fun s => Held.block (X := X) (block s d)).length := by
      rw [List.length_map]
    unfold Gather.given
    rw [hleft, hbarrier]
    simp only [hlength, List.take_left, List.drop_left]
    change ([(t, tasks.map fun s => Held.block (block s d)),
      (t', tasks'.map fun s => Held.block (block' s d))].mapM _ >>= _) = _
    rw [List.mapM_cons, List.mapM_cons]
    change (((B.concat (tasks.map fun s => Held.block (block s d))).map (t, ·)) >>= fun side =>
      ((B.concat (tasks'.map fun s => Held.block (block' s d))).map (t', ·) >>= fun side' =>
        Except.ok [side']) >>= fun sides => Except.ok (side :: sides)) >>= _ = _
    rw [hconcat _ htasks, hconcat _ htasks']
    rfl
  unfold Gather.call
  rw [hkey, hinputs, Gather.blocks_payloads hd, hblocks]
  change (g.given B _ >>= _) = _
  rw [hgiven]
  change (g.after E _ >>= _) = _
  cases g.after E [(t, .block (tasks.flatMap fun s => block s d)),
      (t', .block (tasks'.flatMap fun s => block' s d))] with
  | error e => rfl
  | ok value => rfl

/-- What the gathers of a join write. -/
theorem mapM_destTasks_sides {g : Gather ρ X R} {t t' : Nat} {α : Type} {tasks tasks' : List α}
    (hleft : g.nLeft = some tasks.length) (hbarrier : g.barrierInputs = [t, t'])
    (htasks : tasks ≠ []) (htasks' : tasks' ≠ []) (parts : Nat) (block block' : α → Nat → List ρ) :
    ((destTasks parts).mapM fun task =>
      g.call B P E task ((tasks.map fun s => payload B P parts (block s)) ++
        tasks'.map fun s => payload B P parts (block' s))) =
      ((List.range parts).mapM fun d : Nat =>
        g.after E [(t, .block (tasks.flatMap fun s => block s d)),
          (t', .block (tasks'.flatMap fun s => block' s d))]).map
          fun values => values.map P.dumps := by
  rw [destTasks, Attempts.mapM_map, ← mapM_map_ok]
  apply Attempts.mapM_congr
  intro d hd
  exact Gather.call_sides hleft hbarrier htasks htasks' (List.mem_range.mp hd) block block' rfl

/-! ### The plan -/

/-- What a plan makes of its destinations' values. -/
def outcome (fold : Option (Fold R)) (values : List R) : Except Raised (RunValue R) :=
  match fold with
  | none => .ok (.perDest values)
  | some fold => (fold.empty >>= fun empty => values.foldlM fold.combine empty).map .folded

/-- A plan of two sides, given what its map tasks write and what its gathers return. -/
theorem runPlan_sides (I : Identity) (w w' : MapWrite ρ X) (g : Gather ρ X R)
    (fold : Option (Fold R)) {partitions partitions' : List Partition} {parts : Nat}
    {out out' : List (List UInt8)}
    (hmap : (mapTasks partitions).mapM (fun task => w.call B P E task []) = .ok out)
    (hmap' : (mapTasks partitions').mapM (fun task => w'.call B P E task []) = .ok out')
    {values : Except Raised (List R)}
    (hgather : (destTasks parts).mapM (fun task => g.call B P E task (out ++ out')) =
      values.map fun values => values.map P.dumps) :
    runPlan P (build B P E I "gather_join" [(w, partitions), (w', partitions')] g parts fold) =
      values >>= outcome fold := by
  have hloads : ∀ values : List R, (values.map P.dumps).mapM P.loads = .ok values := by
    intro values
    rw [Attempts.mapM_map]
    have h : (values.mapM fun value => P.loads (P.dumps value)) = .ok (values.map id) :=
      Attempts.mapM_of_ok fun value _ => P.loads_dumps value
    rwa [List.map_id] at h
  have hstages : runStages (build B P E I "gather_join" [(w, partitions), (w', partitions')] g
      parts fold).stages [] = (values >>= fun values =>
        match fold with
        | none => .ok [out, out', values.map P.dumps]
        | some fold =>
            (fold.call P ⟨0, ⟨"reduce", "", 0, 1, none, none, none⟩⟩ (values.map P.dumps)).map
              fun last => [out, out', values.map P.dumps, [last]]) := by
    change ((mapTasks partitions).mapM (fun task => w.call B P E task []) >>= fun out =>
      runStages _ [out]) = _
    rw [hmap]
    change ((mapTasks partitions').mapM (fun task => w'.call B P E task []) >>= fun out' =>
      runStages _ [out, out']) = _
    rw [hmap']
    change ((destTasks parts).mapM (fun task => g.call B P E task (out ++ (out' ++ []))) >>=
      fun last => runStages _ [out, out', last]) = _
    rw [List.append_nil, hgather]
    cases values with
    | error e => rfl
    | ok values =>
        cases fold with
        | none => rfl
        | some fold =>
            change ([_].mapM (fun task => fold.call P task (values.map P.dumps ++ [])) >>=
              fun last => runStages [] [out, out', values.map P.dumps, last]) = _
            rw [List.append_nil, List.mapM_cons]
            change ((fold.call P _ (values.map P.dumps) >>= _) >>= _) = Except.map _ _
            cases fold.call P ⟨0, ⟨"reduce", "", 0, 1, none, none, none⟩⟩ (values.map P.dumps) with
            | error e => rfl
            | ok last => rfl
  unfold runPlan lastPayloads
  rw [hstages]
  cases values with
  | error e => rfl
  | ok values =>
      cases fold with
      | none =>
          change planValue P _ (values.map P.dumps) = _
          unfold planValue
          rw [hloads]
          rfl
      | some fold =>
          change (((fold.call P _ (values.map P.dumps)).map _ >>= _) >>= _) =
            (fold.empty >>= fun empty => values.foldlM fold.combine empty).map _
          rw [Fold.call_dumps]
          cases fold.empty >>= fun empty => values.foldlM fold.combine empty with
          | error e => rfl
          | ok value =>
              change planValue P _ [P.dumps value] = _
              unfold planValue
              rw [List.mapM_cons, P.loads_dumps]
              rfl

/-! ### The run -/

section Run

variable (I : Identity) {w w' : MapWrite ρ X} {partitions partitions' : List Partition}
  {rows rows' : Partition → List ρ} {reduce : List (Option (Held ρ X)) → Except Raised R}

/-- The destination of a row. -/
def Route.dest (B : Backend ρ X) (r : Route) (x : ρ) : Nat :=
  route B.sha256 (B.key r.key x) r.parts 0

/-- What a side's gathers are handed, over all its tasks. -/
theorem flatMap_mapTasks (partitions : List Partition) (rows : Partition → List ρ)
    (p : ρ → Bool) : ((mapTasks partitions).flatMap fun t => (rows t.partition).filter p) =
      (partitions.flatMap rows).filter p := by
  rw [List.filter_flatMap, mapTasks, List.flatMap_map]
  conv_rhs => rw [← List.zipIdx_map_fst 0 partitions, List.flatMap_map]

/-- **What a joined run returns**: at each destination the value of the graph on the rows of both
sides that are routed there. -/
theorem runPlan_join (hroute : w'.route = w.route) (hscheme : w.route.scheme = .hash)
    (hparts : 0 < w.route.parts) (hpartitions : partitions ≠ []) (hpartitions' : partitions' ≠ [])
    (hrows : ∀ p ∈ partitions, w.value E p = .ok (.block (rows p)))
    (hrows' : ∀ p ∈ partitions', w'.value E p = .ok (.block (rows' p)))
    (fold : Option (Fold R)) :
    runPlan P (joinPlan B P E I w w' partitions partitions' reduce fold) =
      ((List.range w.route.parts).mapM fun d : Nat =>
        (⟨w.nodes, w.marked, [w.target, w'.target], some partitions.length, reduce⟩ :
          Gather ρ X R).after E
            [(w.target, .block ((partitions.flatMap rows).filter fun x => w.route.dest B x = d)),
              (w'.target, .block ((partitions'.flatMap rows').filter fun x =>
                w.route.dest B x = d))]) >>= outcome fold := by
  have hne : w.route.scheme ≠ .position := by
    rw [hscheme]
    exact nofun
  have hmap := mapM_mapTasks (B := B) (P := P) hne hparts hrows []
  have hmap' := mapM_mapTasks (B := B) (P := P) (hroute ▸ hne) (hroute ▸ hparts) hrows' []
  rw [hroute] at hmap'
  simp only [Route.destOf_hash hscheme] at hmap hmap'
  have hleft : (⟨w.nodes, w.marked, [w.target, w'.target], some partitions.length, reduce⟩ :
      Gather ρ X R).nLeft = some (mapTasks partitions).length := by
    rw [mapTasks, List.length_map, List.length_zipIdx]
  have hgather := mapM_destTasks_sides (B := B) (P := P) (E := E) hleft rfl
    (mapTasks_ne_nil hpartitions) (mapTasks_ne_nil hpartitions') w.route.parts
    (fun t d => (rows t.partition).filter fun x => w.route.dest B x = d)
    (fun t d => (rows' t.partition).filter fun x => w.route.dest B x = d)
  simp only [flatMap_mapTasks] at hgather
  rw [joinPlan, if_neg hne]
  exact runPlan_sides I w w' _ fold hmap hmap' hgather

/-- What both sides determine, given to the gathers' graph, is the whole graph's value. -/
theorem after_whole {barrier : Nat} {params : ParamMap} {n : Nat} (hnodes : w'.nodes = w.nodes)
    (hbarrier : Barrier w.nodes w.marked barrier (.join params [w.target, w'.target]))
    (hsources : w.sourceName ≠ w'.sourceName) {whole whole' : Held ρ X} {L R' : List ρ}
    (hwhole : w.evaluated E whole = .ok (.block L))
    (hwhole' : w'.evaluated E whole' = .ok (.block R')) (value : R) :
    (⟨w.nodes, w.marked, [w.target, w'.target], some n, reduce⟩ : Gather ρ X R).after E
        [(w.target, .block L), (w'.target, .block R')] = .ok value ↔
      joinedWhole E w w' reduce whole whole' = .ok value := by
  have hlookup : [(w.sourceName, (.ok whole : Except Raised (Held ρ X))),
      (w'.sourceName, .ok whole')].lookup w'.sourceName = some (.ok whole') := by
    rw [List.lookup_cons, beq_eq_false_iff_ne.mpr (Ne.symm hsources)]
    exact List.lookup_cons_self
  have hinputs : ∀ t ∈ (IrNode.join params [w.target, w'.target]).inputs, t < w.nodes.length :=
    fun t ht => hbarrier.target_lt ht
  have hlt : w.target < w.nodes.length := hinputs _ List.mem_cons_self
  have hlt' : w'.target < w.nodes.length :=
    hinputs _ (List.mem_cons_of_mem _ List.mem_cons_self)
  have honly : ∀ {s : String} {x : Except Raised (Held ρ X)} {name : String}
      {y : Except Raised (Held ρ X)}, [(s, x)].lookup name = some y → name = s ∧ y = x := by
    intro s x name y h
    by_cases heq : name = s
    · rw [heq, List.lookup_cons_self, Option.some.injEq] at h
      exact ⟨heq, h.symm⟩
    · rw [List.lookup_cons, beq_eq_false_iff_ne.mpr heq] at h
      cases h
  have hvalue := MapWrite.plainValue_of_evaluated hbarrier.wellFormed hlt hwhole
  have hvalue' := MapWrite.plainValue_of_evaluated (hnodes ▸ hbarrier.wellFormed)
    (hnodes ▸ hlt') hwhole'
  rw [hnodes] at hvalue'
  have hvalues : (IrNode.join params [w.target, w'.target]).inputs.mapM
      ((bound E [(w.sourceName, .ok whole), (w'.sourceName, .ok whole')]).plainValue true
        w.nodes []) = .ok [.block L, .block R'] := by
    change [w.target, w'.target].mapM _ = _
    rw [mapM_eq_ok, List.map_cons, List.map_singleton]
    have hboth : (bound E [(w.sourceName, .ok whole), (w'.sourceName, .ok whole')]).plainValue true
        w.nodes [] w.target = .ok (.block L) := by
      refine plainValue_bound_mono hbarrier.wellFormed (fun name x h => ?_) hlt hvalue
      obtain ⟨rfl, rfl⟩ := honly h
      exact List.lookup_cons_self
    have hboth' : (bound E [(w.sourceName, .ok whole), (w'.sourceName, .ok whole')]).plainValue
        true w.nodes [] w'.target = .ok (.block R') := by
      refine plainValue_bound_mono hbarrier.wellFormed (fun name x h => ?_) hlt' hvalue'
      obtain ⟨rfl, rfl⟩ := honly h
      exact hlookup
    rw [hboth, hboth']
    rfl
  unfold Gather.after joinedWhole
  rw [Attempts.bind_eq_ok_iff, Attempts.bind_eq_ok_iff]
  apply exists_congr
  intro slots
  exact and_congr_left fun _ => hbarrier.evaluate_whole hvalues slots

/-- **A joined run is the whole run.** Where the sides are the rows of their chunks in order, a join
pairs rows of one routing key only, and what is recorded after it adds up over joined rows of
different keys, the plan's value is that of the graph on both whole datasets. -/
theorem joined_whole {barrier : Nat} {params : ParamMap} (hnodes : w'.nodes = w.nodes)
    (hbarrier : Barrier w.nodes w.marked barrier (.join params [w.target, w'.target]))
    (hsources : w.sourceName ≠ w'.sourceName) (hroute : w'.route = w.route) (hscheme : w.route.scheme = .hash) (hparts : 0 < w.route.parts)
    (hpartitions : partitions ≠ []) (hpartitions' : partitions' ≠ [])
    (hrows : ∀ p ∈ partitions, w.value E p = .ok (.block (rows p)))
    (hrows' : ∀ p ∈ partitions', w'.value E p = .ok (.block (rows' p)))
    {whole whole' : Held ρ X}
    (hwhole : w.evaluated E whole = .ok (.block (partitions.flatMap rows)))
    (hwhole' : w'.evaluated E whole' = .ok (.block (partitions'.flatMap rows')))
    {τ : Type} {kt : τ → BitVec 64} {J : List ρ → List ρ → List τ}
    (hJ : Keyed (B.key w.route.key) (B.key w.route.key) kt J) {f : List τ → Except Raised R}
    (hafter : ∀ L R', (⟨w.nodes, w.marked, [w.target, w'.target], some partitions.length, reduce⟩ :
      Gather ρ X R).after E [(w.target, .block L), (w'.target, .block R')] = f (J L R'))
    {fold : Fold R} (hadditive : KeyAdditive kt f (merged fold) fold.empty) (v : RunValue R) :
    runPlan P (joinPlan B P E I w w' partitions partitions' reduce (some fold)) = .ok v ↔
      ∃ value, v = .folded value ∧ joinedWhole E w w' reduce whole whole' = .ok value := by
  set L := partitions.flatMap rows with hL
  set R' := partitions'.flatMap rows' with hR'
  set dest := fun k : BitVec 64 => route B.sha256 k w.route.parts 0 with hdest
  have hsides := hJ.keyAdditive hadditive
  have hlt : ∀ x ∈ L.map Sum.inl ++ R'.map Sum.inr,
      dest (Sum.elim (B.key w.route.key) (B.key w.route.key) x) < w.route.parts := fun _ _ =>
    route_lt _ _ hparts _
  have hfold := hsides.foldl_buckets hlt
  rw [lefts_sides, rights_sides] at hfold
  have hbuckets : buckets (dest ∘ Sum.elim (B.key w.route.key) (B.key w.route.key)) w.route.parts
      (L.map Sum.inl ++ R'.map Sum.inr) = (List.range w.route.parts).map fun d : Nat =>
        (L.map Sum.inl ++ R'.map Sum.inr).filter
          (Sum.elim (fun x => decide (w.route.dest B x = d)) fun x =>
            decide (w.route.dest B x = d)) := by
    apply List.map_congr_left
    intro d _
    congr 1
    funext x
    cases x <;> rfl
  rw [hbuckets, List.foldl_map] at hfold
  simp only [lefts_filter, rights_filter, lefts_sides, rights_sides] at hfold
  rw [runPlan_join I hroute hscheme hparts hpartitions hpartitions' hrows hrows']
  simp only [hafter]
  have hwhole_iff : ∀ value, joinedWhole E w w' reduce whole whole' = .ok value ↔
      ((List.range w.route.parts).foldl (fun acc d => merged fold acc
        (f (J (L.filter fun x => w.route.dest B x = d)
          (R'.filter fun x => w.route.dest B x = d)))) fold.empty) = .ok value := by
    intro value
    rw [hfold, ← hafter, after_whole hnodes hbarrier hsources hwhole hwhole']
  simp only [hwhole_iff, merged, foldl_eq_ok_iff, outcome, Attempts.map_eq_ok_iff,
    Attempts.bind_eq_ok_iff]
  constructor
  · rintro ⟨values, hvalues, value, ⟨empty, hempty, hfolded⟩, rfl⟩
    exact ⟨value, rfl, values, empty, hvalues, hempty, hfolded⟩
  · rintro ⟨value, rfl, values, empty, hvalues, hempty, hfolded⟩
    exact ⟨values, hvalues, value, ⟨empty, hempty, hfolded⟩, rfl⟩

end Run

/-! ### Counting equal bytes -/

/-- The bytes of one list for each equal byte of the other. -/
def sharedBytes (L R' : List UInt8) : List UInt8 :=
  (Equijoin.rightMajor (fun l r => decide (l = r)) false false L R').map fun p =>
    p.1.getD (p.2.getD 0)

/-- Operations that answer their operand, and a join. -/
def byteJoin : Evaluator (Held UInt8 Empty) Raised :=
  { identities with
    evalStage := fun _ ins _ =>
      match ins with
      | [some value] => .ok value
      | [some (.block L), some (.block R')] => .ok (.block (sharedBytes L R'))
      | _ => .error (typeError "one operand or two") }

def joinedNodes : List IrNode :=
  [.source "left" (.new []), .exchange (.new []) [0], .source "right" (.new []),
    .exchange (.new []) [2], .join (.new []) [1, 3]]

def leftWrite : MapWrite UInt8 Empty where
  nodes := joinedNodes
  marked := [4]
  target := 1
  sourceName := "left"
  reader p := .ok (.block (byteRows p))
  route := ⟨.hash, "value", 3⟩

def rightWrite : MapWrite UInt8 Empty :=
  { leftWrite with target := 3, sourceName := "right", reader := fun _ => .ok (.block [7, 1]) }

def counted : List (Option (Held UInt8 Empty)) → Except Raised Nat
  | [some (.block rows)] => .ok rows.length
  | _ => .error (typeError "one block")

theorem barrier_leftWrite : Barrier leftWrite.nodes leftWrite.marked 4
    (.join (.new []) [1, 3]) where
  wellFormed := by
    refine ⟨?_, ?_, ?_⟩
    · have hall : ∀ i : Fin leftWrite.nodes.length, ∀ j ∈ leftWrite.nodes[i].inputs, j < i := by
        decide
      intro i nd hnd
      obtain ⟨hi, rfl⟩ := List.getElem?_eq_some_iff.mp hnd
      exact hall ⟨i, hi⟩
    all_goals
      intro ins members hmem
      simp [leftWrite, joinedNodes] at hmem
  node := rfl
  marked_lt := by decide
  cone := by
    have hfour : Demanded leftWrite.nodes [] leftWrite.marked 4 := .output List.mem_cons_self
    have hone : Demanded leftWrite.nodes [] leftWrite.marked 1 :=
      .input hfour List.not_mem_nil rfl List.mem_cons_self
    have hthree : Demanded leftWrite.nodes [] leftWrite.marked 3 :=
      .input hfour List.not_mem_nil rfl (List.mem_cons_of_mem _ List.mem_cons_self)
    intro n hn
    rcases n with _ | _ | _ | _ | _ | n
    · exact .input hone List.not_mem_nil rfl List.mem_cons_self
    · exact hone
    · exact .input hthree List.not_mem_nil rfl List.mem_cons_self
    · exact hthree
    · exact hfour
    · exact absurd hn (by simp [leftWrite, joinedNodes])
  noSource := by
    have hfour : ∀ n, Demanded leftWrite.nodes [4] leftWrite.marked n → n = 4 := by
      intro n hn
      induction hn with
      | output ho => exact List.mem_singleton.mp ho
      | @input n m nd _ hcut _ _ ih => exact absurd (List.mem_singleton.mpr ih) hcut
    intro n nd hn hnd name params hsource
    rw [hfour n hn, hsource] at hnd
    cases hnd

theorem after_counted (L R' : List UInt8) :
    (⟨leftWrite.nodes, leftWrite.marked, [leftWrite.target, rightWrite.target], some 2, counted⟩ :
      Gather UInt8 Empty Nat).after byteJoin [(leftWrite.target, .block L),
        (rightWrite.target, .block R')] = .ok (sharedBytes L R').length := by
  have hwf := barrier_leftWrite.wellFormed
  have hgiven : ∀ t v, ([(1, .block L), (3, .block R')] : List (Nat × Held UInt8 Empty)).lookup
      t = some v → t < leftWrite.nodes.length →
      (bound byteJoin []).plainValue true leftWrite.nodes [(1, .block L), (3, .block R')] t =
        .ok v := fun t v h hlt => plainValue_given hwf hlt h
  have hvalue : (bound byteJoin []).plainValue true leftWrite.nodes
      [(1, .block L), (3, .block R')] 4 = .ok (.block (sharedBytes L R')) := by
    rw [plainValue_eq hwf barrier_leftWrite.node]
    change ([_, _].mapM id >>= _) = _
    rw [hgiven 1 (.block L) rfl (by decide), hgiven 3 (.block R') rfl (by decide)]
    rfl
  have hresult : ((bound byteJoin []).evaluateIr leftWrite.nodes leftWrite.marked none
      (some [(1, .block L), (3, .block R')]) true).result =
        .ok [some (.block (sharedBytes L R'))] := by
    have hwanted : ∀ o ∈ (none : Option (List Nat)).getD leftWrite.marked,
        o < leftWrite.nodes.length := barrier_leftWrite.marked_lt
    refine (evaluateIr_result _ true hwf hwanted (Or.inr (Or.inl rfl))).mpr ⟨[.block (sharedBytes L R')], ?_, rfl⟩
    exact mapM_eq_ok.mpr (congrArg (fun x => [x]) hvalue)
  unfold Gather.after
  exact Attempts.bind_eq_ok_iff.mpr ⟨_, hresult, rfl⟩

/-- How many pairs of equal bytes there are adds up over the bytes. -/
theorem keyAdditive_counted : KeyAdditive (byteBackend.key "value")
    (fun rows : List UInt8 => (.ok rows.length : Except Raised Nat))
    (merged ⟨fun a b => .ok (a + b), .ok 0⟩) (.ok 0) where
  nil := rfl
  append xs ys _ := by
    rw [List.length_append]
    rfl
  regroup xs ys h := by rw [h.perm.length_eq]

theorem keyed_sharedBytes : Keyed (byteBackend.key "value") (byteBackend.key "value")
    (byteBackend.key "value") sharedBytes := by
  have hmerge : KeyedMerge (byteBackend.key "value") (byteBackend.key "value")
      (byteBackend.key "value")
      (fun p : Option UInt8 × Option UInt8 => p.1.getD (p.2.getD 0)) :=
    ⟨fun _ _ => rfl, fun _ => rfl⟩
  refine keyed_rightMajor (fun l r h => ?_) hmerge false false
  rw [of_decide_eq_true h]

/-- Two partitions on the left, one on the right. -/
theorem joined_whole_bytes : ∃ value,
    runPlan unaryPickle (joinPlan byteBackend unaryPickle byteJoin
      ⟨[], fun _ => [], fun _ => .nil⟩ leftWrite rightWrite
      [⟨"a", "t", 0, 3, none, none, none⟩, ⟨"a", "t", 3, 5, none, none, none⟩]
      [⟨"b", "t", 0, 2, none, none, none⟩] counted
      (some ⟨fun a b => .ok (a + b), .ok 0⟩)) = .ok (.folded value) ∧
    joinedWhole byteJoin leftWrite rightWrite counted (.block [7, 1, 7, 1, 4])
      (.block [7, 1]) = .ok value := by
  have hrows : ∀ p ∈ [(⟨"a", "t", 0, 3, none, none, none⟩ : Partition),
      ⟨"a", "t", 3, 5, none, none, none⟩],
      leftWrite.value byteJoin p = .ok (.block (byteRows p)) := fun _ _ => rfl
  have hrows' : ∀ p ∈ [(⟨"b", "t", 0, 2, none, none, none⟩ : Partition)],
      rightWrite.value byteJoin p = .ok (.block [7, 1]) := fun _ _ => rfl
  have hnodes : rightWrite.nodes = leftWrite.nodes := rfl
  have hroute : rightWrite.route = leftWrite.route := rfl
  have hscheme : leftWrite.route.scheme = .hash := rfl
  have hwhole : leftWrite.evaluated byteJoin (.block [7, 1, 7, 1, 4]) =
      .ok (.block [7, 1, 7, 1, 4]) := rfl
  have hwhole' : rightWrite.evaluated byteJoin (.block [7, 1]) = .ok (.block [7, 1]) := rfl
  exact ⟨4, (joined_whole ⟨[], fun _ => [], fun _ => .nil⟩ hnodes barrier_leftWrite (by decide)
    hroute hscheme (by decide) (by decide) (by decide) hrows hrows' hwhole hwhole'
    keyed_sharedBytes after_counted keyAdditive_counted _).mpr ⟨4, rfl, rfl⟩, rfl⟩

end Graphed.Exchange
