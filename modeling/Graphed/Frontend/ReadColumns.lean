import Graphed.Frontend.Walk
import Graphed.Optimizer.Preservation

/-!
# The columns a graph reads

`read_columns` walks each output's graph and collects the fields it reads off a source; a node that
takes the whole record makes the answer conservative. Answers are joined over outputs and universes,
where a conservative one dominates.
-/

namespace Graphed

open FirstSeen PostOrder

/-! ### The read list -/

/-- What a walk has found: the columns read, and whether the record was taken whole. -/
structure ColumnReads where
  needed : List String
  conservative : Bool

/-- The handlers of one read: a source is marked, and what takes the mark reads columns or the whole
record. -/
def readHandlers (nid : Nat) : WalkHandlers ColumnReads (Option Nat) where
  source reads x := (some x, reads)
  op reads _ name ins params :=
    (none,
      if ins.contains (some nid) then
        if name = "field" then
          { reads with needed := insertNew reads.needed ((params.text "field").getD "") }
        else if name = "fields" then
          { reads with
            needed := (fieldList ((params.text "fields").getD "")).foldl insertNew reads.needed }
        else { reads with conservative := true }
      else reads)
  external reads _ ins :=
    (none, if ins.contains (some nid) then { reads with conservative := true } else reads)

def sortedColumns (columns : List String) : List String := columns.insertionSort (· ≤ ·)

/-- The columns one graph reads off a source; `none` reads them all. -/
def readOne (nodes : List NodeKey) (nid root : Nat) : Option (List String) :=
  let reads := (walk (readHandlers nid) nodes ⟨[], false⟩ root).state
  if reads.conservative || reads.needed.isEmpty then none else some (sortedColumns reads.needed)

/-- Join answers; a conservative one dominates, so does having none. -/
def unionReads (answers : List (Option (List String))) : Option (List String) :=
  let narrowed := answers.filterMap id
  if narrowed.isEmpty || narrowed.length != answers.length then none
  else some (sortedColumns (firsts narrowed.flatten))

/-- A recorded array: a node of a Session. -/
structure Proxy {F : Type} (I : Inference F) where
  session : Session F
  kept : session.Kept I
  node : Nat
  node_lt : node < session.nodes.length

/-- An output: an array, or a container of universes. -/
inductive Output {F : Type} (I : Inference F) where
  | array (member : Proxy I)
  | varied (members : List (Proxy I))

section Read

variable {F : Type} {I : Inference F}

/-- The universes an output stands for. -/
def universesOf : Output I → List (Proxy I)
  | .array member => [member]
  | .varied members => members

/-- The sources a member reads. -/
def Proxy.sources (member : Proxy I) : List Nat :=
  reachableSources member.session.nodes member.node

def Session.sourceName (s : Session F) (nid : Nat) : String :=
  match s.nodes.getD nid default with
  | .source name _ => name
  | _ => ""

/-- The columns of one source. -/
def readColumnsFrom (outputs : List (Output I)) (nid : Nat) : Option (List String) :=
  unionReads (((outputs.flatMap universesOf).filter fun member => nid ∈ member.sources).map
    fun member => readOne member.session.nodes nid member.node)

/-- The reads of the sources one member reads, by their names. -/
def namedReads (member : Proxy I) : List (String × Option (List String)) :=
  ((firsts member.sources).insertionSort (· ≤ ·)).map fun nid =>
    (member.session.sourceName nid, readColumnsFrom [.array member] nid)

/-- The columns of every source the outputs read, by name. -/
def readColumns (outputs : List (Output I)) : List (String × Option (List String)) :=
  let reads := (outputs.flatMap universesOf).flatMap namedReads
  (firsts (reads.map Prod.fst)).map fun name =>
    (name, unionReads ((reads.filter (·.1 = name)).map Prod.snd))

end Read

/-! ### What a read list holds -/

/-- The columns a node reads off a record it takes; `none` takes the record whole. -/
def NodeKey.columnsRead (key : NodeKey) : Option (List String) :=
  match key.recordedOp with
  | some (name, params) =>
      if name = "field" then some [(params.text "field").getD ""]
      else if name = "fields" then some (fieldList ((params.text "fields").getD ""))
      else none
  | none => none

section Found

variable {nodes : List NodeKey} {nid : Nat}

/-- The mark of a node's result. -/
def markOf (nodes : List NodeKey) (x : Nat) : Option Nat :=
  if (nodes.getD x default).isSource then some x else none

/-- An input bears the mark just when it is the source. -/
theorem contains_mark (hnid : (nodes.getD nid default).isSource = true) (xs : List Nat) :
    (xs.map (markOf nodes)).contains (some nid) = true ↔ nid ∈ xs := by
  rw [List.contains_iff_mem, List.mem_map]
  constructor
  · rintro ⟨y, hy, hmark⟩
    unfold markOf at hmark
    split at hmark
    · rwa [← Option.some.inj hmark]
    · cases hmark
  · intro h
    exact ⟨nid, h, if_pos hnid⟩

/-- What a node's handler adds to the reads. -/
theorem handled_op (nid : Nat) (reads : ColumnReads) (x : Nat) (ins : List (Option Nat))
    {name : String} {params : ParamMap} {key : NodeKey}
    (hkey : key.recordedOp = some (name, params)) :
    (∀ c, c ∈ ((readHandlers nid).op reads x name ins params).2.needed ↔ c ∈ reads.needed ∨
      ins.contains (some nid) = true ∧ ∃ columns, key.columnsRead = some columns ∧ c ∈ columns) ∧
    (((readHandlers nid).op reads x name ins params).2.conservative = true ↔
      reads.conservative = true ∨ ins.contains (some nid) = true ∧ key.columnsRead = none) := by
  unfold NodeKey.columnsRead
  rw [hkey]
  dsimp only [readHandlers]
  cases ins.contains (some nid) with
  | false => simp
  | true =>
      by_cases hfield : name = "field"
      · simp [hfield, mem_insertNew]
      · by_cases hfields : name = "fields"
        · simp [hfields, mem_foldl_insertNew]
        · simp [hfield, hfields]

/-- One node of the walk, its inputs marked. -/
theorem compute_read {w : Walking ColumnReads (Option Nat)} {x : Nat}
    (hins : ∀ y ∈ inputsAt nodes x, w.result y = markOf nodes y)
    (hnid : (nodes.getD nid default).isSource = true) :
    (Walking.compute (readHandlers nid) nodes w x).cache = w.cache ++ [(x, markOf nodes x)] ∧
    (∀ c, c ∈ (Walking.compute (readHandlers nid) nodes w x).state.needed ↔ c ∈ w.state.needed ∨
      nid ∈ inputsAt nodes x ∧ ∃ columns, (nodes.getD x default).columnsRead = some columns ∧
        c ∈ columns) ∧
    ((Walking.compute (readHandlers nid) nodes w x).state.conservative = true ↔
      w.state.conservative = true ∨
        nid ∈ inputsAt nodes x ∧ (nodes.getD x default).columnsRead = none) := by
  have hmap : (nodes.getD x default).inputs.map w.result = (inputsAt nodes x).map (markOf nodes) :=
    List.map_congr_left hins
  unfold Walking.compute markOf
  dsimp only
  rw [hmap, ← contains_mark hnid (inputsAt nodes x)]
  cases hsource : (nodes.getD x default).isSource with
  | true =>
      have hnone : inputsAt nodes x = [] := NodeKey.inputs_of_isSource hsource
      rw [if_pos rfl, if_pos rfl, hnone]
      refine ⟨rfl, fun c => ?_, ?_⟩ <;> simp [readHandlers]
  | false =>
      rw [if_neg Bool.false_ne_true, if_neg Bool.false_ne_true]
      cases hop : (nodes.getD x default).recordedOp with
      | some op =>
          obtain ⟨hneeded, hconservative⟩ :=
            handled_op nid w.state x ((inputsAt nodes x).map (markOf nodes)) hop
          exact ⟨rfl, hneeded, hconservative⟩
      | none =>
          have hwhole : (nodes.getD x default).columnsRead = none := by
            unfold NodeKey.columnsRead
            rw [hop]
          rw [hwhole]
          dsimp only [readHandlers]
          cases ((inputsAt nodes x).map (markOf nodes)).contains (some nid) with
          | false => refine ⟨rfl, fun c => ?_, ?_⟩ <;> simp
          | true => refine ⟨rfl, fun c => ?_, ?_⟩ <;> simp

/-- The reads after a children-first list of nodes. -/
theorem made_reads (htopo : GraphStore.TopologicalKeys nodes)
    (hnid : (nodes.getD nid default).isSource = true) {xs : List Nat}
    (hxs : (inputDag htopo).ChildrenFirst xs) :
    (∀ y ∈ xs, (Walking.made (readHandlers nid) nodes ⟨[], false⟩ xs []).cache.lookup y =
      some (markOf nodes y)) ∧
    (∀ c, c ∈ (Walking.made (readHandlers nid) nodes ⟨[], false⟩ xs []).state.needed ↔
      ∃ x ∈ xs, nid ∈ inputsAt nodes x ∧
        ∃ columns, (nodes.getD x default).columnsRead = some columns ∧ c ∈ columns) ∧
    ((Walking.made (readHandlers nid) nodes ⟨[], false⟩ xs []).state.conservative = true ↔
      ∃ x ∈ xs, nid ∈ inputsAt nodes x ∧ (nodes.getD x default).columnsRead = none) := by
  induction xs using List.reverseRecOn with
  | nil => simp [Walking.made]
  | append_singleton xs x ih =>
      have hfirst : (inputDag htopo).ChildrenFirst xs := by
        intro i y hy z hz
        have hi := (List.getElem?_eq_some_iff.mp hy).1
        obtain ⟨j, hj, hjz⟩ := hxs i y (by rw [List.getElem?_append_left hi, hy]) z hz
        exact ⟨j, hj, by rwa [List.getElem?_append_left (hj.trans hi)] at hjz⟩
      obtain ⟨hresult, hneeded, hconservative⟩ := ih hfirst
      have hins : ∀ y ∈ inputsAt nodes x,
          (Walking.made (readHandlers nid) nodes ⟨[], false⟩ xs []).result y = markOf nodes y := by
        intro y hy
        obtain ⟨j, hj, hjy⟩ := hxs xs.length x (by simp) y hy
        rw [List.getElem?_append_left hj] at hjy
        unfold Walking.result
        rw [hresult y (List.mem_of_getElem? hjy), Option.getD_some]
      rw [Walking.made_concat]
      obtain ⟨hcache, hneeded', hconservative'⟩ := compute_read hins hnid
      refine ⟨?_, ?_, ?_⟩
      · intro y hy
        rw [hcache, List.lookup_append]
        by_cases hmem : y ∈ xs
        · rw [hresult y hmem, Option.some_or]
        · obtain rfl : y = x := by simpa [hmem] using hy
          have hnew : (Walking.made (readHandlers nid) nodes ⟨[], false⟩ xs []).cache.lookup y =
              none := by
            rw [List.lookup_eq_none_iff]
            intro entry hentry
            have hkeys := List.mem_map_of_mem (f := Prod.fst) hentry
            rw [Walking.cache_made] at hkeys
            exact bne_iff_ne.mpr fun heq => hmem (heq ▸ hkeys)
          rw [hnew, Option.none_or, List.lookup_cons_self]
      · intro c
        rw [hneeded', hneeded]
        simp only [List.mem_append, List.mem_singleton, or_and_right, exists_or, exists_eq_left]
      · rw [hconservative', hconservative]
        simp only [List.mem_append, List.mem_singleton, or_and_right, exists_or, exists_eq_left]

end Found

/-! ### The answers -/

section Graph

variable (nodes : List NodeKey) (nid root : Nat)

/-- A node in the graph of a root takes the source. -/
def TakesSource (x : Nat) : Prop := Reads nodes root x ∧ nid ∈ inputsAt nodes x

/-- A column is read off the source. -/
def ReadsColumn (c : String) : Prop :=
  ∃ x, TakesSource nodes nid root x ∧
    ∃ columns, (nodes.getD x default).columnsRead = some columns ∧ c ∈ columns

/-- A node other than a field read takes the record. -/
def TakesWhole : Prop :=
  ∃ x, TakesSource nodes nid root x ∧ (nodes.getD x default).columnsRead = none

/-- The record is taken whole, or no column of it is read. -/
def ReadsWhole : Prop := TakesWhole nodes nid root ∨ ∀ c, ¬ ReadsColumn nodes nid root c

end Graph

section Answers

variable {F : Type} {I : Inference F}

/-- One read: a member and a source it reads. -/
abbrev SourceRead (I : Inference F) := Proxy I × Nat

def SourceRead.Whole (read : SourceRead I) : Prop :=
  ReadsWhole read.1.session.nodes read.2 read.1.node

def SourceRead.Column (read : SourceRead I) (c : String) : Prop :=
  ReadsColumn read.1.session.nodes read.2 read.1.node c

/-- What an answer says of some reads: `none` when one of them is whole, else their columns. -/
structure Answers (reads : List (SourceRead I)) (answer : Option (List String)) : Prop where
  whole : answer = none ↔ reads = [] ∨ ∃ read ∈ reads, read.Whole
  columns : ∀ columns, answer = some columns →
    ∀ c, c ∈ columns ↔ ∃ read ∈ reads, read.Column c

theorem mem_sortedColumns {columns : List String} {c : String} :
    c ∈ sortedColumns columns ↔ c ∈ columns := List.mem_insertionSort _

/-- **What one read answers.** -/
theorem answers_readOne {read : SourceRead I} (h : read.2 ∈ read.1.sources) :
    Answers [read] (readOne read.1.session.nodes read.2 read.1.node) := by
  obtain ⟨member, nid⟩ := read
  have htopo := member.kept.interned.inputs_lt
  obtain ⟨hnid, -⟩ := (mem_reachableSources htopo member.node_lt).mp h
  have hreached : ∀ x, x ∈ (inputDag htopo).postorder [member.node] ↔
      Reads member.session.nodes member.node x := by
    intro x
    rw [mem_postorder]
    simp only [List.mem_singleton, exists_eq_left]
    exact Iff.rfl
  obtain ⟨-, hneeded, hconservative⟩ := made_reads htopo hnid
    (childrenFirst_postorder (inputDag htopo) [member.node])
  simp only [hreached, ← and_assoc] at hneeded hconservative
  unfold readOne
  have hwalk := walk_eq (readHandlers nid) htopo ⟨[], false⟩ member.node_lt
  change walk (readHandlers nid) member.session.nodes _ _ = _ at hwalk
  rw [hwalk]
  dsimp only
  split
  · rename_i hnone
    refine ⟨⟨fun _ => Or.inr ⟨_, List.mem_singleton_self _, ?_⟩, fun _ => rfl⟩, nofun⟩
    rcases Bool.or_eq_true _ _ ▸ hnone with hwhole | hempty
    · exact Or.inl (hconservative.mp hwhole)
    · refine Or.inr fun c hc => ?_
      have hmem := (hneeded c).mpr hc
      rw [List.isEmpty_iff.mp hempty] at hmem
      cases hmem
  · rename_i hsome
    rw [Bool.or_eq_true, not_or] at hsome
    refine ⟨⟨nofun, ?_⟩, ?_⟩
    · rintro (hnil | ⟨read, hread, hwhole | hnever⟩)
      · cases hnil
      · obtain rfl := List.mem_singleton.mp hread
        exact absurd (hconservative.mpr hwhole) hsome.1
      · obtain rfl := List.mem_singleton.mp hread
        refine absurd (List.isEmpty_iff.mpr (List.eq_nil_iff_forall_not_mem.mpr ?_)) hsome.2
        exact fun c hc => hnever c ((hneeded c).mp hc)
    · intro columns hcolumns c
      rw [← Option.some.inj hcolumns, mem_sortedColumns]
      simp only [List.mem_singleton, exists_eq_left]
      exact hneeded c

/-- A joined answer is conservative when there is none to join or one is. -/
theorem unionReads_cases (answers : List (Option (List String))) :
    (answers = [] ∨ none ∈ answers) ∧ unionReads answers = none ∨
    answers ≠ [] ∧ none ∉ answers ∧ ∃ columns, unionReads answers = some columns ∧
      ∀ c, c ∈ columns ↔ ∃ found, some found ∈ answers ∧ c ∈ found := by
  have hlength : (answers.filterMap id).length = answers.length ↔ none ∉ answers := by
    rw [List.filterMap_length_eq_length]
    simp only [id_eq, Option.isSome_iff_ne_none]
    exact ⟨fun hall hnone => hall none hnone rfl, fun hnone a ha heq => hnone (heq ▸ ha)⟩
  unfold unionReads
  dsimp only
  split
  · rename_i hnone
    refine Or.inl ⟨?_, rfl⟩
    rw [Bool.or_eq_true, List.isEmpty_iff, bne_iff_ne, ne_eq, hlength, not_not] at hnone
    rcases hnone with hempty | hnone
    · cases answers with
      | nil => exact Or.inl rfl
      | cons a rest =>
          refine Or.inr ?_
          by_contra hall
          have hlen := hlength.mpr hall
          rw [hempty] at hlen
          cases hlen
    · exact Or.inr hnone
  · rename_i hsome
    rw [Bool.or_eq_true, not_or, List.isEmpty_iff, bne_iff_ne, ne_eq, not_not, hlength] at hsome
    refine Or.inr ⟨?_, hsome.2, _, rfl, fun c => ?_⟩
    · rintro rfl
      exact hsome.1 rfl
    · rw [mem_sortedColumns, mem_firsts, List.mem_flatten]
      simp only [List.mem_filterMap, id_eq, exists_eq_right]

/-- Joined answers say of all the reads what each says of its own. -/
theorem answers_union (groups : List (List (SourceRead I) × Option (List String)))
    (hanswers : ∀ g ∈ groups, Answers g.1 g.2) (hsome : ∀ g ∈ groups, g.1 ≠ []) :
    Answers (groups.flatMap Prod.fst) (unionReads (groups.map Prod.snd)) := by
  have hnone : (groups.map Prod.snd = [] ∨ none ∈ groups.map Prod.snd) ↔
      groups.flatMap Prod.fst = [] ∨ ∃ read ∈ groups.flatMap Prod.fst, read.Whole := by
    constructor
    · rintro (hnil | hnone)
      · rw [List.map_eq_nil_iff.mp hnil]
        exact Or.inl rfl
      · obtain ⟨g, hg, hgnone⟩ := List.mem_map.mp hnone
        rcases (hanswers g hg).whole.mp hgnone with hempty | ⟨read, hread, hwhole⟩
        · exact absurd hempty (hsome g hg)
        · exact Or.inr ⟨read, List.mem_flatMap.mpr ⟨g, hg, hread⟩, hwhole⟩
    · rintro (hnil | ⟨read, hread, hwhole⟩)
      · cases groups with
        | nil => exact Or.inl rfl
        | cons g rest =>
            rw [List.flatMap_cons, List.append_eq_nil_iff] at hnil
            exact absurd hnil.1 (hsome g List.mem_cons_self)
      · obtain ⟨g, hg, hmem⟩ := List.mem_flatMap.mp hread
        exact Or.inr (List.mem_map.mpr
          ⟨g, hg, (hanswers g hg).whole.mpr (Or.inr ⟨read, hmem, hwhole⟩)⟩)
  rcases unionReads_cases (groups.map Prod.snd) with
    ⟨hall, hunion⟩ | ⟨hne, hall, columns, hunion, hmem⟩
  · rw [hunion]
    exact ⟨⟨fun _ => hnone.mp hall, fun _ => rfl⟩, nofun⟩
  · rw [hunion]
    refine ⟨⟨nofun, fun h => ?_⟩, ?_⟩
    · exact absurd (hnone.mpr h) (not_or.mpr ⟨hne, hall⟩)
    · intro columns' hcolumns c
      rw [← Option.some.inj hcolumns, hmem]
      constructor
      · rintro ⟨found, hfound, hc⟩
        obtain ⟨g, hg, hgfound⟩ := List.mem_map.mp hfound
        obtain ⟨read, hread, hcolumn⟩ := ((hanswers g hg).columns found hgfound c).mp hc
        exact ⟨read, List.mem_flatMap.mpr ⟨g, hg, hread⟩, hcolumn⟩
      · rintro ⟨read, hread, hcolumn⟩
        obtain ⟨g, hg, hmem⟩ := List.mem_flatMap.mp hread
        cases hgfound : g.2 with
        | none => exact absurd (List.mem_map.mpr ⟨g, hg, hgfound⟩) hall
        | some found =>
            exact ⟨found, List.mem_map.mpr ⟨g, hg, hgfound⟩,
              ((hanswers g hg).columns found hgfound c).mpr ⟨read, hmem, hcolumn⟩⟩

/-- The reads of one source. -/
def readsOf (outputs : List (Output I)) (nid : Nat) : List (SourceRead I) :=
  ((outputs.flatMap universesOf).filter fun member => nid ∈ member.sources).map fun member =>
    (member, nid)

/-- The reads of the sources of one name. -/
def readsNamed (outputs : List (Output I)) (name : String) : List (SourceRead I) :=
  (outputs.flatMap universesOf).flatMap fun member =>
    (((firsts member.sources).insertionSort (· ≤ ·)).filter fun nid =>
      member.session.sourceName nid = name).map fun nid => (member, nid)

theorem mem_readsOf {outputs : List (Output I)} {nid : Nat} {read : SourceRead I} :
    read ∈ readsOf outputs nid ↔
      read.1 ∈ outputs.flatMap universesOf ∧ read.2 = nid ∧ nid ∈ read.1.sources := by
  obtain ⟨member, n⟩ := read
  unfold readsOf
  simp only [List.mem_map, List.mem_filter, decide_eq_true_eq, Prod.mk.injEq]
  constructor
  · rintro ⟨m, ⟨hm, hnid⟩, rfl, rfl⟩
    exact ⟨hm, rfl, hnid⟩
  · rintro ⟨hm, rfl, hnid⟩
    exact ⟨member, ⟨hm, hnid⟩, rfl, rfl⟩

theorem mem_readsNamed {outputs : List (Output I)} {name : String} {read : SourceRead I} :
    read ∈ readsNamed outputs name ↔ read.1 ∈ outputs.flatMap universesOf ∧
      read.2 ∈ read.1.sources ∧ read.1.session.sourceName read.2 = name := by
  obtain ⟨member, n⟩ := read
  unfold readsNamed
  simp only [List.mem_flatMap (b := (member, n)), List.mem_map, List.mem_filter, decide_eq_true_eq,
    Prod.mk.injEq, List.mem_insertionSort, mem_firsts]
  constructor
  · rintro ⟨m, hm, nid, ⟨hnid, hname⟩, rfl, rfl⟩
    exact ⟨hm, hnid, hname⟩
  · rintro ⟨hm, hnid, hname⟩
    exact ⟨member, hm, n, ⟨hnid, hname⟩, rfl, rfl⟩

theorem answers_readColumnsFrom (outputs : List (Output I)) (nid : Nat) :
    Answers (readsOf outputs nid) (readColumnsFrom outputs nid) := by
  have hunion := answers_union ((readsOf outputs nid).map fun read =>
    ([read], readOne read.1.session.nodes read.2 read.1.node)) ?_ ?_
  · rw [List.flatMap_map, List.map_map] at hunion
    have hflat : (readsOf outputs nid).flatMap (fun read => [read]) = readsOf outputs nid :=
      List.flatMap_singleton' _
    rw [hflat] at hunion
    unfold readsOf at hunion
    rw [List.map_map] at hunion
    exact hunion
  · intro g hg
    obtain ⟨read, hread, rfl⟩ := List.mem_map.mp hg
    obtain ⟨-, hnid, hsource⟩ := mem_readsOf.mp hread
    exact answers_readOne (hnid ▸ hsource)
  · intro g hg
    obtain ⟨read, -, rfl⟩ := List.mem_map.mp hg
    simp

theorem readsOf_array {read : SourceRead I} (h : read.2 ∈ read.1.sources) :
    readsOf [.array read.1] read.2 = [read] := by
  unfold readsOf
  change (List.filter _ [read.1]).map _ = _
  rw [List.filter_cons_of_pos (by simpa using h)]
  rfl

/-- A name's answer says of all the reads of its sources what they read. -/
theorem answers_readColumns {outputs : List (Output I)} {name : String}
    {answer : Option (List String)} (h : (name, answer) ∈ readColumns outputs) :
    Answers (readsNamed outputs name) answer := by
  obtain ⟨name', -, hname⟩ := List.mem_map.mp h
  obtain ⟨rfl, rfl⟩ := Prod.mk.inj hname
  have hunion := answers_union ((readsNamed outputs name').map fun read =>
    ([read], readColumnsFrom [.array read.1] read.2)) ?_ ?_
  · rw [List.flatMap_map, List.map_map] at hunion
    have hflat : (readsNamed outputs name').flatMap (fun read => [read]) =
        readsNamed outputs name' := List.flatMap_singleton' _
    rw [hflat] at hunion
    have hreads : ((outputs.flatMap universesOf).flatMap namedReads).filter (·.1 = name') =
        (readsNamed outputs name').map fun read =>
          (name', readColumnsFrom [.array read.1] read.2) := by
      unfold readsNamed
      rw [List.filter_flatMap, List.map_flatMap]
      congr 1
      funext member
      unfold namedReads
      rw [List.filter_map, List.map_map]
      refine List.map_congr_left fun nid hnid => ?_
      have hmine := (List.mem_filter.mp hnid).2
      exact congrArg (·, _) (by simpa using hmine)
    rw [hreads, List.map_map]
    exact hunion
  · intro g hg
    obtain ⟨read, hread, rfl⟩ := List.mem_map.mp hg
    have hanswers := answers_readColumnsFrom [.array read.1] read.2
    rwa [readsOf_array (mem_readsNamed.mp hread).2.1] at hanswers
  · intro g hg
    obtain ⟨read, -, rfl⟩ := List.mem_map.mp hg
    simp

end Answers

end Graphed
