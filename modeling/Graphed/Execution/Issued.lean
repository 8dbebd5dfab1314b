import Graphed.Execution.WarnedRuns
import Mathlib.Data.List.Induction

/-!
# The warnings a run issues

Ending a run's value issues what it carries: each warning once, whatever the tree, under the first
chunk in key order that raised it among those whose partials the run holds.
-/

namespace Graphed

variable {α σ : Type}

/-! ### What a chunk's partial carries -/

theorem carriedOf_spec (carried : String → String) (caught : Heard) (chunk : String) :
    ((carriedOf carried caught chunk).map Prod.fst).Nodup ∧
      ∀ key, ((carriedOf carried caught chunk).lookup key).map (·.chunk) =
        if (caught.any fun w => (⟨carried w.1.category, w.1.message⟩ : WarningKey) == key) = true
        then some chunk else none := by
  -- the items so far, by the last warning added
  induction caught using List.reverseRec with
  | nil => exact ⟨List.nodup_nil, fun key => rfl⟩
  | append_singleton caught w ih =>
      obtain ⟨hnodup, hlookup⟩ := ih
      unfold carriedOf at hnodup hlookup ⊢
      rw [List.foldl_append, List.foldl_cons, List.foldl_nil]
      refine ⟨nodup_dictUpdate hnodup (List.nodup_singleton _), fun key => ?_⟩
      rw [lookup_dictUpdate, List.any_append, List.any_cons, List.any_nil, Bool.or_false,
        Option.map_or, hlookup key, List.lookup_cons]
      by_cases hkey : key = ⟨carried w.1.category, w.1.message⟩
      · subst hkey
        simp
      · have hne : (key == (⟨carried w.1.category, w.1.message⟩ : WarningKey)) = false := by
          simpa using hkey
        have hne' : ((⟨carried w.1.category, w.1.message⟩ : WarningKey) == key) = false := by
          simpa using fun h => hkey h.symm
        rw [hne, hne', Bool.or_false]
        rfl

/-- The chunk a warning is put down to. -/
theorem firstRaised_label (carried : String → String) (chunks : List Chunk) (key : WarningKey) :
    (chunks.findSome? fun c => (carriedOf carried c.heard c.label).lookup key).map (·.chunk) =
      (firstRaised carried chunks key).map (·.label) := by
  induction chunks with
  | nil => rfl
  | cons c chunks ih =>
      have hkey := (carriedOf_spec carried c.heard c.label).2 key
      unfold firstRaised at ih ⊢
      rw [List.findSome?_cons, List.find?_cons]
      unfold Chunk.raises at ih ⊢
      cases hraises : c.heard.any fun w =>
          (⟨carried w.1.category, w.1.message⟩ : WarningKey) == key with
      | true =>
          rw [hraises, if_pos rfl] at hkey
          obtain ⟨place, hplace, hchunk⟩ := Option.map_eq_some_iff.mp hkey
          rw [hplace]
          exact congrArg some hchunk
      | false =>
          rw [hraises, if_neg Bool.false_ne_true, Option.map_eq_none_iff] at hkey
          rw [hkey]
          exact ih

/-! ### Plans of an outline -/

section Built

variable {carried : String → String}

/-- What building plans by name gives. -/
theorem mapM_build {plans : String → Except Raised (TaskPlan α σ)} {names : List String}
    {built : List (String × GivenPlan α σ)}
    (h : (names.mapM fun name => (plans name).map fun p => (name, GivenPlan.plan p)) = .ok built) :
    ∃ fixed : List (String × TaskPlan α σ), fixed.map Prod.fst = names ∧
      (∀ e ∈ fixed, plans e.1 = .ok e.2) ∧
      built = fixed.map fun e => (e.1, GivenPlan.plan e.2) := by
  induction names generalizing built with
  | nil =>
      obtain rfl := Except.ok.inj h
      exact ⟨[], rfl, fun _ h => absurd h List.not_mem_nil, rfl⟩
  | cons name names ih =>
      obtain ⟨entry, entries, hentry, hentries, rfl⟩ := Attempts.mapM_cons_eq_ok_iff.mp h
      obtain ⟨p, hp, rfl⟩ := Attempts.map_eq_ok_iff.mp hentry
      obtain ⟨fixed, hnames, hall, rfl⟩ := ih hentries
      refine ⟨(name, p) :: fixed, ?_, List.forall_mem_cons.mpr ⟨hp, hall⟩, rfl⟩
      rw [List.map_cons, hnames]

theorem fixedOf_map (fixed : List (String × TaskPlan α σ)) :
    (fixed.map fun e => (e.1, GivenPlan.plan e.2)).filterMap fixedOf = fixed := by
  rw [List.filterMap_map]
  exact List.filterMap_some

variable [DecidableEq σ] {quote : String → String}

/-- A collated outline's plan, by its plans. -/
theorem Outline.build_collate {names : List String} {distinct : names.Nodup}
    {plans : String → Outline α σ} {p : TaskPlan α σ}
    (h : (Outline.collate names distinct plans).build carried quote = .ok p) :
    ∃ (fixed : List (String × TaskPlan α σ)) (loop : Collating α σ)
      (services : List (ServiceSpec σ)), fixed.map Prod.fst = names ∧
      (∀ e ∈ fixed, (plans e.1).build carried quote = .ok e.2) ∧
      Accepted (fixed.map fun e => (e.1, GivenPlan.plan e.2)) loop ∧ loop.fixed = fixed ∧
      p = loop.plan quote services := by
  obtain ⟨built, hbuilt, h⟩ := Attempts.bind_eq_ok_iff.mp h
  obtain ⟨fixed, hnames, hall, rfl⟩ := mapM_build hbuilt
  have hfst : (fixed.map fun e => (e.1, GivenPlan.plan e.2)).map Prod.fst = names := by
    rw [List.map_map]
    exact hnames
  have hnodup : ((fixed.map fun e => (e.1, GivenPlan.plan e.2)).map Prod.fst).Nodup := by
    rw [hfst]
    exact distinct
  obtain ⟨loop, services, haccepted, hp⟩ := collate_cases quote hnodup h
  exact ⟨fixed, loop, services, hnames, hall, haccepted, haccepted.held.trans (fixedOf_map fixed),
    hp⟩

/-- What the plan gives for a chunk. -/
def Gives (carried : String → String) (p : TaskPlan α σ) (c : Chunk) : Prop :=
  if c.failed = true then ∃ e, p.process.call c.partition = .error e
  else ∃ v, p.process.call c.partition = .ok v ∧ v.split.2 = carriedOf carried c.heard c.label

omit [DecidableEq σ] in
theorem Aggregation.gives (a : Aggregation α σ) (part : Partition) :
    Gives carried (a.plan carried)
      ⟨part, a.label part, a.caught part, !(a.own.reduced (a.values part)).isOk⟩ := by
  have hcall : (a.plan carried).process.call part = a.own.reduced (a.values part) >>= fun x =>
      .ok (carrying carried (.leaf x) (a.caught part) (a.label part)) := rfl
  unfold Gives
  dsimp only
  rw [hcall]
  cases a.own.reduced (a.values part) with
  | error e => exact ⟨e, rfl⟩
  | ok x => exact ⟨_, rfl, congrArg Prod.snd (split_carrying carried (PyValue.Clean.leaf x) _ _)⟩

omit [DecidableEq σ] in
theorem Aggregation.ordered (a : Aggregation α σ) :
    (a.plan carried).ordered = a.partitions.mapIdx fun i part => ⟨i, part⟩ := by
  change (a.partitions.mapIdx fun i part => (⟨i, part⟩ : Task)).insertionSort _ = _
  apply List.Pairwise.insertionSort_eq
  rw [List.pairwise_iff_getElem]
  intro i j hi hj hij
  simp only [List.getElem_mapIdx]
  omega

omit [DecidableEq σ] in
theorem HandPlan.gives (p : HandPlan α σ) (part : Partition) :
    Gives carried p.plan ⟨part, "", [], !(p.own.reduced (p.values part)).isOk⟩ := by
  have hcall : p.plan.process.call part = (p.own.reduced (p.values part)).map .leaf := rfl
  unfold Gives
  dsimp only
  rw [hcall]
  cases p.own.reduced (p.values part) with
  | error e => exact ⟨e, rfl⟩
  | ok x => exact ⟨_, rfl, rfl⟩

/-- **The tasks are the chunks, in key order.** -/
theorem Outline.chunks_spec (o : Outline α σ) {p : TaskPlan α σ}
    (h : o.build carried quote = .ok p) :
    p.ordered.map (·.partition) = o.chunks.map (·.partition) ∧
      ∀ c ∈ o.chunks, Gives carried p c := by
  induction o generalizing p with
  | aggregate a =>
      obtain ⟨-, -, h⟩ := Attempts.bind_eq_ok_iff.mp h
      obtain rfl := Except.ok.inj h
      refine ⟨?_, List.forall_mem_map.mpr fun part _ => a.gives part⟩
      rw [a.ordered]
      apply List.ext_getElem
      · simp [Outline.chunks]
      · intro i _ _
        simp [Outline.chunks]
  | hand p' =>
      obtain rfl := Except.ok.inj h
      refine ⟨?_, List.forall_mem_map.mpr fun t _ => p'.gives t.partition⟩
      simp [Outline.chunks, Function.comp_def]
  | collate names distinct plans ih =>
      obtain ⟨fixed, loop, services, hnames, hall, haccepted, hheld, rfl⟩ := Outline.build_collate h
      have hchunks : (Outline.collate names distinct plans).chunks =
          fixed.flatMap fun e => (plans e.1).chunks := by
        change names.flatMap _ = _
        rw [← hnames, List.flatMap_map]
      rw [hchunks]
      constructor
      · rw [haccepted.ordered quote services, haccepted.partitions, List.flatMap_map,
          List.map_flatMap]
        apply List.flatMap_congr
        intro e he
        exact (ih e.1 (hall e he)).1
      · intro c hc
        obtain ⟨e, he, hce⟩ := List.mem_flatMap.mp hc
        obtain ⟨hparts, hgives⟩ := ih e.1 (hall e he)
        have hmem : c.partition ∈ e.2.ordered.map (·.partition) := by
          rw [hparts]
          exact List.mem_map_of_mem hce
        obtain ⟨t, ht, hpart⟩ := List.mem_map.mp hmem
        have hcall := haccepted.call_eq quote (List.mem_map_of_mem he) (mem_ordered.mp ht) services
        have hgive := hgives c hce
        unfold Gives at hgive ⊢
        rw [← hpart] at hgive ⊢
        rw [hcall]
        split at hgive
        · rename_i hfailed
          obtain ⟨err, herr⟩ := hgive
          rw [if_pos hfailed, herr]
          exact ⟨err, rfl⟩
        · rename_i hfailed
          obtain ⟨v, hv, hcaught⟩ := hgive
          rw [if_neg hfailed, hv]
          have hplain : (PyValue.dict [(e.1, v.bare)]).Plain := trivial
          have hsplit := hplain.split_withCaught v.split.2
          exact ⟨_, rfl, (congrArg Prod.snd hsplit).trans hcaught⟩

end Built

/-! ### What finalizers issue -/

section Finalizers

theorem IssuingFinalize.quietly_warned (fn : Option (IssuingFinalize α)) :
    (warned fn).quietly = WarnedFinalize (fn.map (·.quietly)) := by
  cases fn with
  | none => rfl
  | some fn => rfl

variable {finalizers : List (String × IssuingFinalize α)}

theorem IssuingFinalize.item_quietly (entry : String × PyValue α) :
    (item finalizers entry).1 =
      finalizeItem (finalizers.map fun e => (e.1, e.2.quietly)) entry := by
  unfold item finalizeItem
  rw [lookup_map_snd finalizers fun fn => fn.quietly]
  cases finalizers.lookup entry.1 with
  | none => rfl
  | some fn =>
      change (if fn.truthy = true then _ else _ : Issuing _).1 = if fn.truthy = true then _ else _
      split
      · rfl
      · rfl

theorem IssuingFinalize.items_cons (first : String × PyValue α)
    (rest : List (String × PyValue α)) :
    (items finalizers (first :: rest)).1 =
      (item finalizers first).1 >>= fun done => (items finalizers rest).1.map (done :: ·) := by
  rw [items]
  cases item finalizers first with
  | mk result issued =>
      cases result with
      | error e => rfl
      | ok done => rfl

theorem IssuingFinalize.items_quietly (given : List (String × PyValue α)) :
    (items finalizers given).1 =
      given.mapM (finalizeItem (finalizers.map fun e => (e.1, e.2.quietly))) := by
  induction given with
  | nil => rfl
  | cons first rest ih =>
      rw [items_cons, List.mapM_cons, item_quietly, ih]
      congr 1

theorem IssuingFinalize.collated_call (value : PyValue α) : ((collated finalizers).call value).1 =
    value.items >>= fun given => (items finalizers given).1.map .dict := by
  unfold collated
  dsimp only
  cases value.items <;> rfl

theorem IssuingFinalize.quietly_collated :
    (collated finalizers).quietly =
      CollatedFinalize (finalizers.map fun e => (e.1, e.2.quietly)) := by
  refine congrArg (Finalize.mk true) (funext fun value => ?_)
  rw [collated_call]
  apply bind_congr
  intro given
  rw [items_quietly]
  rfl

/-- A finalize that issues nothing of a clean value. -/
def IssuingFinalize.Silent (fn : IssuingFinalize α) : Prop :=
  ∀ v : PyValue α, v.Clean → (fn.call v).2 = []

theorem IssuingFinalize.items_silent (h : ∀ e ∈ finalizers, e.2.Silent)
    {given : List (String × PyValue α)} (hclean : ∀ entry ∈ given, entry.2.Clean) :
    (items finalizers given).2 = [] := by
  induction given with
  | nil => rfl
  | cons first rest ih =>
      have hitem : (item finalizers first).2 = [] := by
        unfold item
        cases hfn : finalizers.lookup first.1 with
        | none => rfl
        | some fn =>
            obtain ⟨front, back, hmem, -⟩ := List.lookup_eq_some_iff.mp hfn
            have hsilent : fn.Silent := h (first.1, fn) (by simp [hmem])
            dsimp only
            split
            · exact hsilent first.2 (hclean first List.mem_cons_self)
            · rfl
      have hrest := ih fun entry hentry => hclean entry (List.mem_cons_of_mem _ hentry)
      unfold items
      cases hfirst : item finalizers first with
      | mk result issued =>
          rw [hfirst] at hitem
          cases result with
          | error e => exact hitem
          | ok done =>
              change issued ++ (items finalizers rest).2 = []
              rw [hrest, List.append_nil]
              exact hitem

theorem IssuingFinalize.collated_silent (h : ∀ e ∈ finalizers, e.2.Silent) :
    (collated finalizers).Silent := by
  intro v hv
  unfold collated
  dsimp only
  cases hgiven : v.items with
  | error e => rfl
  | ok given => exact items_silent h (hv.items hgiven)

/-- What a wrapped finalize issues is what the value carries. -/
theorem IssuingFinalize.warned_issues {fn : Option (IssuingFinalize α)}
    (h : ∀ g ∈ fn, g.Silent) {v : PyValue α} (hv : v.bare.Clean) :
    ((warned fn).call v).2 = v.split.2.map warnExplicit := by
  cases fn with
  | none => rfl
  | some fn =>
      change v.split.2.map warnExplicit ++ (fn.call v.bare).2 = _
      rw [h fn rfl v.bare hv, List.append_nil]

theorem IssuingFinalize.Silent.of_warned {fn : Option (IssuingFinalize α)}
    (h : ∀ g ∈ fn, g.Silent) : (warned fn).Silent := by
  intro v hv
  have hbare : v.bare.Clean := by
    rw [hv.plain.bare_eq]
    exact hv
  rw [warned_issues h hbare, hv.plain.split_eq]
  rfl

theorem Aggregation.silent (a : Aggregation α σ) :
    ∀ g ∈ a.own.finalize.map (IssuingFinalize.silent true), g.Silent := by
  intro g hg
  obtain ⟨fn, -, rfl⟩ := Option.map_eq_some_iff.mp hg
  exact fun _ _ => rfl

/-- A name's finalize, of the plans of a mapping. -/
theorem mem_collate_finalizers {names : List String} {plans : String → Outline α σ}
    {e : String × IssuingFinalize α}
    (h : e ∈ names.filterMap fun name => (plans name).finalizer.map (name, ·)) :
    e.2 ∈ (plans e.1).finalizer := by
  obtain ⟨name, -, he⟩ := List.mem_filterMap.mp h
  obtain ⟨fn, hfn, rfl⟩ := Option.map_eq_some_iff.mp he
  exact hfn

theorem Outline.collate_silent {names : List String} {plans : String → Outline α σ}
    (h : ∀ name, ∀ fn ∈ (plans name).finalizer, fn.Silent) :
    ∀ g ∈ (if (names.filterMap fun name => (plans name).finalizer.map (name, ·)) = [] then none
      else some (IssuingFinalize.collated
        (names.filterMap fun name => (plans name).finalizer.map (name, ·)))), g.Silent := by
  intro g hg
  split at hg
  · cases hg
  · obtain rfl := Option.some.inj hg
    exact IssuingFinalize.collated_silent fun e he => h e.1 e.2 (mem_collate_finalizers he)

/-- Nested finalizers are handed clean values, of which they issue nothing. -/
theorem Outline.silent (o : Outline α σ) : ∀ fn ∈ o.finalizer, fn.Silent := by
  induction o with
  | aggregate a =>
      intro fn hfn
      obtain rfl := Option.some.inj hfn
      exact IssuingFinalize.Silent.of_warned a.silent
  | hand p =>
      intro fn hfn
      obtain ⟨g, -, rfl⟩ := Option.map_eq_some_iff.mp hfn
      exact fun _ _ => rfl
  | collate names distinct plans ih =>
      intro fn hfn
      obtain rfl := Option.some.inj hfn
      exact IssuingFinalize.Silent.of_warned (Outline.collate_silent ih)

/-- **Ending a partial of a plan issues what it carries.** -/
theorem Outline.issues_eq (o : Outline α σ) {v : PyValue α} (hv : o.Good v) :
    o.issues v = v.split.2.map warnExplicit := by
  cases o with
  | aggregate a => exact IssuingFinalize.warned_issues a.silent hv
  | hand p =>
      have hnil : (Outline.hand p).issues v = [] := by
        unfold Outline.issues
        cases hfn : (Outline.hand p).finalizer with
        | none => rfl
        | some fn => exact Outline.silent (Outline.hand p) fn hfn v hv
      have hclean : v.Clean := hv
      rw [hnil, hclean.plain.split_eq]
      rfl
  | collate names distinct plans =>
      exact IssuingFinalize.warned_issues
        (Outline.collate_silent fun name => (plans name).silent) hv

variable [DecidableEq σ] {carried : String → String} {quote : String → String}

/-- But for what it issues, it is the plan's finalize. -/
theorem Outline.finalize_eq (o : Outline α σ) {p : TaskPlan α σ}
    (h : o.build carried quote = .ok p) : p.finalize = o.finalizer.map (·.quietly) := by
  induction o generalizing p with
  | aggregate a =>
      obtain ⟨-, -, h⟩ := Attempts.bind_eq_ok_iff.mp h
      obtain rfl := Except.ok.inj h
      refine congrArg some ?_
      change _ = (IssuingFinalize.warned _).quietly
      rw [IssuingFinalize.quietly_warned, Option.map_map]
      rfl
  | hand p' =>
      obtain rfl := Except.ok.inj h
      rfl
  | collate names distinct plans ih =>
      obtain ⟨fixed, loop, services, hnames, hall, haccepted, hheld, rfl⟩ := Outline.build_collate h
      have hfinalizers : (fixed.filterMap fun e => e.2.finalize.map (e.1, ·)) =
          (names.filterMap fun name => (plans name).finalizer.map (name, ·)).map
            fun e => (e.1, e.2.quietly) := by
        rw [← hnames, List.filterMap_map, List.map_filterMap]
        apply List.filterMap_congr
        intro e he
        rw [ih e.1 (hall e he), Function.comp_apply, Option.map_map, Option.map_map]
        rfl
      refine congrArg some ?_
      change _ = (IssuingFinalize.warned _).quietly
      rw [hheld, hfinalizers, IssuingFinalize.quietly_warned]
      by_cases hnil : (names.filterMap fun name => (plans name).finalizer.map (name, ·)) = []
      · rw [hnil]
        rfl
      · rw [if_neg hnil, if_neg (by simpa using hnil), Option.map_some,
          IssuingFinalize.quietly_collated]

end Finalizers

/-! ### What a run's value carries -/

/-- What holds of each partial of a tree holds of what the tree comes to. -/
theorem Reduction.reduce_holds {V R : Type} {plan : Plan V R} {P : List Task → V → Prop}
    {tree : Reduction} (hempty : ∀ v, plan.empty = .ok v → P [] v)
    (htask : ∀ t ∈ tree.leaves, ∀ v, plan.process t.partition = .ok v → P [t] v)
    (hcombine : ∀ ts us v w u, P ts v → P us w → plan.combine v w = .ok u →
      P (ts ++ us) u) {v : V} (h : tree.reduce plan = .ok v) : P tree.leaves v := by
  induction tree generalizing v with
  | empty => exact hempty v h
  | task t => exact htask t List.mem_cons_self v h
  | merge left right ihl ihr =>
      obtain ⟨a, ha, h⟩ := Attempts.bind_eq_ok_iff.mp h
      obtain ⟨b, hb, h⟩ := Attempts.bind_eq_ok_iff.mp h
      have hl := ihl (fun t ht => htask t (List.mem_append_left _ ht)) ha
      have hr := ihr (fun t ht => htask t (List.mem_append_right _ ht)) hb
      exact hcombine _ _ a b v hl hr h

section Carried

variable {good : PyValue α → Prop} {p q : TaskPlan α σ}

/-- What a run holds of a partition's warnings, once chunks with these labels are lost. -/
def TaskPlan.held (p : TaskPlan α σ) (lost : List (String × FailedChunk)) (part : Partition) :
    Caught :=
  match lost.lookup (chunkLabel part), p.process.call part with
  | none, .ok v => v.split.2
  | _, _ => []

/-- A partial over these tasks: it carries each of their warnings once, from the first of them. -/
structure Carries (good : PyValue α → Prop) (held : Partition → Caught) (ts : List Task)
    (v : PyValue α) : Prop where
  good : good v
  distinct : (v.split.2.map Prod.fst).Nodup
  first : ∀ key, v.split.2.lookup key = ts.findSome? fun t => (held t.partition).lookup key

variable {held : Partition → Caught}

theorem Tied.good_process (h : Tied good p q) {part : Partition} {v : PyValue α}
    (hv : p.process.call part = .ok v) : good v := by
  obtain ⟨_, -, hgood, -⟩ := (h.process part).exists_right hv
  exact hgood

theorem Tied.carries_empty (h : Tied good p q) {v : PyValue α} (hv : p.empty = .ok v)
    {ts : List Task} (hts : ∀ t ∈ ts, held t.partition = []) : Carries good held ts v := by
  obtain ⟨_, -, rfl, hclean⟩ := h.empty.exists_right hv
  have hsplit := hclean.plain.split_eq
  refine ⟨h.good_of_clean hclean, ?_, fun key => ?_⟩
  · rw [hsplit]
    exact List.nodup_nil
  · rw [hsplit, eq_comm]
    apply List.findSome?_eq_none_iff.mpr
    intro t ht
    rw [hts t ht]
    rfl

theorem Tied.carries_task (h : Tied good p q) {t : Task} {v : PyValue α}
    (hv : p.process.call t.partition = .ok v) (hheld : held t.partition = v.split.2)
    (hnodup : (v.split.2.map Prod.fst).Nodup) : Carries good held [t] v := by
  refine ⟨h.good_process hv, hnodup, fun key => ?_⟩
  rw [List.findSome?_cons, hheld]
  cases v.split.2.lookup key <;> rfl

/-- **Of two partials' warnings, the left's come first.** -/
theorem Tied.carries_combine (h : Tied good p q) {ts us : List Task} {v w u : PyValue α}
    (hv : Carries good held ts v) (hw : Carries good held us w) (hu : p.combine v w = .ok u) :
    Carries good held (ts ++ us) u := by
  have hpair := h.combine ⟨hv.good, hv.good, rfl⟩ ⟨hw.good, hw.good, rfl⟩
  obtain ⟨_, -, hgood, -⟩ := hpair.exists_right hu
  have hcaught := h.caught hv.good hw.good hu
  refine ⟨hgood, ?_, fun key => ?_⟩
  · rw [hcaught, mergeCaught_eq]
    exact nodup_dictUpdate hw.distinct hv.distinct
  · rw [hcaught, mergeCaught_eq, lookup_dictUpdate, hv.first key, hw.first key,
      List.findSome?_append]

variable {tree : Reduction} (hnodup : ∀ t ∈ tree.leaves, ∀ v,
  p.process.call t.partition = .ok v → (v.split.2.map Prod.fst).Nodup)

include hnodup

theorem Tied.carries_plain (h : Tied good p q) {v : Plain (PyValue α)}
    (hv : tree.reduce p.given = .ok v) : Carries good (p.held []) tree.leaves v.value := by
  refine Reduction.reduce_holds (P := fun ts v => Carries good (p.held []) ts v.value)
    ?_ ?_ ?_ hv
  · intro v hv
    obtain ⟨x, hx, rfl⟩ := Attempts.map_eq_ok_iff.mp hv
    exact h.carries_empty hx fun _ ht => absurd ht List.not_mem_nil
  · intro t ht v hv
    obtain ⟨x, hx, rfl⟩ := Attempts.map_eq_ok_iff.mp hv
    refine h.carries_task hx ?_ (hnodup t ht x hx)
    unfold TaskPlan.held
    rw [hx]
    rfl
  · intro ts us v w u hv hw hu
    obtain ⟨x, hx, rfl⟩ := Attempts.map_eq_ok_iff.mp hu
    exact h.carries_combine hv hw hx

theorem Tied.carries_skip (h : Tied good p q) {sp : SkipPlan (PyValue α)} (hp : sp.base = p.given)
    {v : Partial (PyValue α)} (hv : tree.reduce sp.plan = .ok v) :
    Carries good (p.held sp.lost) tree.leaves v.value := by
  have hmissing : ∀ failed (v : Partial (PyValue α)) (t : Task), sp.missing failed = .ok v →
      p.held sp.lost t.partition = [] → Carries good (p.held sp.lost) [t] v.value := by
    intro failed v t hv hheld
    unfold SkipPlan.missing at hv
    rw [hp] at hv
    obtain ⟨x, hx, rfl⟩ := Attempts.map_eq_ok_iff.mp hv
    obtain ⟨y, hy, rfl⟩ := Attempts.map_eq_ok_iff.mp hx
    exact h.carries_empty hy (List.forall_mem_singleton.mpr hheld)
  refine Reduction.reduce_holds (P := fun ts v => Carries good (p.held sp.lost) ts v.value)
    ?_ ?_ ?_ hv
  · intro v hv
    change sp.base.empty.map _ = _ at hv
    rw [hp] at hv
    obtain ⟨x, hx, rfl⟩ := Attempts.map_eq_ok_iff.mp hv
    obtain ⟨y, hy, rfl⟩ := Attempts.map_eq_ok_iff.mp hx
    exact h.carries_empty hy fun _ ht => absurd ht List.not_mem_nil
  · intro t ht v hv
    change sp.process t.partition = .ok v at hv
    unfold SkipPlan.process at hv
    cases hlost : sp.lost.lookup (chunkLabel t.partition) with
    | some failed =>
        rw [hlost] at hv
        refine hmissing failed v t hv ?_
        unfold TaskPlan.held
        rw [hlost]
    | none =>
        have hgiven : p.given.process t.partition = (p.process.call t.partition).map .mk := rfl
        rw [hlost, hp] at hv
        dsimp only at hv
        rw [hgiven] at hv
        cases hcall : p.process.call t.partition with
        | ok x =>
            rw [hcall] at hv
            obtain rfl := Except.ok.inj hv
            refine h.carries_task hcall ?_ (hnodup t ht x hcall)
            unfold TaskPlan.held
            rw [hlost, hcall]
        | error e =>
            rw [hcall] at hv
            change (if e.isException = true then _ else Except.error e) = _ at hv
            split at hv
            · refine hmissing _ v t hv ?_
              unfold TaskPlan.held
              rw [hlost, hcall]
            · cases hv
  · intro ts us v w u hv hw hu
    change sp.combine v w = .ok u at hu
    unfold SkipPlan.combine at hu
    split at hu
    · cases hu
    · rw [hp] at hu
      obtain ⟨x, hx, rfl⟩ := Attempts.map_eq_ok_iff.mp hu
      obtain ⟨y, hy, rfl⟩ := Attempts.map_eq_ok_iff.mp hx
      exact h.carries_combine hv hw hy

end Carried

/-! ### What a run issues -/

section Runs

theorem findSome?_kept {chunks : List Chunk} {keeps : Chunk → Bool} {held : Partition → Caught}
    {caught : Chunk → Caught} (key : WarningKey)
    (h : ∀ c ∈ chunks, held c.partition = if keeps c = true then caught c else []) :
    chunks.findSome? (fun c => (held c.partition).lookup key) =
      (chunks.filter keeps).findSome? fun c => (caught c).lookup key := by
  induction chunks with
  | nil => rfl
  | cons c chunks ih =>
      have hfirst := h c List.mem_cons_self
      have hrest := ih fun d hd => h d (List.mem_cons_of_mem _ hd)
      rw [List.findSome?_cons, List.filter_cons, hfirst, hrest]
      cases keeps c with
      | true =>
          rw [if_pos rfl, if_pos rfl, List.findSome?_cons]
      | false => rfl

theorem Gives.nodup {carried : String → String} {p : TaskPlan α σ} {c : Chunk}
    (h : Gives carried p c) {v : PyValue α}
    (hv : p.process.call c.partition = .ok v) : (v.split.2.map Prod.fst).Nodup := by
  unfold Gives at h
  split at h
  · obtain ⟨e, he⟩ := h
    rw [hv] at he
    cases he
  · obtain ⟨w, hw, hcaught⟩ := h
    obtain rfl := Except.ok.inj (hv.symm.trans hw)
    rw [hcaught]
    exact (carriedOf_spec carried c.heard c.label).1

variable [DecidableEq σ] {carried : String → String} {quote : String → String}

/-- **The warnings of the chunks a run keeps.** -/
theorem Outline.issued (o : Outline α σ) {p : TaskPlan α σ}
    (h : o.build carried quote = .ok p)
    {lost : List (String × FailedChunk)} {keeps : Chunk → Bool}
    (hkeeps : ∀ c, keeps c = (!c.failed && (lost.lookup (chunkLabel c.partition)).isNone))
    {v : PyValue α} (hv : Carries o.Good (p.held lost) p.ordered v) :
    o.issues v = v.split.2.map warnExplicit ∧ (v.split.2.map Prod.fst).Nodup ∧
      ∀ key, (v.split.2.lookup key).map (·.chunk) =
        (firstRaised carried (o.chunks.filter keeps) key).map (·.label) := by
  obtain ⟨hparts, hgives⟩ := o.chunks_spec h
  refine ⟨o.issues_eq hv.good, hv.distinct, fun key => ?_⟩
  have hheld : ∀ c ∈ o.chunks, p.held lost c.partition =
      if keeps c = true then carriedOf carried c.heard c.label else [] := by
    intro c hc
    have hgive := hgives c hc
    unfold Gives at hgive
    unfold TaskPlan.held
    rw [hkeeps c]
    cases hlost : lost.lookup (chunkLabel c.partition) with
    | some failed =>
        rw [Option.isNone_some, Bool.and_false, if_neg Bool.false_ne_true]
    | none =>
        rw [Option.isNone_none, Bool.and_true]
        cases hfailed : c.failed with
        | true =>
            rw [if_pos hfailed] at hgive
            obtain ⟨e, he⟩ := hgive
            rw [he]
            rfl
        | false =>
            rw [if_neg (by simp [hfailed])] at hgive
            obtain ⟨w, hw, hcaught⟩ := hgive
            rw [hw]
            exact hcaught
  have hlists : p.ordered.findSome? (fun t => (p.held lost t.partition).lookup key) =
      o.chunks.findSome? fun c => (p.held lost c.partition).lookup key := by
    calc p.ordered.findSome? (fun t => (p.held lost t.partition).lookup key)
        = (p.ordered.map (·.partition)).findSome? fun part => (p.held lost part).lookup key := by
          rw [List.findSome?_map]
          rfl
      _ = o.chunks.findSome? fun c => (p.held lost c.partition).lookup key := by
          rw [hparts, List.findSome?_map]
          rfl
  rw [hv.first key, hlists, findSome?_kept key hheld, firstRaised_label]

/-- Two chunks of a file that catch the same warning; the first raises. -/
def failsFirst : Outline Nat Unit := .aggregate
  { values := fun part => if part.entryStart = 0 then .error (valueError "bad chunk") else .ok [1]
    caught := fun _ => [(⟨"RuntimeWarning", "divide by zero"⟩, "analysis.py", 3)]
    label := fun part => if part.entryStart = 0 then "f:t (entries 0-10)" else "f:t (entries 10-20)"
    own := ⟨fun _ => .ok 1, fun _ _ => .ok 1, .ok 0, none⟩
    partPaths := fun _ => .ok []
    partitions := [⟨"f", "t", 0, 10, none, none, none⟩, ⟨"f", "t", 10, 20, none, none, none⟩]
    services := [] }

def failsFirstTree : Reduction :=
  .merge (.task ⟨0, ⟨"f", "t", 0, 10, none, none, none⟩⟩)
    (.task ⟨1, ⟨"f", "t", 10, 20, none, none, none⟩⟩)

end Runs

end Graphed
