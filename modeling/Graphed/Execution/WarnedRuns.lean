import Graphed.Execution.Warned
import Graphed.Library.Attempts

/-!
# Runs and their warnings

A run whose tasks catch warnings ends as the same run with none: no function of a plan's author is
handed a carrier, and what the run's value carries is issued once, under the first chunk that raised
it and whose partial the run holds.
-/

namespace Graphed

open Attempts (Alike)

variable {α σ : Type}

/-! ### Clean values -/

/-- No carrier anywhere in the value. -/
inductive PyValue.Clean : PyValue α → Prop
  | leaf (a : α) : Clean (.leaf a)
  | dict {items : List (String × PyValue α)} (h : ∀ item ∈ items, Clean item.2) :
      Clean (.dict items)

namespace PyValue.Clean

variable {v : PyValue α}

theorem plain (h : v.Clean) : v.Plain := by
  cases h with
  | leaf a => trivial
  | dict h => trivial

theorem not_carrier (h : v.Clean) : v.isCarrier = false := by
  cases h with
  | leaf a => rfl
  | dict h => rfl

theorem items {given : List (String × PyValue α)} (h : v.Clean) (hitems : v.items = .ok given) :
    ∀ item ∈ given, item.2.Clean := by
  cases h with
  | leaf a => cases hitems
  | dict h =>
      obtain rfl := Except.ok.inj hitems
      exact h

theorem split_withCaught (h : v.Clean) (caught : Caught) :
    (v.withCaught caught).split = (v, caught) :=
  h.plain.split_withCaught caught

theorem bare_withCaught (h : v.Clean) (caught : Caught) : (v.withCaught caught).bare = v :=
  congrArg Prod.fst (h.split_withCaught caught)

end PyValue.Clean

theorem split_carrying (carried : String → String) {v : PyValue α} (h : v.Clean) (caught : Heard)
    (chunk : String) :
    (carrying carried v caught chunk).split = (v, carriedOf carried caught chunk) := by
  unfold carrying
  split
  · rename_i hnil
    rw [h.plain.split_eq, hnil]
    rfl
  · rfl

/-! ### Two plans that differ by what they carry -/

/-- One value, carried or not, of the kind `good`. -/
def SameBare (good : PyValue α → Prop) (v w : PyValue α) : Prop :=
  good v ∧ good w ∧ v.bare = w.bare

/-- One clean value. -/
def SameClean (v w : PyValue α) : Prop := v = w ∧ v.Clean

/-- Combines that do the same on clean values, and keep them clean. -/
def SameCombine (fn fn' : Combine α) : Prop :=
  ∀ v w : PyValue α, v.Clean → w.Clean → Alike SameClean (fn v w) (fn' v w)

/-- The plans' partials are `good`, and the same but for what they carry. -/
structure Tied (good : PyValue α → Prop) (p q : TaskPlan α σ) : Prop where
  good_of_clean : ∀ {v : PyValue α}, v.Clean → good v
  clean_bare : ∀ {v : PyValue α}, good v → v.bare.Clean
  tasks : p.tasks = q.tasks
  hasNextTasks : p.hasNextTasks = q.hasNextTasks
  stop : p.stop = q.stop
  services : p.services = q.services
  partPaths : p.process.partPaths = q.process.partPaths
  process : ∀ part, Alike (SameBare good) (p.process.call part) (q.process.call part)
  empty : Alike SameClean p.empty q.empty
  combine : ∀ {v w v' w' : PyValue α}, SameBare good v v' → SameBare good w w' →
    Alike (SameBare good) (p.combine v w) (q.combine v' w')
  combine_clean : SameCombine p.combine q.combine
  caught : ∀ {v w u : PyValue α}, good v → good w → p.combine v w = .ok u →
    u.split.2 = mergeCaught w.split.2 v.split.2
  truthy : p.finalize.map (·.truthy) = q.finalize.map (·.truthy)
  finalize : ∀ {v w : PyValue α}, SameBare good v w → ∀ fn ∈ p.finalize, ∀ fn' ∈ q.finalize,
    fn.call v = fn'.call w
  plain : p.finalize = none → ∀ {v : PyValue α}, good v → v.Plain

theorem sameBare_of_bare {u v w : PyValue α} (hu : u.Clean) (hv : v.bare = u) (hw : w.bare = u) :
    SameBare (fun v => v.bare.Clean) v w := by
  have hcleanv : v.bare.Clean := hv ▸ hu
  have hcleanw : w.bare.Clean := hw ▸ hu
  exact ⟨hcleanv, hcleanw, hv.trans hw.symm⟩

/-- A wrapped combine, over one that keeps values clean. -/
theorem warnedCombine_alike {fn fn' : Combine α} (hfn : SameCombine fn fn')
    {v w v' w' : PyValue α} (hv : SameBare (fun v => v.bare.Clean) v v')
    (hw : SameBare (fun v => v.bare.Clean) w w') :
    Alike (SameBare fun v => v.bare.Clean) (WarnedCombine fn v w) (WarnedCombine fn' v' w') := by
  obtain ⟨hclean, -, hv⟩ := hv
  obtain ⟨hcleanw, -, hw⟩ := hw
  have hpair := hfn v.bare w.bare hclean hcleanw
  unfold WarnedCombine
  change Alike _ ((fn v.bare w.bare).map _) ((fn' v'.bare w'.bare).map _)
  rw [← hv, ← hw]
  apply hpair.map
  rintro u _ ⟨rfl, hu⟩
  exact sameBare_of_bare hu (hu.bare_withCaught _) (hu.bare_withCaught _)

theorem warnedCombine_clean {fn fn' : Combine α} (hfn : SameCombine fn fn') :
    SameCombine (WarnedCombine fn) (WarnedCombine fn') := by
  intro v w hv hw
  unfold WarnedCombine
  rw [hv.plain.split_eq, hw.plain.split_eq]
  exact (hfn v w hv hw).map fun _ _ h => h

theorem warnedCombine_caught {fn fn' : Combine α} (hfn : SameCombine fn fn')
    {v w u : PyValue α} (hv : v.bare.Clean) (hw : w.bare.Clean)
    (h : WarnedCombine fn v w = .ok u) : u.split.2 = mergeCaught w.split.2 v.split.2 := by
  obtain ⟨x, hx, rfl⟩ := Attempts.map_eq_ok_iff.mp h
  obtain ⟨_, -, rfl, hclean⟩ := (hfn v.bare w.bare hv hw).exists_right hx
  exact congrArg Prod.snd (hclean.split_withCaught _)

/-! ### Plans of one author -/

/-- The same functions, as long as they are handed no carrier. -/
structure Functions.SameOnClean (own own' : Functions α) : Prop where
  reduce : ∀ values : List α, own.reduce (values.map .leaf) = own'.reduce (values.map .leaf)
  combine : ∀ {v w : PyValue α}, v.Clean → w.Clean → own.combine v w = own'.combine v w
  empty : own.empty = own'.empty
  isSome : own.finalize.isSome = own'.finalize.isSome
  finalize : ∀ {v : PyValue α}, v.Clean → ∀ fn ∈ own.finalize, ∀ fn' ∈ own'.finalize,
    fn v = fn' v

namespace Functions.SameOnClean

variable {own own' : Functions α}

theorem refl (own : Functions α) : own.SameOnClean own where
  reduce _ := rfl
  combine _ _ := rfl
  empty := rfl
  isSome := rfl
  finalize _ fn hfn fn' hfn' := by rw [Option.some.inj (hfn.symm.trans hfn')]

theorem guarded (e : Raised) (own : Functions α) : own.SameOnClean (own.guarded e) where
  reduce values := by
    have hany : (values.map PyValue.leaf).any PyValue.isCarrier = false := by
      rw [List.any_map]
      exact List.any_eq_false.mpr fun _ _ => Bool.false_ne_true
    unfold Functions.guarded
    dsimp only
    rw [hany]
    rfl
  combine hv hw := by
    unfold Functions.guarded
    dsimp only
    rw [hv.not_carrier, hw.not_carrier]
    rfl
  empty := rfl
  isSome := by
    unfold Functions.guarded
    rw [Option.isSome_map]
  finalize := by
    intro v hv fn hfn fn' hfn'
    obtain ⟨fn₀, hfn₀, rfl⟩ := Option.map_eq_some_iff.mp hfn'
    obtain rfl := Option.some.inj (hfn.symm.trans hfn₀)
    change fn v = if v.isCarrier = true then _ else fn v
    rw [hv.not_carrier]
    rfl

theorem reduced (h : own.SameOnClean own') (values : Except Raised (List α)) :
    own.reduced values = own'.reduced values := by
  unfold Functions.reduced
  cases values with
  | error e => rfl
  | ok values => exact h.reduce values

theorem combined (h : own.SameOnClean own') : SameCombine own.combined own'.combined := by
  intro v w hv hw
  unfold Functions.combined
  rw [h.combine hv hw]
  apply Alike.of_eq
  intro x hx
  obtain ⟨a, -, rfl⟩ := Attempts.map_eq_ok_iff.mp hx
  exact ⟨rfl, PyValue.Clean.leaf a⟩

theorem emptied (h : own.SameOnClean own') :
    Alike SameClean (own.empty.map PyValue.leaf) (own'.empty.map PyValue.leaf) := by
  rw [h.empty]
  apply Alike.of_eq
  intro x hx
  obtain ⟨a, -, rfl⟩ := Attempts.map_eq_ok_iff.mp hx
  exact ⟨rfl, PyValue.Clean.leaf a⟩

end Functions.SameOnClean

theorem Functions.combined_clean (own : Functions α) {v w u : PyValue α}
    (h : own.combined v w = .ok u) : u.Clean := by
  obtain ⟨a, -, rfl⟩ := Attempts.map_eq_ok_iff.mp h
  exact PyValue.Clean.leaf a

section Tied

variable (carried : String → String) {f : Functions α → Functions α}
  (hf : ∀ own : Functions α, own.SameOnClean (f own))

include hf

theorem Aggregation.tied (a : Aggregation α σ) (caught : Partition → Heard) :
    Tied (fun v => v.bare.Clean) (a.plan carried)
      ({ a with own := f a.own, caught := caught }.plan carried) where
  good_of_clean h := by
    rw [h.plain.bare_eq]
    exact h
  clean_bare h := h
  tasks := rfl
  hasNextTasks := rfl
  stop := rfl
  services := rfl
  partPaths := rfl
  process part := by
    change Alike _ (a.own.reduced (a.values part) >>= _) ((f a.own).reduced (a.values part) >>= _)
    rw [← (hf a.own).reduced]
    cases a.own.reduced (a.values part) with
    | error e => exact Alike.error e
    | ok x =>
        have hbare : ∀ (caught : Heard) (chunk : String),
            (carrying carried (.leaf x) caught chunk).bare = .leaf x := fun caught chunk =>
          congrArg Prod.fst (split_carrying carried (PyValue.Clean.leaf x) caught chunk)
        exact Alike.ok (sameBare_of_bare (PyValue.Clean.leaf x) (hbare _ _) (hbare _ _))
  empty := (hf a.own).emptied
  combine := warnedCombine_alike (hf a.own).combined
  combine_clean := warnedCombine_clean (hf a.own).combined
  caught hv hw h := warnedCombine_caught (hf a.own).combined hv hw h
  truthy := rfl
  finalize := by
    rintro v w ⟨hv, -, hvw⟩ fn hfn fn' hfn'
    obtain rfl := Option.some.inj hfn
    obtain rfl := Option.some.inj hfn'
    have hsome := (hf a.own).isSome
    have hcall := (hf a.own).finalize hv
    cases hown : a.own.finalize <;> cases hrevised : (f a.own).finalize <;>
      rw [hown, hrevised] at hsome
    · exact congrArg Except.ok hvw
    · cases hsome
    · cases hsome
    · rename_i fn fn'
      change (fn v.bare).map _ = (fn' w.bare).map _
      rw [← hvw, hcall fn hown fn' hrevised]
  plain := by
    rintro ⟨⟩

theorem HandPlan.tied (p : HandPlan α σ) :
    Tied PyValue.Clean p.plan ({ p with own := f p.own } : HandPlan α σ).plan where
  good_of_clean h := h
  clean_bare h := by
    rw [h.plain.bare_eq]
    exact h
  tasks := rfl
  hasNextTasks := rfl
  stop := rfl
  services := rfl
  partPaths := rfl
  process part := by
    change Alike _ ((p.own.reduced (p.values part)).map _)
      (((f p.own).reduced (p.values part)).map _)
    rw [← (hf p.own).reduced]
    apply Alike.of_eq
    intro x hx
    obtain ⟨a, -, rfl⟩ := Attempts.map_eq_ok_iff.mp hx
    exact ⟨PyValue.Clean.leaf a, PyValue.Clean.leaf a, rfl⟩
  empty := (hf p.own).emptied
  combine := by
    rintro v w v' w' ⟨hv, hv', hvv⟩ ⟨hw, hw', hww⟩
    rw [hv.plain.bare_eq, hv'.plain.bare_eq] at hvv
    rw [hw.plain.bare_eq, hw'.plain.bare_eq] at hww
    subst hvv hww
    refine ((hf p.own).combined v w hv hw).mono ?_
    rintro x _ - - ⟨rfl, hx⟩
    exact ⟨hx, hx, rfl⟩
  combine_clean := (hf p.own).combined
  caught hv hw h := by
    rw [(p.own.combined_clean h).plain.split_eq, hv.plain.split_eq, hw.plain.split_eq]
    rfl
  truthy := by
    have hsome := (hf p.own).isSome
    unfold HandPlan.plan HandPlan.finalizer
    simp only [Option.map_map]
    cases hown : p.own.finalize <;> cases hrevised : (f p.own).finalize <;>
      rw [hown, hrevised] at hsome <;> first | rfl | cases hsome
  finalize := by
    rintro v w ⟨hv, hw, hvw⟩ fn hfn fn' hfn'
    rw [hv.plain.bare_eq, hw.plain.bare_eq] at hvw
    subst hvw
    obtain ⟨g, hg, rfl⟩ := Option.map_eq_some_iff.mp hfn
    obtain ⟨g', hg', rfl⟩ := Option.map_eq_some_iff.mp hfn'
    obtain ⟨fn, hown, rfl⟩ := Option.map_eq_some_iff.mp hg
    obtain ⟨fn', hown', rfl⟩ := Option.map_eq_some_iff.mp hg'
    exact congrArg (Except.map PyValue.leaf) ((hf p.own).finalize hv fn hown fn' hown')
  plain _ _ hv := hv.plain

end Tied

/-! ### Collated plans -/

section Collate

variable (quote : String → String)

/-- An entry of each loop, for plans that are tied. -/
def TiedEntry (x y : String × TaskPlan α σ) : Prop := x.1 = y.1 ∧ ∃ good, Tied good x.2 y.2

/-- An entry of each mapping. -/
def TiedGiven (x y : String × GivenPlan α σ) : Prop :=
  x.1 = y.1 ∧ ∃ p q, x.2 = .plan p ∧ y.2 = .plan q ∧ ∃ good, Tied good p q

/-- The loops over the plans have come to the same. -/
structure TiedLoop (c d : Collating α σ) : Prop where
  route : c.route = d.route
  tasks : c.tasks = d.tasks
  fixed : List.Forall₂ TiedEntry c.fixed d.fixed

theorem addTask_alike (name : String) (t : Task) {c d : Collating α σ} (h : TiedLoop c d) :
    Alike TiedLoop (addTask quote name c t) (addTask quote name d t) := by
  unfold addTask
  rw [← h.route, ← h.tasks]
  dsimp only
  split
  · exact Alike.error _
  · exact Alike.ok ⟨rfl, rfl, h.fixed⟩

theorem addPlan_alike {x y : String × GivenPlan α σ} (hxy : TiedGiven x y) {c d : Collating α σ}
    (h : TiedLoop c d) : Alike TiedLoop (addPlan quote c x) (addPlan quote d y) := by
  obtain ⟨hname, p, q, hp, hq, good, htied⟩ := hxy
  unfold addPlan
  rw [hp, hq, ← hname]
  dsimp only
  rw [← htied.hasNextTasks, ← htied.stop]
  have hordered : p.ordered = q.ordered := congrArg (List.insertionSort _) htied.tasks
  rw [← hordered]
  split
  · exact Alike.error _
  · apply Alike.foldlM (List.forall₂_same.mpr fun t _ => rfl)
    · rintro t _ rfl c d h
      exact addTask_alike quote x.1 t h
    · refine ⟨h.route, h.tasks, List.rel_append h.fixed ?_⟩
      exact List.Forall₂.cons ⟨rfl, good, htied⟩ List.Forall₂.nil

theorem declare_alike [DecidableEq σ] {x y : String × GivenPlan α σ} (hxy : TiedGiven x y)
    (services : List (ServiceSpec σ)) :
    declare quote services x = declare quote services y := by
  obtain ⟨hname, p, q, hp, hq, good, htied⟩ := hxy
  unfold declare
  rw [hp, hq, ← hname]
  change p.services.foldlM _ _ = q.services.foldlM _ _
  rw [htied.services]

variable {cs ds : List (String × Combine α)}

/-- Combines by name, each the same on clean values. -/
abbrev TiedCombines (cs ds : List (String × Combine α)) : Prop :=
  List.Forall₂ (fun x y => x.1 = y.1 ∧ SameCombine x.2 y.2) cs ds

theorem names_of_forall₂ {κ ν μ : Type} {R : ν → μ → Prop} {items : List (κ × ν)}
    {items' : List (κ × μ)} (h : List.Forall₂ (fun x y => x.1 = y.1 ∧ R x.2 y.2) items items') :
    items.map Prod.fst = items'.map Prod.fst := by
  induction h with
  | nil => rfl
  | cons hxy _ ih => rw [List.map_cons, List.map_cons, hxy.1, ih]

theorem clean_of_lookup {items : List (String × PyValue α)} (h : ∀ item ∈ items, item.2.Clean)
    {name : String} {v : PyValue α} (hv : items.lookup name = some v) : v.Clean := by
  obtain ⟨front, rest, rfl, -⟩ := List.lookup_eq_some_iff.mp hv
  exact h (name, v) (by simp)

/-- One item of two. -/
def SameItem (x y : String × PyValue α) : Prop := x = y ∧ x.2.Clean

theorem combineItem_alike (h : TiedCombines cs ds) {a : List (String × PyValue α)}
    (ha : ∀ item ∈ a, item.2.Clean) {item : String × PyValue α} (hitem : item.2.Clean) :
    Alike SameItem (combineItem quote cs a item) (combineItem quote ds a item) := by
  unfold combineItem
  cases hmine : a.lookup item.1 with
  | none => exact Alike.ok ⟨rfl, hitem⟩
  | some mine =>
      dsimp only
      unfold dictItem
      obtain ⟨hc, hd⟩ | ⟨fn, fn', hc, hd, hfn⟩ := lookup_forall₂ (R := SameCombine) h item.1
      · rw [hc, hd]
        exact Alike.error _
      · rw [hc, hd]
        have hpair := hfn mine item.2 (clean_of_lookup ha hmine) hitem
        change Alike _ (fn mine item.2 >>= _) (fn' mine item.2 >>= _)
        apply hpair.bind
        rintro v _ ⟨rfl, hv⟩
        exact Alike.ok ⟨rfl, hv⟩

theorem sameItems {xs ys : List (String × PyValue α)} (h : List.Forall₂ SameItem xs ys) :
    xs = ys ∧ ∀ item ∈ xs, item.2.Clean := by
  induction h with
  | nil => exact ⟨rfl, fun _ h => absurd h List.not_mem_nil⟩
  | @cons x y xs ys hxy _ ih =>
      obtain ⟨rfl, hclean⟩ := hxy
      obtain ⟨rfl, hrest⟩ := ih
      exact ⟨rfl, List.forall_mem_cons.mpr ⟨hclean, hrest⟩⟩

/-- **Name by name the same.** -/
theorem collatedCombine_same (h : TiedCombines cs ds) :
    SameCombine (CollatedCombine quote cs) (CollatedCombine quote ds) := by
  intro v w hv hw
  unfold CollatedCombine
  cases ha : v.items with
  | error e => exact Alike.error e
  | ok a =>
      cases hb : w.items with
      | error e => exact Alike.error e
      | ok b =>
          have hcleana := hv.items ha
          have hsame : List.Forall₂ SameItem b b :=
            List.forall₂_same.mpr fun item hitem => ⟨rfl, hw.items hb item hitem⟩
          have hitems := Alike.mapM (f := combineItem quote cs a) (g := combineItem quote ds a)
            hsame fun item _ hpair => by
              obtain ⟨rfl, hitem⟩ := hpair
              exact combineItem_alike quote h hcleana hitem
          change Alike _ (b.mapM (combineItem quote cs a) >>= _)
            (b.mapM (combineItem quote ds a) >>= _)
          apply hitems.bind
          intro us us' hus
          obtain ⟨rfl, hcleanb⟩ := sameItems hus
          have hnames := names_of_forall₂ (R := SameCombine) h
          have hdict : ∀ es : List (String × Combine α),
              (es.filterMap fun entry => ((dictUpdate a us).lookup entry.1).map (entry.1, ·)) =
                dictOf (es.map Prod.fst) fun name => (dictUpdate a us).lookup name := fun es =>
            (dictOf_map es fun name => (dictUpdate a us).lookup name).symm
          simp only [hdict, hnames]
          refine Alike.ok ⟨rfl, PyValue.Clean.dict ?_⟩
          intro item hitem
          obtain ⟨name, -, hname⟩ := List.mem_filterMap.mp hitem
          obtain ⟨x, hx, rfl⟩ := Option.map_eq_some_iff.mp hname
          replace hx : (dictUpdate a us).lookup name = some x := hx
          rw [lookup_dictUpdate, Option.or_eq_some_iff] at hx
          rcases hx with hx | ⟨-, hx⟩
          · exact clean_of_lookup hcleanb hx
          · exact clean_of_lookup hcleana hx

/-- Processes whose partials are the same but for what they carry. -/
def SameProcess (P P' : Process α) : Prop :=
  P.partPaths = P'.partPaths ∧
    ∀ part, Alike (SameBare fun v => v.bare.Clean) (P.call part) (P'.call part)

theorem Tied.sameProcess {good : PyValue α → Prop} {p q : TaskPlan α σ} (h : Tied good p q) :
    SameProcess p.process q.process := by
  refine ⟨h.partPaths, fun part => (h.process part).mono ?_⟩
  rintro v w - - ⟨hv, hw, hvw⟩
  exact ⟨h.clean_bare hv, h.clean_bare hw, hvw⟩

section Loop

variable {c d : Collating α σ}

theorem TiedLoop.processes (h : TiedLoop c d) :
    List.Forall₂ (fun x y => x.1 = y.1 ∧ SameProcess x.2 y.2)
      (c.fixed.map fun p => (p.1, p.2.process)) (d.fixed.map fun p => (p.1, p.2.process)) := by
  rw [List.forall₂_map_left_iff, List.forall₂_map_right_iff]
  refine h.fixed.imp ?_
  rintro x y ⟨hname, good, htied⟩
  exact ⟨hname, htied.sameProcess⟩

theorem TiedLoop.combines (h : TiedLoop c d) :
    TiedCombines (c.fixed.map fun p => (p.1, p.2.combine))
      (d.fixed.map fun p => (p.1, p.2.combine)) := by
  unfold TiedCombines
  rw [List.forall₂_map_left_iff, List.forall₂_map_right_iff]
  refine h.fixed.imp ?_
  rintro x y ⟨hname, good, htied⟩
  exact ⟨hname, htied.combine_clean⟩

/-- The sub-plan of a partition. -/
theorem TiedLoop.routed (h : TiedLoop c d) (part : Partition) :
    Alike (fun x y => x.1 = y.1 ∧ SameProcess x.2 y.2)
      ((Collated.mk (c.fixed.map fun p => (p.1, p.2.process)) c.route).routed quote part)
      ((Collated.mk (d.fixed.map fun p => (p.1, p.2.process)) d.route).routed quote part) := by
  unfold Collated.routed dictItem
  dsimp only
  rw [← h.route]
  cases c.route.lookup part.fileTree with
  | none => exact Alike.error _
  | some name =>
      change Alike _ (_ >>= fun process => Except.ok (name, process))
        (_ >>= fun process => Except.ok (name, process))
      obtain ⟨hc, hd⟩ | ⟨P, P', hc, hd, hsame⟩ :=
        lookup_forall₂ (R := SameProcess) h.processes name
      · rw [hc, hd]
        exact Alike.error _
      · rw [hc, hd]
        exact Alike.ok ⟨rfl, hsame⟩

/-- Each name's finalize. -/
def SameFinalize (fn fn' : Finalize α) : Prop :=
  fn.truthy = fn'.truthy ∧ ∀ v : PyValue α, v.Clean → fn.call v = fn'.call v

theorem Tied.sameFinalize {good : PyValue α → Prop} {p q : TaskPlan α σ} (h : Tied good p q) :
    p.finalize = none ∧ q.finalize = none ∨
      ∃ fn fn', p.finalize = some fn ∧ q.finalize = some fn' ∧ SameFinalize fn fn' := by
  have htruthy := h.truthy
  cases hp : p.finalize <;> cases hq : q.finalize <;> rw [hp, hq] at htruthy
  · exact Or.inl ⟨rfl, rfl⟩
  · cases htruthy
  · cases htruthy
  · rename_i fn fn'
    refine Or.inr ⟨fn, fn', rfl, rfl, Option.some.inj htruthy, fun v hv => ?_⟩
    have hgood := h.good_of_clean hv
    exact h.finalize ⟨hgood, hgood, rfl⟩ fn hp fn' hq

theorem TiedLoop.finalizers (h : TiedLoop c d) :
    List.Forall₂ (fun x y => x.1 = y.1 ∧ SameFinalize x.2 y.2)
      (c.fixed.filterMap fun p => p.2.finalize.map (p.1, ·))
      (d.fixed.filterMap fun p => p.2.finalize.map (p.1, ·)) := by
  have hfixed := h.fixed
  generalize c.fixed = ps at hfixed ⊢
  generalize d.fixed = qs at hfixed ⊢
  induction hfixed with
  | nil => exact List.Forall₂.nil
  | cons hxy _ ih =>
      obtain ⟨hname, good, htied⟩ := hxy
      rw [List.filterMap_cons, List.filterMap_cons]
      obtain ⟨hp, hq⟩ | ⟨fn, fn', hp, hq, hsame⟩ := htied.sameFinalize
      · rw [hp, hq]
        exact ih
      · rw [hp, hq]
        exact List.Forall₂.cons ⟨hname, hsame⟩ ih

theorem collatedFinalize_same {fs gs : List (String × Finalize α)}
    (h : List.Forall₂ (fun x y => x.1 = y.1 ∧ SameFinalize x.2 y.2) fs gs) {v : PyValue α}
    (hv : v.Clean) : (CollatedFinalize fs).call v = (CollatedFinalize gs).call v := by
  unfold CollatedFinalize
  dsimp only
  cases hitems : v.items with
  | error e => rfl
  | ok given =>
      have hclean := hv.items hitems
      have hitem : ∀ item ∈ given, finalizeItem fs item = finalizeItem gs item := by
        intro item hitem
        unfold finalizeItem
        obtain ⟨hf, hg⟩ | ⟨fn, fn', hf, hg, hsame⟩ :=
          lookup_forall₂ (R := SameFinalize) h item.1
        · rw [hf, hg]
        · rw [hf, hg]
          dsimp only
          rw [hsame.1, hsame.2 item.2 (hclean item hitem)]
      change (given.mapM (finalizeItem fs) >>= _) = (given.mapM (finalizeItem gs) >>= _)
      rw [Attempts.mapM_congr hitem]

/-- **Collating tied plans.** -/
theorem TiedLoop.tied (h : TiedLoop c d) (services : List (ServiceSpec σ)) :
    Tied (fun v => v.bare.Clean) (c.plan quote services) (d.plan quote services) where
  good_of_clean hv := by
    rw [hv.plain.bare_eq]
    exact hv
  clean_bare hv := hv
  tasks := h.tasks
  hasNextTasks := rfl
  stop := rfl
  services := rfl
  partPaths := by
    apply congrArg some
    funext part
    apply Alike.eq
    apply (h.routed quote part).bind
    rintro ⟨_, P⟩ ⟨_, P'⟩ ⟨-, hparts, -⟩
    change Alike _ (writtenParts P part) (writtenParts P' part)
    unfold writtenParts
    rw [hparts]
    exact Alike.of_eq fun _ _ => rfl
  process part := by
    apply (h.routed quote part).bind
    rintro ⟨name, P⟩ ⟨_, P'⟩ ⟨rfl, -, hcalls⟩
    apply (hcalls part).bind
    rintro v w ⟨hv, hw, hvw⟩
    rw [onValue_eq, onValue_eq]
    have hclean : (PyValue.dict [(name, v.bare)]).Clean := PyValue.Clean.dict (by simpa using hv)
    rw [← hvw]
    exact Alike.ok (sameBare_of_bare hclean (hclean.bare_withCaught _) (hclean.bare_withCaught _))
  empty := Alike.ok ⟨rfl, PyValue.Clean.dict fun _ h => absurd h List.not_mem_nil⟩
  combine := warnedCombine_alike (collatedCombine_same quote h.combines)
  combine_clean := warnedCombine_clean (collatedCombine_same quote h.combines)
  caught hv hw hu := warnedCombine_caught (collatedCombine_same quote h.combines) hv hw hu
  truthy := rfl
  finalize := by
    rintro v w ⟨hv, -, hvw⟩ fn hfn fn' hfn'
    obtain rfl := Option.some.inj hfn
    obtain rfl := Option.some.inj hfn'
    have hfinalizers := h.finalizers
    generalize c.fixed.filterMap (fun p => p.2.finalize.map (p.1, ·)) = fs at hfinalizers ⊢
    generalize d.fixed.filterMap (fun p => p.2.finalize.map (p.1, ·)) = gs at hfinalizers ⊢
    cases hfinalizers with
    | nil => exact congrArg Except.ok hvw
    | cons hxy hrest =>
        change (CollatedFinalize _).call v.bare = (CollatedFinalize _).call w.bare
        rw [← hvw]
        exact collatedFinalize_same (List.Forall₂.cons hxy hrest) hv
  plain := by
    rintro ⟨⟩

end Loop

theorem refuseSharedParts_congr {P P' : Process α} (h : P.partPaths = P'.partPaths)
    (tasks : List Task) : refuseSharedParts quote P tasks = refuseSharedParts quote P' tasks := by
  unfold refuseSharedParts writtenParts
  rw [h]

/-- Mappings of tied plans collate alike. -/
theorem collate_alike [DecidableEq σ] {xs ys : List (String × GivenPlan α σ)}
    (h : List.Forall₂ TiedGiven xs ys) :
    Alike (Tied fun v => v.bare.Clean) (Graphed.collate quote xs) (Graphed.collate quote ys) := by
  unfold Graphed.collate
  have hnil : xs = [] ↔ ys = [] := by
    rw [← List.length_eq_zero_iff, h.length_eq, List.length_eq_zero_iff]
  by_cases hempty : xs = []
  · rw [if_pos hempty, if_pos (hnil.mp hempty)]
    exact Alike.error _
  · rw [if_neg hempty, if_neg fun hys => hempty (hnil.mpr hys)]
    have hservices := Alike.foldlM (R := Eq) (f := declare quote) (g := declare quote) h
      (fun x y hxy s s' hs => by
        subst hs
        rw [declare_alike quote hxy s]
        exact Alike.of_eq fun _ _ => rfl) (rfl : ([] : List (ServiceSpec σ)) = [])
    apply hservices.bind
    rintro services _ rfl
    have hloop := Alike.foldlM (R := TiedLoop) (f := addPlan quote) (g := addPlan quote) h
      (fun x y hxy c d hcd => addPlan_alike quote hxy hcd)
      (⟨rfl, rfl, List.Forall₂.nil⟩ : TiedLoop (⟨[], [], []⟩ : Collating α σ) ⟨[], [], []⟩)
    apply hloop.bind
    intro c d hcd
    have htied := hcd.tied quote services
    have hparts : refuseSharedParts quote (c.plan quote services).process c.tasks =
        refuseSharedParts quote (d.plan quote services).process d.tasks := by
      rw [hcd.tasks]
      exact refuseSharedParts_congr quote htied.partPaths d.tasks
    change Alike _ (refuseSharedParts quote (c.plan quote services).process c.tasks >>= _)
      (refuseSharedParts quote (d.plan quote services).process d.tasks >>= _)
    rw [hparts]
    cases refuseSharedParts quote (d.plan quote services).process d.tasks with
    | error e => exact Alike.error e
    | ok _ => exact Alike.ok htied

end Collate

/-! ### Outlines -/

section Outline

variable [DecidableEq σ] (carried : String → String) (quote : String → String)

omit [DecidableEq σ] in
/-- What partials of the outline's plan are: only a plan put together by hand carries nothing. -/
def Outline.Good : Outline α σ → PyValue α → Prop
  | hand _ => PyValue.Clean
  | _ => fun v => v.bare.Clean

/-- **The plans of an outline and of its revision are tied.** -/
theorem Outline.revise_alike {f : Functions α → Functions α}
    (hf : ∀ own : Functions α, own.SameOnClean (f own))
    (g : (Partition → Heard) → Partition → Heard) (o : Outline α σ) :
    Alike (Tied o.Good) (o.build carried quote) ((o.revise f g).build carried quote) := by
  induction o with
  | aggregate a =>
      have htied := Aggregation.tied carried hf a (g a.caught)
      have hparts := refuseSharedParts_congr quote htied.partPaths (a.plan carried).tasks
      change Alike _ (refuseSharedParts quote (a.plan carried).process (a.plan carried).tasks >>= _)
        (refuseSharedParts quote _ (a.plan carried).tasks >>= _)
      rw [← hparts]
      cases refuseSharedParts quote (a.plan carried).process (a.plan carried).tasks with
      | error e => exact Alike.error e
      | ok _ => exact Alike.ok htied
  | hand p => exact Alike.ok (HandPlan.tied hf p)
  | collate names distinct plans ih =>
      have hbuilt := Alike.mapM (R := TiedGiven)
        (f := fun name => ((plans name).build carried quote).map fun p => (name, GivenPlan.plan p))
        (g := fun name => (((plans name).revise f g).build carried quote).map fun p =>
          (name, GivenPlan.plan p))
        (List.forall₂_same.mpr fun name (_ : name ∈ names) => rfl) (by
          rintro name _ rfl
          apply (ih name).map
          rintro p q htied
          exact ⟨rfl, p, q, rfl, rfl, _, htied⟩)
      apply hbuilt.bind
      intro xs ys hxy
      exact collate_alike quote hxy

end Outline

/-! ### Runs of tied plans -/

/-- Reducing partials of two plans in one tree, their parts alike. -/
theorem Reduction.reduce_alike {V W R S : Type} {good : V → W → Prop} {p : Plan V R} {q : Plan W S}
    (hempty : Alike good p.empty q.empty)
    (htask : ∀ part, Alike good (p.process part) (q.process part))
    (hcombine : ∀ v w v' w', good v v' → good w w' → Alike good (p.combine v w) (q.combine v' w'))
    (tree : Reduction) : Alike good (tree.reduce p) (tree.reduce q) := by
  induction tree with
  | empty => exact hempty
  | task t => exact htask t.partition
  | merge left right ihl ihr =>
      exact ihl.bind fun v v' hv => ihr.bind fun w w' hw => hcombine v w v' w' hv hw

section Runs

variable {good : PyValue α → Prop} {p q : TaskPlan α σ}

theorem Tied.empty_same (h : Tied good p q) : Alike (SameBare good) p.empty q.empty := by
  refine h.empty.mono ?_
  rintro v _ - - ⟨rfl, hv⟩
  have hgood := h.good_of_clean hv
  exact ⟨hgood, hgood, rfl⟩

/-- Plain partials under `skip_failed`, and their failures. -/
def SamePartial (good : PyValue α → Prop) (a b : Partial (PyValue α)) : Prop :=
  SameBare good a.value b.value ∧ a.failed = b.failed

/-- Plain partials, as a plan that is handed to a runner has them. -/
def SamePlain (good : PyValue α → Prop) (a b : Plain (PyValue α)) : Prop :=
  SameBare good a.value b.value

section Given

variable (h : Tied good p q)

include h

theorem Tied.given_empty : Alike (SamePlain good) p.given.empty q.given.empty :=
  h.empty_same.map fun _ _ hvw => hvw

theorem Tied.given_process (part : Partition) :
    Alike (SamePlain good) (p.given.process part) (q.given.process part) :=
  (h.process part).map fun _ _ hvw => hvw

theorem Tied.given_combine (a b a' b' : Plain (PyValue α)) (ha : SamePlain good a a')
    (hb : SamePlain good b b') :
    Alike (SamePlain good) (p.given.combine a b) (q.given.combine a' b') :=
  (h.combine ha hb).map fun _ _ hvw => hvw

/-- Reducing in a tree. -/
theorem Tied.reduce_plain (tree : Reduction) :
    Alike (SamePlain good) (tree.reduce p.given) (tree.reduce q.given) :=
  tree.reduce_alike h.given_empty h.given_process h.given_combine

variable {sp sq : SkipPlan (PyValue α)} (hp : sp.base = p.given) (hq : sq.base = q.given)
  (hlost : sp.lost = sq.lost)

include hp hq

theorem Tied.skip_missing (failed : FailedChunk) :
    Alike (SamePartial good) (sp.missing failed) (sq.missing failed) := by
  unfold SkipPlan.missing
  rw [hp, hq]
  exact h.given_empty.map fun _ _ hvw => ⟨hvw, rfl⟩

include hlost

theorem Tied.skip_process (part : Partition) :
    Alike (SamePartial good) (sp.process part) (sq.process part) := by
  have hpair := h.given_process part
  unfold SkipPlan.process
  rw [← hlost]
  cases sp.lost.lookup (chunkLabel part) with
  | some failed => exact h.skip_missing hp hq failed
  | none =>
      dsimp only
      rw [hp, hq]
      generalize p.given.process part = x at hpair ⊢
      generalize q.given.process part = y at hpair ⊢
      cases hpair with
      | ok hvw => exact Alike.ok ⟨hvw, rfl⟩
      | error e =>
          dsimp only
          split
          · exact h.skip_missing hp hq _
          · exact Alike.error e

theorem Tied.reduce_skip (hbudget : sp.budget = sq.budget) (tree : Reduction) :
    Alike (SamePartial good) (tree.reduce sp.plan) (tree.reduce sq.plan) := by
  apply tree.reduce_alike
  · change Alike _ (sp.base.empty.map _) (sq.base.empty.map _)
    rw [hp, hq]
    exact h.given_empty.map fun _ _ hvw => ⟨hvw, rfl⟩
  · exact h.skip_process hp hq hlost
  · rintro a b a' b' ⟨hvalue, hfailed⟩ ⟨hvalue', hfailed'⟩
    change Alike _ (sp.combine a b) (sq.combine a' b')
    unfold SkipPlan.combine
    rw [← hfailed, ← hfailed', ← hbudget, hp, hq]
    split
    · exact Alike.error _
    · exact (h.given_combine ⟨a.value⟩ ⟨b.value⟩ ⟨a'.value⟩ ⟨b'.value⟩ hvalue hvalue').map
        fun _ _ hvw => ⟨hvw, rfl⟩

end Given

/-- Ending results that are the same but for what they carry. -/
theorem Tied.finalizeResult_eq (h : Tied good p q) {V : Type} [Partials V (PyValue α)]
    {plan plan' : Plan V (PyValue α)} (hplan : plan.finalize = p.finalize.map (·.call))
    (hplan' : plan'.finalize = q.finalize.map (·.call)) {v v' : V}
    (hvalue : SameBare good (Partials.value v) (Partials.value v'))
    (hfailed : (Partials.failed v : List FailedChunk) = Partials.failed v') (n m : Nat) :
    finalizeResult plan ⟨v, n, m, none, []⟩ = finalizeResult plan' ⟨v', n, m, none, []⟩ := by
  have htruthy := h.truthy
  unfold finalizeResult
  rw [hplan, hplan']
  dsimp only
  rw [hfailed]
  cases hp : p.finalize <;> cases hq : q.finalize <;> rw [hp, hq] at htruthy
  · obtain ⟨hv, hv', hvv⟩ := hvalue
    rw [(h.plain hp hv).bare_eq, (h.plain hp hv').bare_eq] at hvv
    exact congrArg (fun value => Except.ok (ExecResult.mk value n m none _)) hvv
  · cases htruthy
  · cases htruthy
  · rename_i fn fn'
    exact congrArg (Except.map _) (h.finalize hvalue fn hp fn' hq)

/-- Two plans as a runner goes by them, over plans that are tied. -/
inductive TiedAny (p q : TaskPlan α σ) : AnyPlan (PyValue α) → AnyPlan (PyValue α) → Prop
  | plain : TiedAny p q (.plain p.given) (.plain q.given)
  | skip {sp sq : SkipPlan (PyValue α)} (hp : sp.base = p.given) (hq : sq.base = q.given)
      (budget : sp.budget = sq.budget) (lost : sp.lost = sq.lost) :
      TiedAny p q (.skip sp) (.skip sq)

theorem Tied.ends_eq (h : Tied good p q) {plan plan' : AnyPlan (PyValue α)}
    (hplan : TiedAny p q plan plan') (tree : Reduction) : plan.ends tree = plan'.ends tree := by
  apply Alike.eq
  cases hplan with
  | plain =>
      apply (h.reduce_plain tree).bind
      intro v v' hvalue
      have hends : ∀ n m, finalizeResult p.given ⟨v, n, m, none, []⟩ =
          finalizeResult q.given ⟨v', n, m, none, []⟩ :=
        h.finalizeResult_eq rfl rfl hvalue rfl
      rw [hends]
      exact Alike.of_eq fun _ _ => rfl
  | @skip sp sq hp hq hbudget hlost =>
      apply (h.reduce_skip hp hq hlost hbudget tree).bind
      rintro v v' ⟨hvalue, hfailed⟩
      have hends : ∀ n m, finalizeResult sp.plan ⟨v, n, m, none, []⟩ =
          finalizeResult sq.plan ⟨v', n, m, none, []⟩ := by
        apply h.finalizeResult_eq
        · exact congrArg Plan.finalize hp
        · exact congrArg Plan.finalize hq
        · exact hvalue
        · exact hfailed
      rw [hends]
      exact Alike.of_eq fun _ _ => rfl

theorem Tied.skipping_alike (h : Tied good p q) (skipFailed : Int) :
    Alike (TiedAny p q) (skipping (.plain p.given) skipFailed)
      (skipping (.plain q.given) skipFailed) := by
  have hbudget : (AnyPlan.plain p.given).budget skipFailed =
      (AnyPlan.plain q.given).budget skipFailed := by
    change (if _ then _ else p.stop.bind _) = (if _ then _ else q.stop.bind _)
    rw [h.stop]
  unfold skipping
  rw [← hbudget]
  cases (AnyPlan.plain p.given).budget skipFailed with
  | none => exact Alike.ok TiedAny.plain
  | some budget =>
      dsimp only
      split
      · exact Alike.error _
      · by_cases hpos : 0 < budget
        · rw [dif_pos hpos, dif_pos hpos]
          exact Alike.ok (TiedAny.skip rfl rfl rfl rfl)
        · rw [dif_neg hpos, dif_neg hpos]
          exact Alike.ok TiedAny.plain

theorem Tied.withoutLost_alike (h : Tied good p q) {plan plan' : AnyPlan (PyValue α)}
    (hplan : TiedAny p q plan plan') (err : Raised) :
    Alike (fun sp sq => TiedAny p q (.skip sp) (.skip sq)) (withoutLost plan err)
      (withoutLost plan' err) := by
  cases hplan with
  | plain => exact Alike.error err
  | @skip sp sq hp hq hbudget hlost =>
      have hnext : sp.base.hasNextTasks = sq.base.hasNextTasks := by
        rw [hp, hq]
        exact h.hasNextTasks
      have htasks : sp.base.tasks = sq.base.tasks := by
        rw [hp, hq]
        exact h.tasks
      have hwith : ∀ part, sp.lostWith part err = sq.lostWith part err := by
        intro part
        unfold SkipPlan.lostWith
        rw [hlost]
      have hleft : ∀ label, sp.budgetWithout label = sq.budgetWithout label := by
        intro label
        unfold SkipPlan.budgetWithout
        rw [hlost, hbudget]
      unfold withoutLost
      dsimp only
      rw [← hnext, ← htasks]
      split
      · exact Alike.error err
      · cases partOf sp.base.tasks err.partition with
        | none => exact Alike.error err
        | some part =>
            dsimp only
            by_cases hwithin : (sp.lostWith part err).length ≤ sp.budgetWithout (chunkLabel part)
            · have hwithin' : (sq.lostWith part err).length ≤
                  sq.budgetWithout (chunkLabel part) := by
                rw [← hwith, ← hleft]
                exact hwithin
              rw [dif_pos hwithin, dif_pos hwithin']
              exact Alike.ok (TiedAny.skip hp hq (hleft _) (hwith _))
            · have hwithin' : ¬ (sq.lostWith part err).length ≤
                  sq.budgetWithout (chunkLabel part) := by
                rw [← hwith, ← hleft]
                exact hwithin
              rw [dif_neg hwithin, dif_neg hwithin', hwith]
              exact Alike.error _

theorem Tied.prepared_alike (h : Tied good p q) (skipFailed : Int) (lost : List Raised) :
    Alike (TiedAny p q) (p.prepared skipFailed lost) (q.prepared skipFailed lost) := by
  apply (h.skipping_alike skipFailed).bind
  intro plan plan' hplan
  apply Alike.foldlM (List.forall₂_same.mpr fun err (_ : err ∈ lost) => rfl)
  · rintro err _ rfl plan plan' hplan
    exact (h.withoutLost_alike hplan err).map fun _ _ hsp => hsp
  · exact hplan

/-- **Tied plans run alike.** -/
theorem Tied.ran_eq (h : Tied good p q) (skipFailed : Int) (lost : List Raised)
    (tree : Reduction) : p.ran skipFailed lost tree = q.ran skipFailed lost tree := by
  apply Alike.eq
  apply (h.prepared_alike skipFailed lost).bind
  intro plan plan' hplan
  rw [h.ends_eq hplan tree]
  exact Alike.of_eq fun _ _ => rfl

end Runs

end Graphed
