import Graphed.Execution.Collate

/-!
# What `collate` accepts

`collate` raises just when a service has two specs, a plan has no fixed tasks, two plans hold one
file's tree, or a part would be written twice. What it accepts it routes to the plan that listed it.
-/

namespace Graphed

variable {α σ : Type}

theorem mem_ordered {p : TaskPlan α σ} {t : Task} : t ∈ p.ordered ↔ t ∈ p.tasks :=
  (List.perm_insertionSort (fun a b : Task => a.key ≤ b.key) p.tasks).mem_iff

theorem dictItem_ok {κ ν : Type} [BEq κ] {items : List (κ × ν)} {key : κ} {v : ν} {text : String}
    (h : items.lookup key = some v) : dictItem items key text = .ok v := by
  unfold dictItem
  rw [h]

/-! ### Refusals -/

namespace GivenPlan

/-- The plan runs in one stage, is not adaptive and cannot stop early. -/
def Fixed : GivenPlan α σ → Prop
  | plan p => p.hasNextTasks = false ∧ p.stop = none
  | staged _ => False

/-- The tasks in key order. -/
def ordered : GivenPlan α σ → List Task
  | plan p => p.ordered
  | staged _ => []

/-- The parts the plan says it writes, task by task. -/
def written : GivenPlan α σ → List (Except Raised (List String))
  | plan p => p.ordered.map fun t => writtenParts p.process t.partition
  | staged _ => []

end GivenPlan

/-- A service by one name has two specs. -/
def TwoSpecs (plans : List (String × GivenPlan α σ)) : Prop :=
  ∃ x ∈ plans.flatMap (·.2.services), ∃ y ∈ plans.flatMap (·.2.services),
    x.name = y.name ∧ x ≠ y

/-- Two plans hold a file's tree. -/
def SharedFile (plans : List (String × GivenPlan α σ)) : Prop :=
  ∃ x ∈ plans, ∃ y ∈ plans, x.1 ≠ y.1 ∧ ∃ t ∈ x.2.ordered, ∃ u ∈ y.2.ordered,
    t.partition.fileTree = u.partition.fileTree

/-- A process does not say which parts it writes, but raises. -/
def HookRaises (plans : List (String × GivenPlan α σ)) : Prop :=
  ∃ e, .error e ∈ plans.flatMap (·.2.written)

/-- A part would be written twice. -/
def PartTwice (plans : List (String × GivenPlan α σ)) : Prop :=
  ∃ paths : List (List String), plans.flatMap (·.2.written) = paths.map .ok ∧
    ¬ (paths.flatten.map normpath).Nodup

/-! ### Services -/

section Services

variable [DecidableEq σ] (quote : String → String)

/-- No two specs of one name. -/
def OneSpec (specs : List (ServiceSpec σ)) : Prop :=
  ∀ x ∈ specs, ∀ y ∈ specs, x.name = y.name → x = y

omit [DecidableEq σ] in
theorem OneSpec.append {specs : List (ServiceSpec σ)} {spec : ServiceSpec σ} :
    OneSpec (specs ++ [spec]) ↔ OneSpec specs ∧ ∀ x ∈ specs, x.name = spec.name → x = spec := by
  constructor
  · intro h
    refine ⟨fun x hx y hy => h x (List.mem_append_left _ hx) y (List.mem_append_left _ hy), ?_⟩
    exact fun x hx => h x (List.mem_append_left _ hx) spec (by simp)
  · rintro ⟨hold, hnew⟩ x hx y hy hname
    rw [List.mem_append, List.mem_singleton] at hx hy
    rcases hx with hx | rfl <;> rcases hy with hy | rfl
    · exact hold x hx y hy hname
    · exact hnew x hx hname
    · exact (hnew y hy hname.symm).symm
    · rfl

theorem declareSpec_guarded {services : List (ServiceSpec σ)}
    {specs : List (String × ServiceSpec σ)} {x : String × ServiceSpec σ}
    (h : ∀ y, y ∈ services ↔ y ∈ specs.map Prod.snd) (hone : OneSpec (specs.map Prod.snd)) :
    ((∃ s', declareSpec quote x.1 services x.2 = .ok s') ↔
        OneSpec ((specs ++ [x]).map Prod.snd)) ∧
      ∀ s', declareSpec quote x.1 services x.2 = .ok s' →
        ∀ y, y ∈ s' ↔ y ∈ (specs ++ [x]).map Prod.snd := by
  rw [List.map_append, List.map_singleton, OneSpec.append]
  unfold declareSpec
  cases hfind : services.find? (·.name = x.2.name) with
  | none =>
      have hnone := List.find?_eq_none.mp hfind
      refine ⟨⟨fun _ => ⟨hone, ?_⟩, fun _ => ⟨_, rfl⟩⟩, ?_⟩
      · intro y hy hname
        exact absurd (decide_eq_true hname) (hnone y ((h y).mpr hy))
      · intro s' hs' y
        obtain rfl := Except.ok.inj hs'
        rw [List.mem_append, List.mem_append, h]
  | some other =>
      have hname : other.name = x.2.name := by simpa using List.find?_some hfind
      have hother := (h other).mp (List.mem_of_find?_eq_some hfind)
      dsimp only
      split
      · rename_i heq
        refine ⟨⟨fun _ => ⟨hone, ?_⟩, fun _ => ⟨_, rfl⟩⟩, ?_⟩
        · intro y hy hy'
          rw [← heq]
          exact hone y hy other hother (hy'.trans hname.symm)
        · intro s' hs' y
          obtain rfl := Except.ok.inj hs'
          rw [List.mem_append, h, List.mem_singleton]
          constructor
          · exact Or.inl
          · rintro (hy | rfl)
            · exact hy
            · exact heq ▸ hother
      · rename_i hne
        refine ⟨⟨?_, ?_⟩, ?_⟩
        · rintro ⟨s', hs'⟩
          cases hs'
        · rintro ⟨-, hall⟩
          exact absurd (hall other hother hname) hne
        · intro s' hs'
          cases hs'

/-- Services are declared just when none has two specs. -/
theorem declare_ok {plans : List (String × GivenPlan α σ)} :
    (∃ services, plans.foldlM (declare quote) [] = .ok services) ↔ ¬ TwoSpecs plans := by
  have hflat : plans.foldlM (declare quote) [] =
      (plans.flatMap fun e => e.2.services.map (e.1, ·)).foldlM
        (fun services x => declareSpec quote x.1 services x.2) [] := by
    generalize ([] : List (ServiceSpec σ)) = services
    induction plans generalizing services with
    | nil => rfl
    | cons e plans ih =>
        rw [List.foldlM_cons, List.flatMap_cons, List.foldlM_append, List.foldlM_map]
        exact bind_congr ih
  have hprefix : ∀ xs ys : List (String × ServiceSpec σ), OneSpec ((xs ++ ys).map Prod.snd) →
      OneSpec (xs.map Prod.snd) := by
    intro xs ys h x hx y hy
    rw [List.map_append] at h
    exact h x (List.mem_append_left _ hx) y (List.mem_append_left _ hy)
  have hguarded := (foldlM_guarded (fun services x => declareSpec quote x.1 services x.2)
    (fun services specs => ∀ y, y ∈ services ↔ y ∈ specs.map Prod.snd)
    (fun specs => OneSpec (specs.map Prod.snd)) hprefix
    (fun s done x hs hdone => declareSpec_guarded quote hs hdone) (s := []) (d := [])
    (fun y => Iff.rfl) (fun x hx => by cases hx)
    (plans.flatMap fun e => e.2.services.map (e.1, ·))).1
  have hspecs : (plans.flatMap fun e => e.2.services.map (e.1, ·)).map Prod.snd =
      plans.flatMap (·.2.services) := by
    rw [List.map_flatMap]
    congr 1
    funext e
    rw [List.map_map]
    exact List.map_id _
  rw [List.nil_append, hspecs] at hguarded
  rw [hflat, hguarded]
  unfold OneSpec TwoSpecs
  push Not
  rfl

end Services

/-! ### Tasks -/

section Tasks

variable (quote : String → String) {name : String} {c c' : Collating α σ}
  {entries : List (String × Task)}

/-- Tasks of one file's tree are of one plan. -/
def OneOwner (entries : List (String × Task)) : Prop :=
  ∀ x ∈ entries, ∀ y ∈ entries, x.2.partition.fileTree = y.2.partition.fileTree → x.1 = y.1

/-- The loop has taken these tasks. -/
structure Takes (c : Collating α σ) (entries : List (String × Task)) : Prop where
  tasks : c.tasks = entries.mapIdx fun i x => ⟨i, x.2.partition⟩
  route : ∀ key, c.route.lookup key =
    (entries.find? fun x => x.2.partition.fileTree = key).map Prod.fst

theorem OneOwner.of_append {xs ys : List (String × Task)} (h : OneOwner (xs ++ ys)) :
    OneOwner xs :=
  fun x hx y hy => h x (List.mem_append_left _ hx) y (List.mem_append_left _ hy)

theorem OneOwner.append {x : String × Task} : OneOwner (entries ++ [x]) ↔
    OneOwner entries ∧
      ∀ y ∈ entries, y.2.partition.fileTree = x.2.partition.fileTree → y.1 = x.1 := by
  constructor
  · intro h
    exact ⟨h.of_append, fun y hy => h y (List.mem_append_left _ hy) x (by simp)⟩
  · rintro ⟨hold, hnew⟩ y hy z hz hkey
    rw [List.mem_append, List.mem_singleton] at hy hz
    rcases hy with hy | rfl <;> rcases hz with hz | rfl
    · exact hold y hy z hz hkey
    · exact hnew y hy hkey
    · exact (hnew z hz hkey.symm).symm
    · rfl

/-- The routes with one more task. -/
theorem Takes.add (h : Takes c entries) (x : String × Task) :
    Takes (⟨if (c.route.lookup x.2.partition.fileTree).isNone then
        c.route ++ [(x.2.partition.fileTree, x.1)] else c.route,
      c.tasks ++ [⟨c.tasks.length, x.2.partition⟩], c.fixed⟩ : Collating α σ)
      (entries ++ [x]) := by
  refine ⟨?_, ?_⟩
  · rw [List.mapIdx_append, h.tasks, List.length_mapIdx]
    simp
  · intro key
    dsimp only
    rw [List.find?_append, Option.map_or, ← h.route]
    by_cases hkey : key = x.2.partition.fileTree
    · subst hkey
      cases hlook : c.route.lookup x.2.partition.fileTree with
      | none =>
          rw [Option.isNone_none, if_pos rfl, List.lookup_append, hlook]
          simp
      | some owner =>
          rw [Option.isNone_some, if_neg Bool.false_ne_true, hlook, Option.some_or]
    · have hmiss : [x].find? (fun x => x.2.partition.fileTree = key) = none := by
        simp [Ne.symm hkey]
      rw [hmiss, Option.map_none, Option.or_none]
      split
      · have hne : (key == x.2.partition.fileTree) = false := by simpa using hkey
        rw [List.lookup_append, List.lookup_cons, hne]
        exact Option.or_none
      · rfl

theorem addTask_guarded {x : String × Task} (h : Takes c entries) (hone : OneOwner entries) :
    ((∃ c', addTask quote x.1 c x.2 = .ok c') ↔ OneOwner (entries ++ [x])) ∧
      ∀ c', addTask quote x.1 c x.2 = .ok c' → Takes c' (entries ++ [x]) := by
  have howner : (c.route.lookup x.2.partition.fileTree).getD x.1 = x.1 ↔
      ∀ y ∈ entries, y.2.partition.fileTree = x.2.partition.fileTree → y.1 = x.1 := by
    rw [h.route]
    cases hfind : entries.find? fun y => y.2.partition.fileTree = x.2.partition.fileTree with
    | none =>
        have hnone := List.find?_eq_none.mp hfind
        refine ⟨fun _ y hy hkey => ?_, fun _ => rfl⟩
        exact absurd (decide_eq_true hkey) (hnone y hy)
    | some z =>
        have hz : z.2.partition.fileTree = x.2.partition.fileTree := by
          simpa using List.find?_some hfind
        have hmem := List.mem_of_find?_eq_some hfind
        change z.1 = x.1 ↔ _
        constructor
        · intro hname y hy hkey
          exact (hone y hy z hmem (hkey.trans hz.symm)).trans hname
        · intro hall
          exact hall z hmem hz
  rw [OneOwner.append]
  unfold addTask
  dsimp only
  by_cases hname : (c.route.lookup x.2.partition.fileTree).getD x.1 = x.1
  · rw [if_neg (not_not.mpr hname)]
    refine ⟨⟨fun _ => ⟨hone, howner.mp hname⟩, fun _ => ⟨_, rfl⟩⟩, ?_⟩
    intro c' hc'
    obtain rfl := Except.ok.inj hc'
    exact h.add x
  · rw [if_pos hname]
    refine ⟨⟨?_, fun hall => absurd (howner.mpr hall.2) hname⟩, ?_⟩
    · rintro ⟨c', hc'⟩
      cases hc'
    · intro c' hc'
      cases hc'

theorem addTask_fixed {t : Task} (h : addTask quote name c t = .ok c') : c'.fixed = c.fixed := by
  unfold addTask at h
  dsimp only at h
  split at h
  · cases h
  · obtain rfl := Except.ok.inj h
    rfl

theorem addTasks_fixed {tasks : List Task} (h : tasks.foldlM (addTask quote name) c = .ok c') :
    c'.fixed = c.fixed := by
  induction tasks generalizing c with
  | nil =>
      obtain rfl := Except.ok.inj h
      rfl
  | cons t tasks ih =>
      rw [List.foldlM_cons] at h
      obtain ⟨mid, hmid, h⟩ := ok_of_bind.mp h
      exact (ih h).trans (addTask_fixed quote hmid)

/-- The plan's tasks, under its name. -/
def entriesOf (plan : String × GivenPlan α σ) : List (String × Task) :=
  plan.2.ordered.map (plan.1, ·)

/-- The plan itself, when it has fixed tasks. -/
def fixedOf : String × GivenPlan α σ → Option (String × TaskPlan α σ)
  | (name, .plan p) => some (name, p)
  | (_, .staged _) => none

theorem addPlan_guarded {plans : List (String × GivenPlan α σ)} {plan : String × GivenPlan α σ}
    (h : Takes c (plans.flatMap entriesOf) ∧ c.fixed = plans.filterMap fixedOf)
    (hfine : (∀ e ∈ plans, e.2.Fixed) ∧ OneOwner (plans.flatMap entriesOf)) :
    ((∃ c', addPlan quote c plan = .ok c') ↔
        (∀ e ∈ plans ++ [plan], e.2.Fixed) ∧ OneOwner ((plans ++ [plan]).flatMap entriesOf)) ∧
      ∀ c', addPlan quote c plan = .ok c' →
        Takes c' ((plans ++ [plan]).flatMap entriesOf) ∧
          c'.fixed = (plans ++ [plan]).filterMap fixedOf := by
  obtain ⟨htakes, hfixed⟩ := h
  obtain ⟨name, plan⟩ := plan
  have hfixedAll : (∀ e ∈ plans ++ [(name, plan)], e.2.Fixed) ↔ plan.Fixed := by
    constructor
    · exact fun hall => hall (name, plan) (by simp)
    · intro hplan e he
      rw [List.mem_append, List.mem_singleton] at he
      rcases he with he | rfl
      · exact hfine.1 e he
      · exact hplan
  rw [hfixedAll, List.flatMap_append, List.flatMap_singleton, List.filterMap_append]
  unfold addPlan
  cases plan with
  | staged services =>
      refine ⟨⟨?_, fun hall => hall.1.elim⟩, ?_⟩
      · rintro ⟨c', hc'⟩
        cases hc'
      · intro c' hc'
        cases hc'
  | plan p =>
      dsimp only
      by_cases hadaptive : p.hasNextTasks = true ∨ p.stop.isSome = true
      · rw [if_pos hadaptive]
        refine ⟨⟨?_, ?_⟩, ?_⟩
        · rintro ⟨c', hc'⟩
          cases hc'
        · rintro ⟨⟨hnext, hstop⟩, -⟩
          rcases hadaptive with hadaptive | hadaptive
          · rw [hnext] at hadaptive
            cases hadaptive
          · rw [hstop] at hadaptive
            cases hadaptive
        · intro c' hc'
          cases hc'
      · rw [if_neg hadaptive]
        have hplan : (GivenPlan.plan p).Fixed := by
          rw [not_or, Bool.not_eq_true, Option.not_isSome_iff_eq_none] at hadaptive
          exact hadaptive
        have hstart : Takes ({ c with fixed := c.fixed ++ [(name, p)] } : Collating α σ)
            (plans.flatMap entriesOf) := ⟨htakes.tasks, htakes.route⟩
        have hguarded := foldlM_guarded (fun c x => addTask quote x.1 c x.2) Takes OneOwner
          (fun _ _ hall => hall.of_append)
          (fun _ _ _ hs hone => addTask_guarded quote hs hone) hstart hfine.2
          (entriesOf (name, .plan p))
        unfold entriesOf at hguarded
        rw [List.foldlM_map] at hguarded
        refine ⟨⟨fun hok => ⟨hplan, hguarded.1.mp hok⟩, fun hall => hguarded.1.mpr hall.2⟩, ?_⟩
        intro c' hc'
        refine ⟨hguarded.2 c' hc', ?_⟩
        rw [addTasks_fixed quote hc', hfixed]
        rfl

/-- The loop over the plans succeeds just when each has fixed tasks, in files of its own. -/
theorem addPlans_ok {plans : List (String × GivenPlan α σ)} :
    ((∃ c, plans.foldlM (addPlan quote) ⟨[], [], []⟩ = .ok c) ↔
        (∀ e ∈ plans, e.2.Fixed) ∧ OneOwner (plans.flatMap entriesOf)) ∧
      ∀ c, plans.foldlM (addPlan quote) ⟨[], [], []⟩ = .ok c →
        Takes c (plans.flatMap entriesOf) ∧ c.fixed = plans.filterMap fixedOf := by
  have hnone : OneOwner [] := by
    intro x hx
    cases hx
  refine foldlM_guarded (addPlan quote)
    (fun c plans => Takes c (plans.flatMap entriesOf) ∧ c.fixed = plans.filterMap fixedOf)
    (fun plans => (∀ e ∈ plans, e.2.Fixed) ∧ OneOwner (plans.flatMap entriesOf)) ?_ ?_
    (d := []) ⟨⟨rfl, fun _ => rfl⟩, rfl⟩ 
    ⟨fun _ he => absurd he List.not_mem_nil, hnone⟩ plans
  · rintro xs ys ⟨hfixed, hone⟩
    rw [List.flatMap_append] at hone
    exact ⟨fun e he => hfixed e (List.mem_append_left _ he), hone.of_append⟩
  · exact fun c plans plan hc hfine => addPlan_guarded quote hc hfine

end Tasks

/-! ### Parts -/

section Parts

variable (quote : String → String) {process : Process α}

theorem seePart_guarded {seen paths : List String} {path : String}
    (h : seen = paths.map normpath) (hnodup : (paths.map normpath).Nodup) :
    ((∃ s', seePart quote seen path = .ok s') ↔ ((paths ++ [path]).map normpath).Nodup) ∧
      ∀ s', seePart quote seen path = .ok s' → s' = (paths ++ [path]).map normpath := by
  subst h
  rw [List.map_append, List.map_singleton, List.nodup_append_comm, List.singleton_append,
    List.nodup_cons]
  unfold seePart
  split
  · rename_i hmem
    refine ⟨⟨?_, fun hall => absurd hmem hall.1⟩, ?_⟩
    · rintro ⟨s', hs'⟩
      cases hs'
    · intro s' hs'
      cases hs'
  · rename_i hmem
    refine ⟨⟨fun _ => ⟨hmem, hnodup⟩, fun _ => ⟨_, rfl⟩⟩, ?_⟩
    intro s' hs'
    exact (Except.ok.inj hs').symm

theorem seeParts_guarded {paths : List String} (hnodup : (paths.map normpath).Nodup)
    (more : List String) :
    ((∃ s', more.foldlM (seePart quote) (paths.map normpath) = .ok s') ↔
        ((paths ++ more).map normpath).Nodup) ∧
      ∀ s', more.foldlM (seePart quote) (paths.map normpath) = .ok s' →
        s' = (paths ++ more).map normpath := by
  refine foldlM_guarded (seePart quote) (fun seen paths => seen = paths.map normpath)
    (fun paths => (paths.map normpath).Nodup) ?_ ?_ rfl hnodup more
  · intro xs ys h
    rw [List.map_append] at h
    exact (List.nodup_append.mp h).1
  · exact fun s paths path hs hone => seePart_guarded quote hs hone

/-- The parts the tasks say they write are all different. -/
def Apart (process : Process α) (tasks : List Task) : Prop :=
  ∃ paths : List (List String),
    (tasks.map fun t => writtenParts process t.partition) = paths.map .ok ∧
      (paths.flatten.map normpath).Nodup

theorem refuseSharedParts_ok {tasks : List Task} :
    (∃ u, refuseSharedParts quote process tasks = .ok u) ↔ Apart process tasks := by
  have hguarded := foldlM_guarded (fun seen (t : Task) => do
      let paths ← writtenParts process t.partition
      paths.foldlM (seePart quote) seen)
    (fun seen tasks => ∃ paths : List (List String),
      (tasks.map fun t => writtenParts process t.partition) = paths.map .ok ∧
        seen = paths.flatten.map normpath)
    (Apart process) ?_ ?_ (s := []) (d := []) ⟨[], rfl, rfl⟩ ⟨[], rfl, List.nodup_nil⟩ tasks
  · rw [List.nil_append] at hguarded
    rw [← hguarded.1]
    unfold refuseSharedParts
    constructor
    · rintro ⟨u, hu⟩
      obtain ⟨seen, hseen, -⟩ := ok_of_bind.mp hu
      exact ⟨seen, hseen⟩
    · rintro ⟨seen, hseen⟩
      exact ⟨(), ok_of_bind.mpr ⟨seen, hseen, rfl⟩⟩
  · rintro xs ys ⟨paths, hpaths, hnodup⟩
    rw [List.map_append] at hpaths
    obtain ⟨first, rest, rfl, hfirst, -⟩ := List.map_eq_append_iff.mp hpaths.symm
    refine ⟨first, hfirst.symm, ?_⟩
    rw [List.flatten_append, List.map_append] at hnodup
    exact (List.nodup_append.mp hnodup).1
  · rintro _ d t ⟨paths, hpaths, rfl⟩ ⟨paths', hpaths', hnodup⟩
    obtain rfl : paths = paths' :=
      List.map_injective_iff.mpr (fun _ _ h => Except.ok.inj h) (hpaths.symm.trans hpaths')
    have happend : ∀ more, writtenParts process t.partition = .ok more →
        ((d ++ [t]).map fun t => writtenParts process t.partition) =
          (paths ++ [more]).map .ok := by
      intro more hmore
      rw [List.map_append, List.map_append, hpaths, List.map_singleton, hmore]
      rfl
    have hflatten : ∀ more : List String,
        (paths ++ [more]).flatten = paths.flatten ++ more := by
      intro more
      rw [List.flatten_append, List.flatten_singleton]
    cases hmore : writtenParts process t.partition with
    | error e =>
        refine ⟨⟨?_, ?_⟩, ?_⟩
        · rintro ⟨s', hs'⟩
          cases hs'
        · rintro ⟨all, hall, -⟩
          rw [List.map_append, List.map_singleton, hmore] at hall
          obtain ⟨first, rest, -, -, hrest⟩ := List.map_eq_append_iff.mp hall.symm
          obtain ⟨r, -, hr⟩ := List.mem_map.mp (hrest ▸ List.mem_singleton_self _)
          cases hr
        · intro s' hs'
          cases hs'
    | ok more =>
        have hsee := seeParts_guarded quote hnodup more
        refine ⟨⟨?_, ?_⟩, ?_⟩
        · rintro ⟨s', hs'⟩
          refine ⟨paths ++ [more], happend more hmore, ?_⟩
          rw [hflatten]
          exact hsee.1.mp ⟨s', hs'⟩
        · rintro ⟨all, hall, hone⟩
          obtain rfl : paths ++ [more] = all := List.map_injective_iff.mpr
            (fun _ _ h => Except.ok.inj h) ((happend more hmore).symm.trans hall)
          rw [hflatten] at hone
          exact hsee.1.mpr hone
        · intro s' hs'
          refine ⟨paths ++ [more], happend more hmore, ?_⟩
          rw [hflatten]
          exact hsee.2 s' hs'

end Parts

/-! ### Routes -/

/-- What the loop has when it ends, over plans each with its own files. -/
structure Accepted (plans : List (String × GivenPlan α σ)) (c : Collating α σ) : Prop where
  names : (plans.map Prod.fst).Nodup
  fixed : ∀ e ∈ plans, e.2.Fixed
  owner : OneOwner (plans.flatMap entriesOf)
  takes : Takes c (plans.flatMap entriesOf)
  held : c.fixed = plans.filterMap fixedOf

section Routes

variable (quote : String → String) {plans : List (String × GivenPlan α σ)} {c : Collating α σ}
  {name : String} {p : TaskPlan α σ} {t : Task}

theorem mem_fixedOf {x : String × TaskPlan α σ} : x ∈ plans.filterMap fixedOf ↔
    (x.1, .plan x.2) ∈ plans := by
  rw [List.mem_filterMap]
  constructor
  · rintro ⟨⟨name, _ | _⟩, he, hx⟩
    · obtain rfl := Option.some.inj hx
      exact he
    · cases hx
  · exact fun h => ⟨_, h, rfl⟩

theorem fixedOf_names (h : ∀ e ∈ plans, e.2.Fixed) :
    (plans.filterMap fixedOf).map Prod.fst = plans.map Prod.fst := by
  induction plans with
  | nil => rfl
  | cons e plans ih =>
      have hrest := ih fun e' he' => h e' (List.mem_cons_of_mem _ he')
      obtain ⟨name, plan⟩ := e
      cases plan with
      | staged services => exact (h _ List.mem_cons_self).elim
      | plan p => exact congrArg (name :: ·) hrest

variable (h : Accepted plans c)

include h

theorem Accepted.route_of_mem (hp : (name, .plan p) ∈ plans) (ht : t ∈ p.tasks) :
    c.route.lookup t.partition.fileTree = some name := by
  have hmem : (name, t) ∈ plans.flatMap entriesOf :=
    List.mem_flatMap.mpr ⟨_, hp, List.mem_map_of_mem (mem_ordered.mpr ht)⟩
  rw [h.takes.route]
  have hsome : ((plans.flatMap entriesOf).find? fun x =>
      x.2.partition.fileTree = t.partition.fileTree).isSome := by
    rw [List.find?_isSome]
    exact ⟨_, hmem, by simp⟩
  obtain ⟨x, hx⟩ := Option.isSome_iff_exists.mp hsome
  have hkey : x.2.partition.fileTree = t.partition.fileTree := by simpa using List.find?_some hx
  rw [hx]
  exact congrArg some (h.owner x (List.mem_of_find?_eq_some hx) _ hmem hkey)

/-- A partition goes to the plan that listed it. -/
theorem Accepted.routed (hp : (name, .plan p) ∈ plans) (ht : t ∈ p.tasks) :
    (Collated.mk (c.fixed.map fun p => (p.1, p.2.process)) c.route).routed quote t.partition =
      .ok (name, p.process) := by
  have hprocess : (c.fixed.map fun p => (p.1, p.2.process)).lookup name = some p.process := by
    refine lookup_of_nodup ?_ (?_ : (name, p.process) ∈ _)
    · rw [List.map_map, h.held]
      change ((plans.filterMap fixedOf).map Prod.fst).Nodup
      rw [fixedOf_names h.fixed]
      exact h.names
    · rw [h.held]
      exact List.mem_map_of_mem (f := fun p : String × TaskPlan α σ => (p.1, p.2.process))
        (mem_fixedOf (x := (name, p)).mpr hp)
  unfold Collated.routed
  dsimp only
  rw [dictItem_ok (h.route_of_mem hp ht)]
  change (dictItem (c.fixed.map fun p => (p.1, p.2.process)) name (quote name) >>= _) = _
  rw [dictItem_ok hprocess]
  rfl

/-- It runs that plan's process, and puts the plan's name on what it gives. -/
theorem Accepted.call_eq (hp : (name, .plan p) ∈ plans) (ht : t ∈ p.tasks)
    (services : List (ServiceSpec σ)) :
    (c.plan quote services).process.call t.partition =
      (p.process.call t.partition).map (·.onValue fun v => .dict [(name, v)]) := by
  change ((Collated.mk _ c.route).routed quote t.partition >>= _) = _
  rw [h.routed quote hp ht]
  change (p.process.call t.partition >>= fun v => .ok (v.onValue fun v => .dict [(name, v)])) = _
  cases p.process.call t.partition <;> rfl

theorem Accepted.writtenParts_eq (hp : (name, .plan p) ∈ plans) (ht : t ∈ p.tasks)
    (services : List (ServiceSpec σ)) :
    writtenParts (c.plan quote services).process t.partition =
      writtenParts p.process t.partition := by
  change ((Collated.mk _ c.route).routed quote t.partition >>= _) = _
  rw [h.routed quote hp ht]
  rfl

/-- Its tasks are the plans', in key order, one plan after the other. -/
theorem Accepted.partitions :
    c.tasks.map (·.partition) = plans.flatMap fun e => e.2.ordered.map (·.partition) := by
  have htasks : c.tasks.map (·.partition) =
      (plans.flatMap entriesOf).map fun x => x.2.partition := by
    rw [h.takes.tasks]
    apply List.ext_getElem
    · simp
    · intro i _ _
      simp
  rw [htasks, List.map_flatMap]
  congr 1
  funext e
  rw [entriesOf, List.map_map]
  rfl

theorem Accepted.written (services : List (ServiceSpec σ)) :
    (c.tasks.map fun t => writtenParts (c.plan quote services).process t.partition) =
      plans.flatMap (·.2.written) := by
  have hmap : (c.tasks.map fun t => writtenParts (c.plan quote services).process t.partition) =
      (c.tasks.map (·.partition)).map (writtenParts (c.plan quote services).process) := by
    rw [List.map_map]
    rfl
  rw [hmap, h.partitions, List.map_flatMap]
  apply List.flatMap_congr
  rintro ⟨name, plan⟩ he
  cases plan with
  | staged => rfl
  | plan p =>
      change (p.ordered.map _).map _ = p.ordered.map _
      rw [List.map_map]
      apply List.map_congr_left
      intro t ht
      exact h.writtenParts_eq quote he (mem_ordered.mp ht) services

/-- The tasks are numbered in their order. -/
theorem Accepted.ordered (services : List (ServiceSpec σ)) :
    (c.plan quote services).ordered = c.tasks := by
  change c.tasks.insertionSort _ = c.tasks
  apply List.Pairwise.insertionSort_eq
  rw [h.takes.tasks, List.pairwise_iff_getElem]
  intro i j hi hj hij
  simp only [List.getElem_mapIdx]
  omega

end Routes

/-! ### Acceptance -/

section Acceptance

variable [DecidableEq σ] (quote : String → String) {plans : List (String × GivenPlan α σ)}

theorem collate_cases (hnames : (plans.map Prod.fst).Nodup) {c : TaskPlan α σ}
    (h : collate quote plans = .ok c) : ∃ loop services, Accepted plans loop ∧
      c = loop.plan quote services := by
  unfold collate at h
  split at h
  · cases h
  · obtain ⟨services, hservices, h⟩ := ok_of_bind.mp h
    obtain ⟨loop, hloop, h⟩ := ok_of_bind.mp h
    obtain ⟨u, hu, h⟩ := ok_of_bind.mp h
    obtain rfl := Except.ok.inj h
    obtain ⟨hfixed, howner⟩ := (addPlans_ok quote).1.mp ⟨loop, hloop⟩
    obtain ⟨htakes, hheld⟩ := (addPlans_ok quote).2 loop hloop
    exact ⟨loop, services, ⟨hnames, hfixed, howner, htakes, hheld⟩, rfl⟩

omit [DecidableEq σ] in
theorem sharedFile_iff : SharedFile plans ↔ ¬ OneOwner (plans.flatMap entriesOf) := by
  unfold OneOwner
  push Not
  constructor
  · rintro ⟨x, hx, y, hy, hne, t, ht, u, hu, hkey⟩
    refine ⟨(x.1, t), ?_, (y.1, u), ?_, hkey, hne⟩
    · exact List.mem_flatMap.mpr ⟨x, hx, List.mem_map_of_mem ht⟩
    · exact List.mem_flatMap.mpr ⟨y, hy, List.mem_map_of_mem hu⟩
  · rintro ⟨_, hxt, _, hyu, hkey, hne⟩
    obtain ⟨x, hx, hxt⟩ := List.mem_flatMap.mp hxt
    obtain ⟨y, hy, hyu⟩ := List.mem_flatMap.mp hyu
    obtain ⟨t, ht, rfl⟩ := List.mem_map.mp hxt
    obtain ⟨u, hu, rfl⟩ := List.mem_map.mp hyu
    exact ⟨x, hx, y, hy, hne, t, ht, u, hu, hkey⟩

/-- All hooks answer, and the parts differ. -/
theorem apart_iff {written : List (Except Raised (List String))} :
    (∃ paths : List (List String), written = paths.map .ok ∧
        (paths.flatten.map normpath).Nodup) ↔
      ¬ ((∃ e, .error e ∈ written) ∨ ∃ paths : List (List String), written = paths.map .ok ∧
        ¬ (paths.flatten.map normpath).Nodup) := by
  have hanswered : (¬ ∃ e, .error e ∈ written) →
      ∃ paths : List (List String), written = paths.map .ok := by
    intro hnone
    induction written with
    | nil => exact ⟨[], rfl⟩
    | cons w written ih =>
        obtain ⟨paths, rfl⟩ := ih fun ⟨e, he⟩ => hnone ⟨e, List.mem_cons_of_mem _ he⟩
        cases w with
        | error e => exact absurd ⟨e, List.mem_cons_self⟩ hnone
        | ok more => exact ⟨more :: paths, rfl⟩
  constructor
  · rintro ⟨paths, rfl, hnodup⟩ (⟨e, he⟩ | ⟨paths', heq, hnot⟩)
    · obtain ⟨_, -, h⟩ := List.mem_map.mp he
      cases h
    · obtain rfl : paths = paths' :=
        List.map_injective_iff.mpr (fun _ _ h => Except.ok.inj h) heq
      exact hnot hnodup
  · intro h
    rw [not_or] at h
    obtain ⟨paths, hpaths⟩ := hanswered h.1
    refine ⟨paths, hpaths, ?_⟩
    by_contra hnot
    exact h.2 ⟨paths, hpaths, hnot⟩

/-- **What `collate` refuses.** -/
theorem collate_error (hne : plans ≠ []) (hnames : (plans.map Prod.fst).Nodup) :
    (∃ e, collate quote plans = .error e) ↔ TwoSpecs plans ∨ (∃ x ∈ plans, ¬ x.2.Fixed) ∨
      SharedFile plans ∨ HookRaises plans ∨ PartTwice plans := by
  have hfails : (∃ e, collate quote plans = .error e) ↔ ¬ ∃ c, collate quote plans = .ok c := by
    cases collate quote plans <;> simp
  have hloop : ((∀ x ∈ plans, x.2.Fixed) ∧ OneOwner (plans.flatMap entriesOf)) ↔
      ¬ ((∃ x ∈ plans, ¬ x.2.Fixed) ∨ SharedFile plans) := by
    rw [sharedFile_iff, not_or, not_not]
    push Not
    rfl
  have hparts : ∀ loop : Collating α σ, Accepted plans loop → ∀ services,
      ((∃ u, refuseSharedParts quote (loop.plan quote services).process loop.tasks = .ok u) ↔
        ¬ (HookRaises plans ∨ PartTwice plans)) := by
    intro loop haccepted services
    rw [refuseSharedParts_ok]
    unfold Apart
    rw [haccepted.written quote services]
    exact apart_iff
  rw [hfails, ← or_assoc (a := ∃ x ∈ plans, ¬ x.2.Fixed), not_iff_comm, not_or, not_or,
    ← declare_ok quote, ← hloop]
  unfold collate
  rw [if_neg hne]
  constructor
  · rintro ⟨⟨services, hservices⟩, hfine, hapart⟩
    obtain ⟨loop, hrun⟩ := (addPlans_ok quote).1.mpr hfine
    obtain ⟨htakes, hheld⟩ := (addPlans_ok quote).2 loop hrun
    obtain ⟨u, hu⟩ := (hparts loop ⟨hnames, hfine.1, hfine.2, htakes, hheld⟩ services).mpr hapart
    exact ⟨_, ok_of_bind.mpr ⟨services, hservices, ok_of_bind.mpr ⟨loop, hrun,
      ok_of_bind.mpr ⟨u, hu, rfl⟩⟩⟩⟩
  · rintro ⟨c, hc⟩
    obtain ⟨services, hservices, hc⟩ := ok_of_bind.mp hc
    obtain ⟨loop, hrun, hc⟩ := ok_of_bind.mp hc
    obtain ⟨u, hu, -⟩ := ok_of_bind.mp hc
    have hfine := (addPlans_ok quote).1.mp ⟨loop, hrun⟩
    obtain ⟨htakes, hheld⟩ := (addPlans_ok quote).2 loop hrun
    exact ⟨⟨services, hservices⟩, hfine,
      (hparts loop ⟨hnames, hfine.1, hfine.2, htakes, hheld⟩ services).mp ⟨u, hu⟩⟩

end Acceptance

end Graphed
