import Graphed.Execution.Collating

/-!
# What a collated plan gives

A collated plan gives each plan's value under its name, whatever tree its tasks are reduced in, as
long as the plans' combines are associative and their warnings stay beside their values.
-/

namespace Graphed

variable {α σ : Type}

/-! ### Lawful plans -/

namespace PyValue

/-- The value without the warnings it carries. -/
def bare (v : PyValue α) : PyValue α := v.split.1

/-- Not a value that carries warnings. -/
def Plain : PyValue α → Prop
  | warned _ _ => False
  | _ => True

theorem Plain.split_eq {v : PyValue α} (h : v.Plain) : v.split = (v, []) := by
  cases v with
  | warned value caught => exact h.elim
  | _ => rfl

theorem Plain.bare_eq {v : PyValue α} (h : v.Plain) : v.bare = v := congrArg Prod.fst h.split_eq

end PyValue

namespace TaskPlan

/-- What runs of a plan come upon: the identity, what its processes give, and what these combine
to. -/
inductive Reached (p : TaskPlan α σ) : PyValue α → Prop
  | empty {v : PyValue α} : p.empty = .ok v → Reached p v
  | task {t : Task} {v : PyValue α} : t ∈ p.tasks → p.process.call t.partition = .ok v →
      Reached p v
  | combine {a b c : PyValue α} : Reached p a → Reached p b → p.combine a b = .ok c → Reached p c

/-- The combine is associative, and `empty()` is its identity. -/
def Associative (p : TaskPlan α σ) : Prop :=
  ∃ one, p.empty = .ok one ∧ Laws p.Reached p.combine one

/-- No warnings are carried, or the combine and the finalize look through them. -/
def SetsAside (p : TaskPlan α σ) : Prop :=
  (∀ v, p.Reached v → v.Plain) ∨
    ∃ fn fin, p.combine = WarnedCombine fn ∧ p.finalize = some (WarnedFinalize fin) ∧
      (∀ v, p.Reached v → v.bare.Plain) ∧ ∀ a b v, fn a b = .ok v → v.Plain

/-- What is asked of a plan to be collated. -/
structure Lawful (p : TaskPlan α σ) : Prop where
  associative : p.Associative
  aside : p.SetsAside
  truthy : ∀ fn, p.finalize = some fn → fn.truthy = true

/-- Every tree gives this value. -/
def Gives (p : TaskPlan α σ) (r : PyValue α) : Prop :=
  ∀ tree : Reduction, tree.leaves = p.ordered → p.run tree = .ok r

end TaskPlan

section Lawful

variable {p : TaskPlan α σ}

/-- A tree of a plan's partitions gives what their list does. -/
theorem reduce_agree {one : PyValue α} (hempty : p.empty = .ok one)
    (hlaws : Laws p.Reached p.combine one) {tree : Reduction}
    (htree : ∀ t ∈ tree.leaves, ∀ v, p.process.call t.partition = .ok v → p.Reached v) :
    Agree (tree.reduce p.plan)
      (reduceAll p.combine one (tree.leaves.map fun t => p.process.call t.partition)) := by
  induction tree with
  | empty =>
      intro v
      change p.empty = .ok v ↔ _
      rw [hempty]
      rfl
  | task t =>
      refine (reduceAll_singleton hlaws ?_).symm
      exact htree t List.mem_cons_self
  | merge left right ihl ihr =>
      have hl := fun t ht => htree t (List.mem_append_left _ ht)
      have hr := fun t ht => htree t (List.mem_append_right _ ht)
      have hgood : ∀ {tree : Reduction},
          (∀ t ∈ tree.leaves, ∀ v, p.process.call t.partition = .ok v → p.Reached v) →
          ∀ x ∈ tree.leaves.map (fun t => p.process.call t.partition), ∀ v, x = .ok v →
            p.Reached v := by
        intro tree h x hx v hv
        obtain ⟨t, ht, rfl⟩ := List.mem_map.mp hx
        exact h t ht v hv
      have happend := reduceAll_append hlaws (hgood hl) (hgood hr)
      rw [← List.map_append] at happend
      refine Agree.trans ?_ happend.symm
      exact Agree.bind (ihl hl) fun a _ => Agree.bind (ihr hr) fun b _ => Agree.refl _

/-- Trees over the same partitions give the same. -/
theorem reduce_congr (h : p.Associative) {tree tree' : Reduction}
    (htree : ∀ t ∈ tree.leaves, ∀ v, p.process.call t.partition = .ok v → p.Reached v)
    (hsame : tree.leaves.map (·.partition) = tree'.leaves.map (·.partition)) :
    Agree (tree.reduce p.plan) (tree'.reduce p.plan) := by
  obtain ⟨one, hempty, hlaws⟩ := h
  have hcalls : ∀ tree : Reduction, (tree.leaves.map fun t => p.process.call t.partition) =
      (tree.leaves.map (·.partition)).map p.process.call := by
    intro tree
    rw [List.map_map]
    rfl
  have htree' : ∀ t ∈ tree'.leaves, ∀ v, p.process.call t.partition = .ok v → p.Reached v := by
    intro t ht
    have hmem : t.partition ∈ tree.leaves.map (·.partition) := by
      rw [hsame]
      exact List.mem_map_of_mem ht
    obtain ⟨u, hu, hpart⟩ := List.mem_map.mp hmem
    rw [← hpart]
    exact htree u hu
  refine (reduce_agree hempty hlaws htree).trans ?_
  rw [hcalls, hsame, ← hcalls]
  exact (reduce_agree hempty hlaws htree').symm

/-- Combining bare values. -/
theorem TaskPlan.SetsAside.combine (h : p.SetsAside) {a b : PyValue α} (ha : p.Reached a)
    (hb : p.Reached b) : Agree (p.combine a.bare b.bare) ((p.combine a b).map PyValue.bare) := by
  intro v
  rcases h with hplain | ⟨fn, fin, hcombine, -, hbare, hfn⟩
  · rw [(hplain a ha).bare_eq, (hplain b hb).bare_eq]
    cases hab : p.combine a b with
    | error e => rfl
    | ok c =>
        have hc := hplain c (TaskPlan.Reached.combine ha hb hab)
        change _ ↔ Except.ok c.bare = _
        rw [hc.bare_eq]
  · rw [hcombine]
    unfold WarnedCombine
    rw [(hbare a ha).split_eq, (hbare b hb).split_eq]
    change (fn a.bare b.bare).map _ = _ ↔ ((fn a.bare b.bare).map _).map _ = _
    cases hab : fn a.bare b.bare with
    | error e => rfl
    | ok c =>
        have hc := hfn _ _ _ hab
        have hnil : mergeCaught ([] : Caught) [] = [] := rfl
        change Except.ok (if mergeCaught [] [] = [] then c else _) = _ ↔
          Except.ok (PyValue.bare (if _ then c else _)) = _
        rw [if_pos hnil]
        split
        · rw [hc.bare_eq]
        · rfl

/-- Ending a bare value. -/
theorem TaskPlan.SetsAside.finalized (h : p.SetsAside) {v : PyValue α} (hv : p.Reached v) :
    p.finalized v.bare = p.finalized v := by
  rcases h with hplain | ⟨fn, fin, -, hfinalize, hbare, -⟩
  · rw [(hplain v hv).bare_eq]
  · have hsplit := (hbare v hv).split_eq
    unfold TaskPlan.finalized
    rw [hfinalize]
    unfold WarnedFinalize
    dsimp only
    rw [hsplit]
    rfl

end Lawful

/-! ### Merging names -/

section Merge

variable (quote : String → String) {combines : List (String × Combine α)}
  {f g : String → Option (PyValue α)}

/-- What a name has on one side, or on both. -/
def joinItem (combine : Combine α) : Option (PyValue α) → Option (PyValue α) →
    Except Raised (Option (PyValue α))
  | some x, some y => (combine x y).map some
  | some x, none => .ok (some x)
  | none, y => .ok y

/-- Working on the items of a dict, one name after the other. -/
theorem mapM_dictOf {names : List String} (hnames : names.Nodup)
    (k : String × PyValue α → Except Raised (String × PyValue α))
    (hk : ∀ item out, k item = .ok out → out.1 = item.1) {us : List (String × PyValue α)} :
    (dictOf names g).mapM k = .ok us ↔ ∃ h : String → Option (PyValue α), us = dictOf names h ∧
      ∀ n ∈ names, (g n = none → h n = none) ∧
        ∀ y, g n = some y → ∃ y', k (n, y) = .ok (n, y') ∧ h n = some y' := by
  induction names generalizing us with
  | nil =>
      constructor
      · intro h
        obtain rfl := Except.ok.inj h
        exact ⟨fun _ => none, rfl, fun n hn => by cases hn⟩
      · rintro ⟨h, rfl, -⟩
        rfl
  | cons name names ih =>
      obtain ⟨hname, hnames⟩ := List.nodup_cons.mp hnames
      have hne : ∀ n ∈ names, n ≠ name := by
        rintro n hn rfl
        exact hname hn
      rw [dictOf_cons]
      cases hg : g name with
      | none =>
          rw [Option.map_none, Option.toList_none, List.nil_append, ih hnames]
          constructor
          · rintro ⟨h, rfl, hrest⟩
            refine ⟨fun n => if n = name then none else h n, ?_, ?_⟩
            · rw [dictOf_cons, if_pos rfl, Option.map_none, Option.toList_none, List.nil_append]
              apply dictOf_congr
              intro n hn
              rw [if_neg (hne n hn)]
            · intro n hn
              rcases List.mem_cons.mp hn with rfl | hn
              · refine ⟨fun _ => if_pos rfl, fun y hy => ?_⟩
                rw [hg] at hy
                cases hy
              · simp only [if_neg (hne n hn)]
                exact hrest n hn
          · rintro ⟨h, rfl, hall⟩
            refine ⟨h, ?_, fun n hn => hall n (List.mem_cons_of_mem _ hn)⟩
            rw [dictOf_cons, (hall name List.mem_cons_self).1 hg]
            rfl
      | some y =>
          rw [Option.map_some, Option.toList_some, List.singleton_append, List.mapM_cons]
          constructor
          · intro hus
            obtain ⟨out, hout, hus⟩ := ok_of_bind.mp hus
            obtain ⟨rest, hrest, hus⟩ := ok_of_bind.mp hus
            obtain rfl := Except.ok.inj hus
            obtain ⟨h, rfl, hall⟩ := (ih hnames).mp hrest
            obtain ⟨n', y'⟩ := out
            obtain rfl : n' = name := hk _ _ hout
            refine ⟨fun n => if n = n' then some y' else h n, ?_, ?_⟩
            · rw [dictOf_cons, if_pos rfl, Option.map_some, Option.toList_some,
                List.singleton_append]
              congr 1
              apply dictOf_congr
              intro n hn
              rw [if_neg (hne n hn)]
            · intro n hn
              rcases List.mem_cons.mp hn with rfl | hn
              · refine ⟨fun hnone => ?_, fun z hz => ?_⟩
                · rw [hg] at hnone
                  cases hnone
                · obtain rfl := Option.some.inj (hg.symm.trans hz)
                  exact ⟨y', hout, if_pos rfl⟩
              · simp only [if_neg (hne n hn)]
                exact hall n hn
          · rintro ⟨h, rfl, hall⟩
            obtain ⟨y', hy', hh⟩ := (hall name List.mem_cons_self).2 y hg
            have hrest := (ih hnames).mpr ⟨h, rfl, fun n hn => hall n (List.mem_cons_of_mem _ hn)⟩
            rw [hy', dictOf_cons, hh]
            change ((dictOf names g).mapM k >>= fun rest => .ok ((name, y') :: rest)) = _
            rw [hrest]
            rfl

theorem combineItem_name {a : List (String × PyValue α)} {item out : String × PyValue α}
    (h : combineItem quote combines a item = .ok out) : out.1 = item.1 := by
  unfold combineItem at h
  split at h
  · obtain rfl := Except.ok.inj h
    rfl
  · obtain ⟨combine, -, h⟩ := ok_of_bind.mp h
    obtain ⟨value, -, h⟩ := ok_of_bind.mp h
    obtain rfl := Except.ok.inj h
    rfl

/-- **Merging is name by name.** -/
theorem collatedCombine_ok (hnames : (combines.map Prod.fst).Nodup) {v : PyValue α} :
    CollatedCombine quote combines (.dict (dictOf (combines.map Prod.fst) f))
      (.dict (dictOf (combines.map Prod.fst) g)) = .ok v ↔
    ∃ h : String → Option (PyValue α), v = .dict (dictOf (combines.map Prod.fst) h) ∧
      ∀ entry ∈ combines, joinItem entry.2 (f entry.1) (g entry.1) = .ok (h entry.1) := by
  have hlook : ∀ entry ∈ combines, combines.lookup entry.1 = some entry.2 :=
    fun entry hentry => lookup_of_nodup hnames hentry
  have hdict : ∀ h : String → Option (PyValue α), ∀ entry ∈ combines,
      (dictOf (combines.map Prod.fst) h).lookup entry.1 = h entry.1 := by
    intro h entry hentry
    rw [lookup_dictOf, if_pos (List.mem_map_of_mem hentry)]
  have hitem : ∀ entry ∈ combines, ∀ y y', combineItem quote combines
      (dictOf (combines.map Prod.fst) f) (entry.1, y) = .ok (entry.1, y') ↔
        joinItem entry.2 (f entry.1) (some y) = .ok (some y') := by
    intro entry hentry y y'
    unfold combineItem
    dsimp only
    rw [hdict f entry hentry]
    cases f entry.1 with
    | none =>
        change Except.ok (entry.1, y) = _ ↔ Except.ok (some y) = _
        simp
    | some x =>
        dsimp only
        unfold dictItem
        rw [hlook entry hentry]
        change (entry.2 x y >>= fun value => .ok (entry.1, value)) = _ ↔ (entry.2 x y).map some = _
        cases entry.2 x y with
        | error e => simp [bind, Except.bind, Except.map]
        | ok z => simp [bind, Except.bind, Except.map]
  have hout : ∀ h : String → Option (PyValue α), (∀ entry ∈ combines,
        (g entry.1 = none → h entry.1 = none) ∧ ∀ y, g entry.1 = some y →
          ∃ y', joinItem entry.2 (f entry.1) (some y) = .ok (some y') ∧ h entry.1 = some y') →
      ∀ entry ∈ combines, joinItem entry.2 (f entry.1) (g entry.1) =
        .ok ((h entry.1).or (f entry.1)) := by
    intro h hall entry hentry
    obtain ⟨hnone, hsome⟩ := hall entry hentry
    cases hg : g entry.1 with
    | none =>
        rw [hnone hg, Option.none_or]
        cases f entry.1 <;> rfl
    | some y =>
        obtain ⟨y', hy', hh⟩ := hsome y hg
        rw [hh, hy']
        rfl
  have hmerged : ∀ h : String → Option (PyValue α),
      (combines.filterMap fun entry => ((dictUpdate (dictOf (combines.map Prod.fst) f)
        (dictOf (combines.map Prod.fst) h)).lookup entry.1).map (entry.1, ·)) =
      dictOf (combines.map Prod.fst) fun n => (h n).or (f n) := by
    intro h
    rw [dictOf_map combines fun n => (h n).or (f n)]
    apply List.filterMap_congr
    intro entry hentry
    rw [lookup_dictUpdate, hdict h entry hentry, hdict f entry hentry]
  change (((dictOf (combines.map Prod.fst) g).mapM (combineItem quote combines
    (dictOf (combines.map Prod.fst) f))) >>= fun us => _) = _ ↔ _
  rw [ok_of_bind]
  constructor
  · rintro ⟨us, hus, hv⟩
    obtain ⟨h, rfl, hall⟩ := (mapM_dictOf hnames _
      fun item out => combineItem_name quote).mp hus
    refine ⟨fun n => (h n).or (f n), ?_, hout h ?_⟩
    · rw [← hmerged h]
      exact (Except.ok.inj hv).symm
    · intro entry hentry
      obtain ⟨hnone, hsome⟩ := hall entry.1 (List.mem_map_of_mem hentry)
      refine ⟨hnone, fun y hy => ?_⟩
      obtain ⟨y', hy', hh⟩ := hsome y hy
      exact ⟨y', (hitem entry hentry y y').mp hy', hh⟩
  · rintro ⟨h, rfl, hall⟩
    -- the items of the second dict, each joined
    refine ⟨dictOf (combines.map Prod.fst) fun n => (g n).bind fun _ => h n, ?_, ?_⟩
    · refine (mapM_dictOf hnames _ fun item out => combineItem_name quote).mpr ⟨_, rfl, ?_⟩
      intro n hn
      obtain ⟨entry, hentry, rfl⟩ := List.mem_map.mp hn
      have hjoin := hall entry hentry
      refine ⟨fun hnone => by rw [hnone]; rfl, fun y hy => ?_⟩
      rw [hy] at hjoin
      have hsome : ∃ y', h entry.1 = some y' := by
        cases hf : f entry.1 with
        | none =>
            rw [hf] at hjoin
            exact ⟨y, (Except.ok.inj hjoin).symm⟩
        | some x =>
            rw [hf] at hjoin
            cases hxy : entry.2 x y with
            | error e =>
                rw [joinItem, hxy] at hjoin
                cases hjoin
            | ok z =>
                rw [joinItem, hxy] at hjoin
                exact ⟨z, (Except.ok.inj hjoin).symm⟩
      obtain ⟨y', hy'⟩ := hsome
      refine ⟨y', (hitem entry hentry y y').mpr (hy' ▸ hjoin), ?_⟩
      rw [hy]
      exact hy'
    · rw [hmerged]
      congr 2
      apply dictOf_congr
      intro n hn
      obtain ⟨entry, hentry, rfl⟩ := List.mem_map.mp hn
      have hjoin := hall entry hentry
      cases hg : g entry.1 with
      | none =>
          rw [hg] at hjoin
          have hsame : h entry.1 = f entry.1 := by
            cases hf : f entry.1 <;> rw [hf] at hjoin <;> exact (Except.ok.inj hjoin).symm
          rw [hsame]
          rfl
      | some y =>
          rw [hg] at hjoin
          change (h entry.1).or (f entry.1) = _
          cases hf : f entry.1 with
          | none => rw [Option.or_none]
          | some x =>
              rw [hf] at hjoin
              cases hxy : entry.2 x y with
              | error e =>
                  rw [joinItem, hxy] at hjoin
                  cases hjoin
              | ok z =>
                  rw [joinItem, hxy] at hjoin
                  rw [← Except.ok.inj hjoin]
                  rfl

end Merge

/-! ### The laws of merging -/

/-- What stands for this in a dict: a value its plan comes upon, without its warnings. -/
def StandsFor (p : TaskPlan α σ) (x : Option (PyValue α)) : Prop :=
  ∀ v, x = some v → ∃ w, p.Reached w ∧ w.bare = v

section Join

variable {p : TaskPlan α σ} {x y z r : Option (PyValue α)}

theorem combine_bare_ok (h : p.Lawful) {a b v : PyValue α} (ha : p.Reached a) (hb : p.Reached b) :
    p.combine a.bare b.bare = .ok v ↔ ∃ w, p.combine a b = .ok w ∧ w.bare = v := by
  rw [h.aside.combine ha hb v]
  cases p.combine a b with
  | error e =>
      constructor
      · intro hv
        cases hv
      · rintro ⟨w, hw, -⟩
        cases hw
  | ok w =>
      constructor
      · exact fun hv => ⟨w, rfl, Except.ok.inj hv⟩
      · rintro ⟨_, hw, hv⟩
        obtain rfl := Except.ok.inj hw
        exact congrArg Except.ok hv

theorem joinItem_standsFor (h : p.Lawful) (hx : StandsFor p x) (hy : StandsFor p y)
    (hr : joinItem p.combine x y = .ok r) : StandsFor p r := by
  cases x with
  | none =>
      obtain rfl := Except.ok.inj hr
      exact hy
  | some v =>
      cases y with
      | none =>
          obtain rfl := Except.ok.inj hr
          exact hx
      | some u =>
          obtain ⟨a, ha, rfl⟩ := hx v rfl
          obtain ⟨b, hb, rfl⟩ := hy u rfl
          rintro m rfl
          cases hm : p.combine a.bare b.bare with
          | error e =>
              rw [joinItem, hm] at hr
              cases hr
          | ok m' =>
              rw [joinItem, hm] at hr
              obtain rfl := Option.some.inj (Except.ok.inj hr)
              obtain ⟨w, hw, hbare⟩ := (combine_bare_ok h ha hb).mp hm
              exact ⟨w, TaskPlan.Reached.combine ha hb hw, hbare⟩

theorem joinItem_assoc (h : p.Lawful) (hx : StandsFor p x) (hy : StandsFor p y)
    (hz : StandsFor p z) : Agree (joinItem p.combine x y >>= fun m => joinItem p.combine m z)
      (joinItem p.combine y z >>= fun m => joinItem p.combine x m) := by
  have hsome : ∀ {u v : PyValue α}, joinItem p.combine (some u) (some v) =
      (p.combine u v).map some := rfl
  cases x with
  | none =>
      intro r
      change joinItem p.combine y z = .ok r ↔ (joinItem p.combine y z >>= fun m => .ok m) = .ok r
      rw [ok_of_bind]
      simp
  | some u =>
      cases y with
      | none =>
          intro r
          cases z <;> rfl
      | some v =>
          cases z with
          | none =>
              intro r
              change ((p.combine u v).map some >>= fun m => joinItem p.combine m none) = .ok r ↔
                (p.combine u v).map some = .ok r
              cases p.combine u v <;> rfl
          | some t =>
              obtain ⟨a, ha, rfl⟩ := hx u rfl
              obtain ⟨b, hb, rfl⟩ := hy v rfl
              obtain ⟨c, hc, rfl⟩ := hz t rfl
              obtain ⟨one, -, hlaws⟩ := h.associative
              have hmap : ∀ {e : Except Raised (PyValue α)}
                  {f : Option (PyValue α) → Except Raised (Option (PyValue α))}
                  {r : Option (PyValue α)}, (e.map some >>= f) = .ok r ↔
                    ∃ m, e = .ok m ∧ f (some m) = .ok r := by
                intro e f r
                cases e with
                | error e => simp [Except.map, bind, Except.bind]
                | ok m => simp [Except.map, bind, Except.bind]
              have hend : ∀ {e : Except Raised (PyValue α)} {r : Option (PyValue α)},
                  e.map some = .ok r ↔ ∃ m, e = .ok m ∧ r = some m := by
                intro e r
                cases e with
                | error e => simp [Except.map]
                | ok m => simp [Except.map, eq_comm]
              intro r
              rw [hsome, hsome, hmap, hmap]
              simp only [hsome, hend]
              constructor
              · rintro ⟨m, hm, n, hn, rfl⟩
                obtain ⟨w, hw, rfl⟩ := (combine_bare_ok h ha hb).mp hm
                obtain ⟨w', hw', rfl⟩ :=
                  (combine_bare_ok h (TaskPlan.Reached.combine ha hb hw) hc).mp hn
                obtain ⟨k, hk, hw'⟩ := ok_of_bind.mp
                  ((hlaws.assoc ha hb hc w').mp (ok_of_bind.mpr ⟨w, hw, hw'⟩))
                refine ⟨k.bare, (combine_bare_ok h hb hc).mpr ⟨k, hk, rfl⟩, w'.bare, ?_, rfl⟩
                exact (combine_bare_ok h ha (TaskPlan.Reached.combine hb hc hk)).mpr ⟨w', hw', rfl⟩
              · rintro ⟨m, hm, n, hn, rfl⟩
                obtain ⟨w, hw, rfl⟩ := (combine_bare_ok h hb hc).mp hm
                obtain ⟨w', hw', rfl⟩ :=
                  (combine_bare_ok h ha (TaskPlan.Reached.combine hb hc hw)).mp hn
                obtain ⟨k, hk, hw'⟩ := ok_of_bind.mp
                  ((hlaws.assoc ha hb hc w').mpr (ok_of_bind.mpr ⟨w, hw, hw'⟩))
                refine ⟨k.bare, (combine_bare_ok h ha hb).mpr ⟨k, hk, rfl⟩, w'.bare, ?_, rfl⟩
                exact (combine_bare_ok h (TaskPlan.Reached.combine ha hb hk) hc).mpr ⟨w', hw', rfl⟩

end Join

/-! ### The collated plan's laws -/

/-- A value with warnings beside it, if any. -/
def PyValue.withCaught (v : PyValue α) (caught : Caught) : PyValue α :=
  if caught = [] then v else .warned v caught

theorem PyValue.Plain.split_withCaught {v : PyValue α} (h : v.Plain) (caught : Caught) :
    (v.withCaught caught).split = (v, caught) := by
  unfold PyValue.withCaught
  split
  · rename_i hnil
    rw [h.split_eq, hnil]
  · rfl

theorem warnedCombine_withCaught (fn : Combine α) {a b : PyValue α} (ha : a.Plain) (hb : b.Plain)
    (ca cb : Caught) : WarnedCombine fn (a.withCaught ca) (b.withCaught cb) =
      (fn a b).map (·.withCaught (mergeCaught cb ca)) := by
  unfold WarnedCombine
  rw [ha.split_withCaught, hb.split_withCaught]
  rfl

section Laws

variable (quote : String → String) {ps : List (String × TaskPlan α σ)}
  {f g : String → Option (PyValue α)}

/-- The combine of a collated plan, but for the warnings. -/
def merging (ps : List (String × TaskPlan α σ)) : Combine α :=
  CollatedCombine quote (ps.map fun p => (p.1, p.2.combine))

/-- The dict of what each plan has. -/
def named (ps : List (String × TaskPlan α σ)) (f : String → Option (PyValue α)) : PyValue α :=
  .dict (dictOf (ps.map Prod.fst) f)

theorem merging_ok (hnames : (ps.map Prod.fst).Nodup) {v : PyValue α} :
    merging quote ps (named ps f) (named ps g) = .ok v ↔ ∃ h : String → Option (PyValue α),
      v = named ps h ∧ ∀ p ∈ ps, joinItem p.2.combine (f p.1) (g p.1) = .ok (h p.1) := by
  have hfst : (ps.map fun p => (p.1, p.2.combine)).map Prod.fst = ps.map Prod.fst := by
    rw [List.map_map]
    rfl
  have hcombines : ((ps.map fun p => (p.1, p.2.combine)).map Prod.fst).Nodup := by
    rw [hfst]
    exact hnames
  have hcombine := collatedCombine_ok quote (f := f) (g := g) (v := v) hcombines
  rw [hfst] at hcombine
  unfold merging named
  rw [hcombine]
  simp only [List.forall_mem_map]

/-- What runs of the collated plan come upon: a dict of what runs of the plans do. -/
def Merged (ps : List (String × TaskPlan α σ)) (v : PyValue α) : Prop :=
  ∃ f caught, v = (named ps f).withCaught caught ∧ ∀ p ∈ ps, StandsFor p.2 (f p.1)

theorem named_none : named ps (fun _ => none) = .dict [] := by
  unfold named dictOf
  simp

theorem named_plain : (named ps f).Plain := trivial

theorem merge_ok (hnames : (ps.map Prod.fst).Nodup) {s t : Caught} {v : PyValue α} :
    WarnedCombine (merging quote ps) ((named ps f).withCaught s) ((named ps g).withCaught t) =
        .ok v ↔
      ∃ h : String → Option (PyValue α), v = (named ps h).withCaught (mergeCaught t s) ∧
        ∀ p ∈ ps, joinItem p.2.combine (f p.1) (g p.1) = .ok (h p.1) := by
  rw [warnedCombine_withCaught _ named_plain named_plain, map_ok_iff]
  constructor
  · rintro ⟨m, hm, rfl⟩
    obtain ⟨h, rfl, hjoin⟩ := (merging_ok quote hnames).mp hm
    exact ⟨h, rfl, hjoin⟩
  · rintro ⟨h, rfl, hjoin⟩
    exact ⟨named ps h, (merging_ok quote hnames).mpr ⟨h, rfl, hjoin⟩, rfl⟩

theorem mergeCaught_eq (right left : Caught) : mergeCaught right left = dictUpdate right left :=
  rfl

theorem merged_laws (hnames : (ps.map Prod.fst).Nodup) (hlawful : ∀ p ∈ ps, p.2.Lawful) :
    Laws (Merged ps) (WarnedCombine (merging quote ps)) (.dict []) where
  one_good := ⟨fun _ => none, [], named_none.symm, fun _ _ _ h => by cases h⟩
  closed := by
    rintro _ _ c ⟨f, cf, rfl, hf⟩ ⟨g, cg, rfl, hg⟩ hc
    obtain ⟨h, rfl, hjoin⟩ := (merge_ok quote hnames).mp hc
    refine ⟨h, _, rfl, fun p hp => ?_⟩
    exact joinItem_standsFor (hlawful p hp) (hf p hp) (hg p hp) (hjoin p hp)
  left := by
    rintro _ ⟨f, caught, rfl, hf⟩
    have hmerge := (merge_ok quote hnames (f := fun _ => none) (g := f) (s := []) (t := caught)
      (v := (named ps f).withCaught caught)).mpr
    rw [named_none, mergeCaught_eq, dictUpdate_nil] at hmerge
    exact hmerge ⟨f, rfl, fun p _ => rfl⟩
  right := by
    rintro _ ⟨f, caught, rfl, hf⟩
    have hmerge := (merge_ok quote hnames (f := f) (g := fun _ => none) (s := caught) (t := [])
      (v := (named ps f).withCaught caught)).mpr
    rw [named_none, mergeCaught_eq, nil_dictUpdate] at hmerge
    refine hmerge ⟨f, rfl, fun p _ => ?_⟩
    cases f p.1 <;> rfl
  assoc := by
    rintro _ _ _ ⟨f, cf, rfl, hf⟩ ⟨g, cg, rfl, hg⟩ ⟨k, ck, rfl, hk⟩ v
    have hcaught : mergeCaught ck (mergeCaught cg cf) = mergeCaught (mergeCaught ck cg) cf := by
      simp only [mergeCaught_eq, dictUpdate_assoc]
    have hassoc : ∀ p ∈ ps, ∀ r, _ := fun p hp =>
      joinItem_assoc (hlawful p hp) (hf p hp) (hg p hp) (hk p hp)
    rw [ok_of_bind, ok_of_bind]
    constructor
    · rintro ⟨m, hm, hv⟩
      obtain ⟨h, rfl, hjoin⟩ := (merge_ok quote hnames).mp hm
      obtain ⟨r, rfl, hlast⟩ := (merge_ok quote hnames).mp hv
      have hmid : ∀ p ∈ ps, ∃ m, joinItem p.2.combine (g p.1) (k p.1) = .ok m ∧
          joinItem p.2.combine (f p.1) m = .ok (r p.1) := fun p hp =>
        ok_of_bind.mp ((hassoc p hp _).mp (ok_of_bind.mpr ⟨h p.1, hjoin p hp, hlast p hp⟩))
      obtain ⟨h', hh'⟩ := exists_values hnames hmid
      refine ⟨_, (merge_ok quote hnames).mpr ⟨h', rfl, fun p hp => (hh' p hp).1⟩, ?_⟩
      rw [hcaught]
      exact (merge_ok quote hnames).mpr ⟨r, rfl, fun p hp => (hh' p hp).2⟩
    · rintro ⟨m, hm, hv⟩
      obtain ⟨h, rfl, hjoin⟩ := (merge_ok quote hnames).mp hm
      obtain ⟨r, rfl, hlast⟩ := (merge_ok quote hnames).mp hv
      have hmid : ∀ p ∈ ps, ∃ m, joinItem p.2.combine (f p.1) (g p.1) = .ok m ∧
          joinItem p.2.combine m (k p.1) = .ok (r p.1) := fun p hp =>
        ok_of_bind.mp ((hassoc p hp _).mpr (ok_of_bind.mpr ⟨h p.1, hjoin p hp, hlast p hp⟩))
      obtain ⟨h', hh'⟩ := exists_values hnames hmid
      refine ⟨_, (merge_ok quote hnames).mpr ⟨h', rfl, fun p hp => (hh' p hp).1⟩, ?_⟩
      rw [← hcaught]
      exact (merge_ok quote hnames).mpr ⟨r, rfl, fun p hp => (hh' p hp).2⟩

end Laws

/-! ### A collated plan is lawful -/

section Accepted

variable (quote : String → String) {plans : List (String × GivenPlan α σ)} {c : Collating α σ}

theorem Accepted.heldNames (h : Accepted plans c) : (c.fixed.map Prod.fst).Nodup := by
  rw [h.held, fixedOf_names h.fixed]
  exact h.names

theorem Accepted.mem_fixed (h : Accepted plans c) {name : String} {p : TaskPlan α σ} :
    (name, p) ∈ c.fixed ↔ (name, .plan p) ∈ plans := by
  rw [h.held]
  exact mem_fixedOf

/-- Each of its tasks is one of a plan's. -/
theorem Accepted.mem_tasks (h : Accepted plans c) {t : Task} (ht : t ∈ c.tasks) :
    ∃ name p, (name, p) ∈ c.fixed ∧ ∃ u ∈ p.tasks, u.partition = t.partition := by
  have hmem : t.partition ∈ c.tasks.map (·.partition) := List.mem_map_of_mem ht
  rw [h.partitions] at hmem
  obtain ⟨⟨name, plan⟩, he, hpart⟩ := List.mem_flatMap.mp hmem
  obtain ⟨u, hu, hsame⟩ := List.mem_map.mp hpart
  cases plan with
  | staged services => exact (h.fixed _ he).elim
  | plan p => exact ⟨name, p, h.mem_fixed.mpr he, u, mem_ordered.mp hu, hsame⟩

/-- The dict of one plan. -/
theorem Accepted.named_single (h : Accepted plans c) {name : String} {p : TaskPlan α σ}
    (hp : (name, p) ∈ c.fixed) (v : PyValue α) :
    named c.fixed (fun n => if n = name then some v else none) = .dict [(name, v)] :=
  congrArg PyValue.dict (dictOf_single h.heldNames (List.mem_map_of_mem hp) v)

theorem onValue_eq (name : String) (v : PyValue α) :
    (v.onValue fun v => .dict [(name, v)]) =
      (PyValue.dict [(name, v.bare)]).withCaught v.split.2 := rfl

/-- What a task of it gives. -/
theorem Accepted.call_ok (h : Accepted plans c) {name : String} {p : TaskPlan α σ}
    (hp : (name, p) ∈ c.fixed) {t u : Task} (hu : u ∈ p.tasks) (hsame : u.partition = t.partition)
    (services : List (ServiceSpec σ)) {v : PyValue α} :
    (c.plan quote services).process.call t.partition = .ok v ↔
      ∃ w, p.process.call t.partition = .ok w ∧
        v = (named c.fixed fun n => if n = name then some w.bare else none).withCaught
          w.split.2 := by
  rw [← hsame, h.call_eq quote (h.mem_fixed.mp hp) hu services, map_ok_iff]
  apply exists_congr
  intro w
  rw [h.named_single hp, ← onValue_eq, eq_comm (a := v)]

theorem Accepted.merged (h : Accepted plans c) (hlawful : ∀ p ∈ c.fixed, p.2.Lawful)
    (services : List (ServiceSpec σ)) {v : PyValue α} (hv : (c.plan quote services).Reached v) :
    Merged c.fixed v := by
  induction hv with
  | empty hempty =>
      obtain rfl := Except.ok.inj hempty
      exact (merged_laws quote h.heldNames hlawful).one_good
  | @task t v ht hv =>
      obtain ⟨name, p, hp, u, hu, hsame⟩ := h.mem_tasks ht
      obtain ⟨w, hw, rfl⟩ := (h.call_ok quote hp hu hsame services).mp hv
      refine ⟨_, _, rfl, fun q hq x hx => ?_⟩
      by_cases hname : q.1 = name
      · rw [if_pos hname] at hx
        have hplan : q.2 = p := by
          have hq' := lookup_of_nodup h.heldNames hq
          rw [hname, lookup_of_nodup h.heldNames hp] at hq'
          exact (Option.some.inj hq').symm
        refine ⟨w, ?_, Option.some.inj hx⟩
        rw [hplan]
        rw [← hsame] at hw
        exact TaskPlan.Reached.task hu hw
      · rw [if_neg hname] at hx
        cases hx
  | combine _ _ hc iha ihb => exact (merged_laws quote h.heldNames hlawful).closed iha ihb hc

theorem merging_plain (ps : List (String × TaskPlan α σ)) {a b v : PyValue α}
    (h : merging quote ps a b = .ok v) : v.Plain := by
  obtain ⟨_, -, h⟩ := ok_of_bind.mp h
  obtain ⟨_, -, h⟩ := ok_of_bind.mp h
  obtain ⟨_, -, h⟩ := ok_of_bind.mp h
  obtain rfl := Except.ok.inj h
  trivial

/-- **A collated plan may be collated.** -/
theorem Accepted.lawful (h : Accepted plans c) (hlawful : ∀ p ∈ c.fixed, p.2.Lawful)
    (services : List (ServiceSpec σ)) : (c.plan quote services).Lawful := by
  have hlaws := merged_laws quote h.heldNames hlawful
  have hmerged := fun v => h.merged quote hlawful services (v := v)
  refine ⟨⟨.dict [], rfl, ?_⟩, ?_, ?_⟩
  · exact ⟨TaskPlan.Reached.empty rfl, fun ha hb hc => TaskPlan.Reached.combine ha hb hc,
      fun ha => hlaws.left (hmerged _ ha), fun ha => hlaws.right (hmerged _ ha),
      fun ha hb hc => hlaws.assoc (hmerged _ ha) (hmerged _ hb) (hmerged _ hc)⟩
  · refine Or.inr ⟨merging quote c.fixed, _, rfl, rfl, ?_, fun a b v => merging_plain quote _⟩
    intro v hv
    obtain ⟨f, caught, rfl, -⟩ := hmerged v hv
    unfold PyValue.bare
    rw [named_plain.split_withCaught]
    exact named_plain
  · intro fn hfn
    obtain rfl := Option.some.inj hfn
    rfl

end Accepted

end Graphed
