import Graphed.Execution.Collated

/-!
# Plans side by side

A tree of a collated plan is a tree of each of its plans, with the tasks of the others left out. So
it gives each plan's value under its name, for the plans that have tasks.
-/

namespace Graphed

variable {α σ : Type}

/-! ### Trees with tasks left out -/

namespace Reduction

/-- The tree with the other tasks left out. -/
def only (keep : Task → Bool) : Reduction → Reduction
  | empty => empty
  | task t => if keep t = true then task t else empty
  | merge left right => merge (left.only keep) (right.only keep)

theorem leaves_only (keep : Task → Bool) (tree : Reduction) :
    (tree.only keep).leaves = tree.leaves.filter keep := by
  induction tree with
  | empty => rfl
  | task t =>
      unfold only
      by_cases h : keep t = true
      · rw [if_pos h]
        simp [leaves, h]
      · rw [if_neg h]
        simp [leaves, h]
  | merge left right ihl ihr =>
      change (left.only keep).leaves ++ (right.only keep).leaves = _
      rw [ihl, ihr, ← List.filter_append]
      rfl

/-- One task after the other. -/
def chain : List Task → Reduction
  | [] => empty
  | t :: tasks => merge (task t) (chain tasks)

theorem leaves_chain (tasks : List Task) : (chain tasks).leaves = tasks := by
  induction tasks with
  | nil => rfl
  | cons t tasks ih => exact congrArg (t :: ·) ih

end Reduction

section Rows

variable {p : TaskPlan α σ} {keep : Task → Bool} {tree left right : Reduction}
  {o : Option (PyValue α)}

/-- What a tree gives of one plan: nothing when none of its tasks is the plan's. -/
def Row (p : TaskPlan α σ) (keep : Task → Bool) (tree : Reduction) (o : Option (PyValue α)) :
    Prop :=
  if tree.leaves.any keep = true then
    ∃ w, (tree.only keep).reduce p.plan = .ok w ∧ o = some w.bare
  else o = none

theorem reduce_untouched {one : PyValue α} (hempty : p.empty = .ok one)
    (hlaws : Laws p.Reached p.combine one) (h : tree.leaves.any keep = false) :
    (tree.only keep).reduce p.plan = .ok one := by
  induction tree with
  | empty => exact hempty
  | task t =>
      have hnot : keep t = false := by simpa [Reduction.leaves] using h
      unfold Reduction.only
      rw [hnot, if_neg Bool.false_ne_true]
      exact hempty
  | merge left right ihl ihr =>
      rw [Reduction.leaves, List.any_append, Bool.or_eq_false_iff] at h
      change ((left.only keep).reduce p.plan >>= fun a => (right.only keep).reduce p.plan >>=
        fun b => p.combine a b) = _
      rw [ihl h.1, ihr h.2]
      exact hlaws.left hlaws.one_good

/-- The plan lists the tasks that are kept. -/
def Lists (p : TaskPlan α σ) (keep : Task → Bool) (tree : Reduction) : Prop :=
  ∀ t ∈ tree.leaves, keep t = true → ∃ u ∈ p.tasks, u.partition = t.partition

theorem lists_left (h : Lists p keep (.merge left right)) : Lists p keep left :=
  fun t ht => h t (List.mem_append_left _ ht)

theorem lists_right (h : Lists p keep (.merge left right)) : Lists p keep right :=
  fun t ht => h t (List.mem_append_right _ ht)

theorem lists_reached (h : Lists p keep tree) :
    ∀ t ∈ (tree.only keep).leaves, ∀ v, p.process.call t.partition = .ok v → p.Reached v := by
  intro t ht v hv
  rw [Reduction.leaves_only] at ht
  obtain ⟨u, hu, hsame⟩ := h t (List.mem_filter.mp ht).1 (List.mem_filter.mp ht).2
  rw [← hsame] at hv
  exact TaskPlan.Reached.task hu hv

theorem reduce_reached (h : p.Associative) (hlists : Lists p keep tree) {w : PyValue α}
    (hw : (tree.only keep).reduce p.plan = .ok w) : p.Reached w := by
  obtain ⟨one, hempty, hlaws⟩ := h
  have hall := (reduce_agree hempty hlaws (lists_reached hlists) w).mp hw
  refine reduceAll_good hlaws ?_ hall
  intro x hx v hv
  obtain ⟨t, ht, rfl⟩ := List.mem_map.mp hx
  exact (lists_reached hlists) t ht v hv

/-- What a merge gives of a plan is what its sides give, joined. -/
theorem row_merge (h : p.Lawful) (hlists : Lists p keep (.merge left right)) :
    Row p keep (.merge left right) o ↔
      ∃ x y, Row p keep left x ∧ Row p keep right y ∧ joinItem p.combine x y = .ok o := by
  obtain ⟨one, hempty, hlaws⟩ := h.associative
  have hreach : ∀ {tree : Reduction}, Lists p keep tree → ∀ {w},
      (tree.only keep).reduce p.plan = .ok w → p.Reached w :=
    fun hlists _ hw => reduce_reached h.associative hlists hw
  have hreduce : ∀ w, ((Reduction.merge left right).only keep).reduce p.plan = .ok w ↔
      ∃ a, (left.only keep).reduce p.plan = .ok a ∧ ∃ b, (right.only keep).reduce p.plan = .ok b ∧
        p.combine a b = .ok w := by
    intro w
    change ((left.only keep).reduce p.plan >>= fun a => (right.only keep).reduce p.plan >>=
      fun b => p.combine a b) = _ ↔ _
    simp only [ok_of_bind]
  have hany : (Reduction.merge left right).leaves.any keep =
      (left.leaves.any keep || right.leaves.any keep) := List.any_append
  unfold Row
  simp only [hreduce, hany]
  cases hl : left.leaves.any keep with
  | false =>
      have hone := reduce_untouched hempty hlaws hl
      cases hr : right.leaves.any keep with
      | false =>
          simp only [Bool.or_self, Bool.false_eq_true, ↓reduceIte]
          constructor
          · rintro rfl
            exact ⟨none, none, rfl, rfl, rfl⟩
          · rintro ⟨_, _, rfl, rfl, ho⟩
            exact (Except.ok.inj ho).symm
      | true =>
          simp only [Bool.or_true, Bool.false_eq_true, ↓reduceIte, hone]
          constructor
          · rintro ⟨w, ⟨a, ha, b, hb, hw⟩, rfl⟩
            obtain rfl := Except.ok.inj ha
            rw [hlaws.left (hreach (lists_right hlists) hb)] at hw
            obtain rfl := Except.ok.inj hw
            exact ⟨none, some b.bare, rfl, ⟨b, hb, rfl⟩, rfl⟩
          · rintro ⟨_, _, rfl, ⟨b, hb, rfl⟩, ho⟩
            exact ⟨b, ⟨one, rfl, b, hb, hlaws.left (hreach (lists_right hlists) hb)⟩,
              (Except.ok.inj ho).symm⟩
  | true =>
      cases hr : right.leaves.any keep with
      | false =>
          have hone := reduce_untouched hempty hlaws hr
          simp only [Bool.true_or, Bool.false_eq_true, ↓reduceIte, hone]
          constructor
          · rintro ⟨w, ⟨a, ha, b, hb, hw⟩, rfl⟩
            obtain rfl := Except.ok.inj hb
            rw [hlaws.right (hreach (lists_left hlists) ha)] at hw
            obtain rfl := Except.ok.inj hw
            exact ⟨some a.bare, none, ⟨a, ha, rfl⟩, rfl, rfl⟩
          · rintro ⟨_, _, ⟨a, ha, rfl⟩, rfl, ho⟩
            exact ⟨a, ⟨a, ha, one, rfl, hlaws.right (hreach (lists_left hlists) ha)⟩,
              (Except.ok.inj ho).symm⟩
      | true =>
          simp only [Bool.or_self, ↓reduceIte]
          constructor
          · rintro ⟨w, ⟨a, ha, b, hb, hw⟩, rfl⟩
            refine ⟨some a.bare, some b.bare, ⟨a, ha, rfl⟩, ⟨b, hb, rfl⟩, ?_⟩
            have hbare := (combine_bare_ok h (hreach (lists_left hlists) ha)
              (hreach (lists_right hlists) hb)).mpr ⟨w, hw, rfl⟩
            rw [joinItem, hbare]
            rfl
          · rintro ⟨_, _, ⟨a, ha, rfl⟩, ⟨b, hb, rfl⟩, ho⟩
            obtain ⟨v, hv, rfl⟩ := map_ok_iff.mp ho
            obtain ⟨w, hw, rfl⟩ := (combine_bare_ok h (hreach (lists_left hlists) ha)
              (hreach (lists_right hlists) hb)).mp hv
            exact ⟨w, ⟨a, ha, b, hb, hw⟩, rfl⟩

end Rows

/-! ### The collated tree -/

section Collated

variable (quote : String → String) {plans : List (String × GivenPlan α σ)} {c : Collating α σ}
  {tree : Reduction}

/-- Whether a task goes to this plan. -/
def Collating.owns (c : Collating α σ) (name : String) (t : Task) : Bool :=
  c.route.lookup t.partition.fileTree == some name

theorem Accepted.owns_iff (h : Accepted plans c) {name : String} {p : TaskPlan α σ}
    (hp : (name, p) ∈ c.fixed) {t u : Task} (hu : u ∈ p.tasks) (hsame : u.partition = t.partition)
    (other : String) : c.owns other t = true ↔ other = name := by
  unfold Collating.owns
  rw [← hsame, h.route_of_mem (h.mem_fixed.mp hp) hu, beq_iff_eq, Option.some.injEq, eq_comm]

/-- The tasks of a tree are the collated plan's. -/
def Covers (c : Collating α σ) (tree : Reduction) : Prop :=
  ∀ t ∈ tree.leaves, t.partition ∈ c.tasks.map (·.partition)

theorem Accepted.mem_partitions (h : Accepted plans c) {t : Task}
    (ht : t.partition ∈ c.tasks.map (·.partition)) :
    ∃ name p, (name, p) ∈ c.fixed ∧ ∃ u ∈ p.tasks, u.partition = t.partition := by
  obtain ⟨t', ht', hsame⟩ := List.mem_map.mp ht
  obtain ⟨name, p, hp, u, hu, hsame'⟩ := h.mem_tasks ht'
  exact ⟨name, p, hp, u, hu, hsame'.trans hsame⟩

theorem Accepted.plan_unique (h : Accepted plans c) {name : String} {p q : TaskPlan α σ}
    (hp : (name, p) ∈ c.fixed) (hq : (name, q) ∈ c.fixed) : p = q := by
  have hlook := lookup_of_nodup h.heldNames hp
  rw [lookup_of_nodup h.heldNames hq] at hlook
  exact (Option.some.inj hlook).symm

theorem Accepted.lists (h : Accepted plans c) {name : String} {p : TaskPlan α σ}
    (hp : (name, p) ∈ c.fixed) (hcovers : Covers c tree) : Lists p (c.owns name) tree := by
  intro t ht howns
  obtain ⟨name', p', hp', u, hu, hsame⟩ := h.mem_partitions (hcovers t ht)
  obtain rfl := (h.owns_iff hp' hu hsame name).mp howns
  obtain rfl := h.plan_unique hp hp'
  exact ⟨u, hu, hsame⟩

theorem named_inj {ps : List (String × TaskPlan α σ)} {f g : String → Option (PyValue α)}
    (h : named ps f = named ps g) : ∀ p ∈ ps, f p.1 = g p.1 := by
  intro p hp
  have hlook := congrArg (List.lookup p.1) (PyValue.dict.inj h)
  rwa [lookup_dictOf, lookup_dictOf, if_pos (List.mem_map_of_mem hp),
    if_pos (List.mem_map_of_mem hp)] at hlook

/-- **A collated tree gives what its plans' trees give**, by induction on the tree. -/
theorem Accepted.reduce_bare (h : Accepted plans c) (hlawful : ∀ p ∈ c.fixed, p.2.Lawful)
    (services : List (ServiceSpec σ)) (hcovers : Covers c tree) {d : PyValue α} :
    (tree.reduce (c.plan quote services).plan).map PyValue.bare = .ok d ↔
      ∃ f : String → Option (PyValue α), d = named c.fixed f ∧
        ∀ p ∈ c.fixed, Row p.2 (c.owns p.1) tree (f p.1) := by
  induction tree generalizing d with
  | empty =>
      change Except.ok (PyValue.dict []) = .ok d ↔ _
      constructor
      · intro hd
        obtain rfl := Except.ok.inj hd
        exact ⟨fun _ => none, named_none.symm, fun p _ => rfl⟩
      · rintro ⟨f, rfl, hrows⟩
        have hnone : named c.fixed f = named c.fixed fun _ => none := by
          unfold named
          rw [dictOf_congr]
          intro n hn
          obtain ⟨p, hp, rfl⟩ := List.mem_map.mp hn
          exact hrows p hp
        rw [hnone, named_none]
  | task t =>
      obtain ⟨name, p, hp, u, hu, hsame⟩ := h.mem_partitions (hcovers t List.mem_cons_self)
      have howns := h.owns_iff hp hu hsame
      have hrow : ∀ q ∈ c.fixed, ∀ o, Row q.2 (c.owns q.1) (.task t) o ↔
          if q.1 = name then ∃ w, p.process.call t.partition = .ok w ∧ o = some w.bare
          else o = none := by
        intro q hq o
        unfold Row
        have hany : ((Reduction.task t).leaves.any (c.owns q.1) = true) ↔ q.1 = name := by
          rw [← howns q.1]
          simp [Reduction.leaves]
        simp only [hany]
        split
        · rename_i hname
          obtain rfl : q.2 = p := h.plan_unique (hname ▸ hq) hp
          have honly : (Reduction.task t).only (c.owns q.1) = .task t :=
            if_pos ((howns q.1).mpr hname)
          rw [honly]
          rfl
        · exact Iff.rfl
      change ((c.plan quote services).process.call t.partition).map PyValue.bare = .ok d ↔ _
      rw [map_ok_iff]
      constructor
      · rintro ⟨v, hv, rfl⟩
        obtain ⟨w, hw, rfl⟩ := (h.call_ok quote hp hu hsame services).mp hv
        refine ⟨fun n => if n = name then some w.bare else none, ?_, ?_⟩
        · unfold PyValue.bare
          rw [named_plain.split_withCaught]
        · intro q hq
          rw [hrow q hq]
          split
          · rename_i hname
            exact ⟨w, hw, if_pos hname⟩
          · rename_i hname
            exact if_neg hname
      · rintro ⟨f, rfl, hrows⟩
        have hmine := (hrow _ hp _).mp (hrows _ hp)
        rw [if_pos rfl] at hmine
        obtain ⟨w, hw, hf⟩ := hmine
        refine ⟨_, (h.call_ok quote hp hu hsame services).mpr ⟨w, hw, rfl⟩, ?_⟩
        unfold PyValue.bare
        rw [named_plain.split_withCaught]
        unfold named
        dsimp only
        rw [dictOf_congr]
        intro n hn
        obtain ⟨q, hq, rfl⟩ := List.mem_map.mp hn
        have hother := (hrow q hq _).mp (hrows q hq)
        by_cases hname : q.1 = name
        · rw [if_pos hname, hname]
          exact hf.symm
        · rw [if_neg hname] at hother ⊢
          exact hother.symm
  | merge left right ihl ihr =>
      have hl : Covers c left := fun t ht => hcovers t (List.mem_append_left _ ht)
      have hr : Covers c right := fun t ht => hcovers t (List.mem_append_right _ ht)
      have hmerged : ∀ {tree : Reduction}, Covers c tree → ∀ {v},
          tree.reduce (c.plan quote services).plan = .ok v → Merged c.fixed v := by
        intro tree htree v hv
        refine h.merged quote hlawful services ?_
        have hassoc := (h.lawful quote hlawful services).associative
        obtain ⟨one, hempty, hlaws⟩ := hassoc
        have hcalls : ∀ t ∈ tree.leaves, ∀ v,
            (c.plan quote services).process.call t.partition = .ok v →
              (c.plan quote services).Reached v := by
          intro t ht v hv
          obtain ⟨t', ht', hsame⟩ := List.mem_map.mp (htree t ht)
          rw [← hsame] at hv
          exact TaskPlan.Reached.task ht' hv
        refine reduceAll_good hlaws ?_ ((reduce_agree hempty hlaws hcalls v).mp hv)
        intro x hx v hv
        obtain ⟨t, ht, rfl⟩ := List.mem_map.mp hx
        exact hcalls t ht v hv
      have hbare : ∀ {f : String → Option (PyValue α)} {caught : Caught},
          ((named c.fixed f).withCaught caught).bare = named c.fixed f := by
        intro f caught
        unfold PyValue.bare
        rw [named_plain.split_withCaught]
      change ((left.reduce _ >>= fun a => right.reduce _ >>= fun b =>
        WarnedCombine (merging quote c.fixed) a b).map PyValue.bare) = _ ↔ _
      rw [map_ok_iff]
      constructor
      · rintro ⟨v, hv, rfl⟩
        obtain ⟨a, ha, hv⟩ := ok_of_bind.mp hv
        obtain ⟨b, hb, hv⟩ := ok_of_bind.mp hv
        obtain ⟨f, s, rfl, -⟩ := hmerged hl ha
        obtain ⟨g, t, rfl, -⟩ := hmerged hr hb
        obtain ⟨k, rfl, hjoin⟩ := (merge_ok quote h.heldNames).mp hv
        obtain ⟨f', hf', hrowsl⟩ := (ihl hl).mp (map_ok_iff.mpr ⟨_, ha, hbare⟩)
        obtain ⟨g', hg', hrowsr⟩ := (ihr hr).mp (map_ok_iff.mpr ⟨_, hb, hbare⟩)
        refine ⟨k, hbare, fun p hp => ?_⟩
        refine (row_merge (hlawful p hp) (h.lists hp hcovers)).mpr
          ⟨f p.1, g p.1, ?_, ?_, hjoin p hp⟩
        · rw [named_inj hf' p hp]
          exact hrowsl p hp
        · rw [named_inj hg' p hp]
          exact hrowsr p hp
      · rintro ⟨k, rfl, hrows⟩
        have hsides : ∀ p ∈ c.fixed, ∃ x y, Row p.2 (c.owns p.1) left x ∧
            Row p.2 (c.owns p.1) right y ∧ joinItem p.2.combine x y = .ok (k p.1) := fun p hp =>
          (row_merge (hlawful p hp) (h.lists hp hcovers)).mp (hrows p hp)
        obtain ⟨f, hf⟩ := exists_values h.heldNames hsides
        obtain ⟨g, hg⟩ := exists_values h.heldNames hf
        obtain ⟨a, ha, hbarea⟩ := map_ok_iff.mp ((ihl hl).mpr ⟨f, rfl, fun p hp => (hg p hp).1⟩)
        obtain ⟨b, hb, hbareb⟩ := map_ok_iff.mp ((ihr hr).mpr ⟨g, rfl, fun p hp => (hg p hp).2.1⟩)
        obtain ⟨f', s, rfl, -⟩ := hmerged hl ha
        obtain ⟨g', t, rfl, -⟩ := hmerged hr hb
        rw [hbare] at hbarea hbareb
        rw [hbarea] at ha
        rw [hbareb] at hb
        have hmerge := (merge_ok quote h.heldNames (s := s) (t := t)).mpr
          ⟨k, rfl, fun p hp => (hg p hp).2.2⟩
        exact ⟨_, ok_of_bind.mpr ⟨_, ha, ok_of_bind.mpr ⟨_, hb, hmerge⟩⟩, hbare⟩

end Collated

/-! ### Values -/

section Values

variable (quote : String → String) {plans : List (String × GivenPlan α σ)} {c : Collating α σ}
  {tree : Reduction} {name : String} {p : TaskPlan α σ}

/-- Of the collated tasks, a plan's own are its tasks in key order. -/
theorem Accepted.own_partitions (h : Accepted plans c) (hp : (name, p) ∈ c.fixed)
    (htree : tree.leaves = c.tasks) :
    (tree.only (c.owns name)).leaves.map (·.partition) = p.ordered.map (·.partition) := by
  rw [Reduction.leaves_only, htree]
  have hfilter : (c.tasks.filter (c.owns name)).map (·.partition) =
      (c.tasks.map (·.partition)).filter fun part =>
        c.route.lookup part.fileTree == some name := by
    rw [List.filter_map]
    rfl
  rw [hfilter, h.partitions, List.filter_flatMap]
  have hown : ∀ e ∈ plans, ∀ t ∈ e.2.ordered,
      (c.route.lookup t.partition.fileTree == some name) = true ↔ e.1 = name := by
    rintro ⟨other, plan⟩ he t ht
    cases plan with
    | staged services => cases ht
    | plan q =>
        rw [h.route_of_mem he (mem_ordered.mp ht), beq_iff_eq, Option.some.injEq]
  rw [flatMap_single h.names (h.mem_fixed.mp hp)]
  · apply List.filter_eq_self.mpr
    intro part hpart
    obtain ⟨t, ht, rfl⟩ := List.mem_map.mp hpart
    exact (hown _ (h.mem_fixed.mp hp) t ht).mpr rfl
  · intro e he hne
    rw [List.filter_eq_nil_iff]
    intro part hpart
    obtain ⟨t, ht, rfl⟩ := List.mem_map.mp hpart
    exact fun hyes => hne ((hown e he t ht).mp hyes)

/-- What a plan's own tasks give, ended, is the plan's value. -/
theorem Accepted.gives_iff (h : Accepted plans c) (hp : (name, p) ∈ c.fixed) (hlawful : p.Lawful)
    (htree : tree.leaves = c.tasks) {r : PyValue α} :
    p.Gives r ↔ ∃ w, (tree.only (c.owns name)).reduce p.plan = .ok w ∧ p.finalized w = .ok r := by
  have hcovers : Covers c tree := fun t ht => List.mem_map_of_mem (htree ▸ ht)
  have hreached := lists_reached (h.lists hp hcovers)
  have hown := h.own_partitions hp htree
  have hrun : ∀ other : Reduction, other.leaves = p.ordered →
      (p.run other = .ok r ↔
        ∃ w, (tree.only (c.owns name)).reduce p.plan = .ok w ∧ p.finalized w = .ok r) := by
    intro other hother
    have hsame : (tree.only (c.owns name)).leaves.map (·.partition) =
        other.leaves.map (·.partition) := by rw [hown, hother]
    have hagree := reduce_congr hlawful.associative hreached hsame
    change (other.reduce p.plan >>= p.finalized) = _ ↔ _
    rw [ok_of_bind]
    apply exists_congr
    intro w
    rw [hagree w]
  constructor
  · intro hgives
    exact (hrun _ (Reduction.leaves_chain _)).mp (hgives _ (Reduction.leaves_chain _))
  · exact fun hw other hother => (hrun other hother).mpr hw

theorem finalizeItem_ok {finalizers : List (String × Finalize α)}
    (htruthy : ∀ fn, p.finalize = some fn → fn.truthy = true)
    (hlook : finalizers.lookup name = p.finalize) {x : PyValue α} {out : String × PyValue α} :
    finalizeItem finalizers (name, x) = .ok out ↔
      ∃ y, p.finalized x = .ok y ∧ out = (name, y) := by
  unfold finalizeItem TaskPlan.finalized
  dsimp only
  rw [hlook]
  cases hfin : p.finalize with
  | none =>
      constructor
      · intro h
        obtain rfl := Except.ok.inj h
        exact ⟨x, rfl, rfl⟩
      · rintro ⟨_, h, rfl⟩
        obtain rfl := Except.ok.inj h
        rfl
  | some fn =>
      dsimp only
      rw [if_pos (htruthy fn hfin), map_ok_iff]
      simp only [eq_comm]

theorem finalizeItem_name {finalizers : List (String × Finalize α)}
    {item out : String × PyValue α} (h : finalizeItem finalizers item = .ok out) :
    out.1 = item.1 := by
  unfold finalizeItem at h
  split at h
  · obtain rfl := Except.ok.inj h
    rfl
  · split at h
    · obtain ⟨y, -, rfl⟩ := map_ok_iff.mp h
      rfl
    · obtain rfl := Except.ok.inj h
      rfl

/-- Each name's value in its final form. -/
theorem Accepted.finalized_named (h : Accepted plans c)
    (htruthy : ∀ p ∈ c.fixed, ∀ fn, p.2.finalize = some fn → fn.truthy = true)
    (services : List (ServiceSpec σ)) {f : String → Option (PyValue α)} {v r : PyValue α}
    (hv : v.bare = named c.fixed f) :
    (c.plan quote services).finalized v = .ok r ↔ ∃ k : String → Option (PyValue α),
      r = named c.fixed k ∧ ∀ p ∈ c.fixed, (f p.1 = none → k p.1 = none) ∧
        ∀ x, f p.1 = some x → ∃ y, p.2.finalized x = .ok y ∧ k p.1 = some y := by
  have hexists : ∀ p ∈ c.fixed, ∃ fin, fin = p.2.finalize := fun p _ => ⟨_, rfl⟩
  obtain ⟨fz, hfz⟩ := exists_values h.heldNames hexists
  have hfinalizers : (c.fixed.filterMap fun p => p.2.finalize.map (p.1, ·)) =
      dictOf (c.fixed.map Prod.fst) fz := by
    rw [dictOf_map]
    apply List.filterMap_congr
    intro p hp
    rw [hfz p hp]
  have hlook : ∀ p ∈ c.fixed, (dictOf (c.fixed.map Prod.fst) fz).lookup p.1 = p.2.finalize := by
    intro p hp
    rw [lookup_dictOf, if_pos (List.mem_map_of_mem hp), hfz p hp]
  change (WarnedFinalize (if (c.fixed.filterMap fun p => p.2.finalize.map (p.1, ·)) = [] then none
    else some (CollatedFinalize _))).call v = _ ↔ _
  rw [hfinalizers]
  split
  · rename_i hnil
    change Except.ok v.bare = _ ↔ _
    have hnone : ∀ p ∈ c.fixed, ∀ x, p.2.finalized x = .ok x := by
      intro p hp x
      have hfin := hlook p hp
      rw [hnil] at hfin
      unfold TaskPlan.finalized
      rw [← hfin]
      rfl
    rw [hv]
    constructor
    · intro hr
      refine ⟨f, (Except.ok.inj hr).symm, fun p hp => ⟨id, fun x hx => ⟨x, hnone p hp x, hx⟩⟩⟩
    · rintro ⟨k, rfl, hall⟩
      unfold named
      rw [dictOf_congr]
      intro n hn
      obtain ⟨p, hp, rfl⟩ := List.mem_map.mp hn
      cases hf : f p.1 with
      | none => exact ((hall p hp).1 hf).symm
      | some x =>
          obtain ⟨y, hy, hk⟩ := (hall p hp).2 x hf
          obtain rfl := Except.ok.inj ((hnone p hp x).symm.trans hy)
          exact hk.symm
  · change (v.bare.items >>= fun items =>
      items.mapM (finalizeItem (dictOf (c.fixed.map Prod.fst) fz)) >>= fun items =>
        .ok (PyValue.dict items)) = _ ↔ _
    rw [hv]
    change ((dictOf (c.fixed.map Prod.fst) f).mapM
      (finalizeItem (dictOf (c.fixed.map Prod.fst) fz)) >>= fun items =>
        .ok (PyValue.dict items)) = _ ↔ _
    rw [ok_of_bind]
    constructor
    · rintro ⟨items, hitems, hr⟩
      obtain ⟨k, rfl, hall⟩ := (mapM_dictOf h.heldNames _ fun _ _ => finalizeItem_name).mp hitems
      refine ⟨k, (Except.ok.inj hr).symm, fun p hp => ?_⟩
      obtain ⟨hnone, hsome⟩ := hall p.1 (List.mem_map_of_mem hp)
      refine ⟨hnone, fun x hx => ?_⟩
      obtain ⟨y, hy, hk⟩ := hsome x hx
      obtain ⟨z, hz, hout⟩ := (finalizeItem_ok (htruthy p hp) (hlook p hp)).mp hy
      exact ⟨y, by rw [hz, (Prod.mk.inj hout).2], hk⟩
    · rintro ⟨k, rfl, hall⟩
      refine ⟨_, (mapM_dictOf h.heldNames _ fun _ _ => finalizeItem_name).mpr ⟨k, rfl, ?_⟩, rfl⟩
      intro n hn
      obtain ⟨p, hp, rfl⟩ := List.mem_map.mp hn
      refine ⟨(hall p hp).1, fun x hx => ?_⟩
      obtain ⟨y, hy, hk⟩ := (hall p hp).2 x hx
      exact ⟨y, (finalizeItem_ok (htruthy p hp) (hlook p hp)).mpr ⟨y, hy, rfl⟩, hk⟩

/-- A collated plan's value has each plan's under its name, for the plans that have tasks. -/
theorem Accepted.run_ok (h : Accepted plans c) (hlawful : ∀ p ∈ c.fixed, p.2.Lawful)
    (services : List (ServiceSpec σ)) (htree : tree.leaves = c.tasks) {r : PyValue α} :
    (c.plan quote services).run tree = .ok r ↔ ∃ k : String → Option (PyValue α),
      r = named c.fixed k ∧ ∀ p ∈ c.fixed,
        if p.2.tasks = [] then k p.1 = none else ∃ x, k p.1 = some x ∧ p.2.Gives x := by
  have hcovers : Covers c tree := fun t ht => List.mem_map_of_mem (htree ▸ ht)
  have hany : ∀ p ∈ c.fixed, (tree.leaves.any (c.owns p.1) = true ↔ p.2.tasks ≠ []) := by
    intro p hp
    have hown := congrArg List.length (h.own_partitions hp htree)
    rw [List.length_map, List.length_map, Reduction.leaves_only] at hown
    have hlength : p.2.ordered.length = p.2.tasks.length := List.length_insertionSort _ _
    rw [← List.length_pos_iff, ← hlength, ← hown, List.length_pos_iff, ne_eq,
      List.filter_eq_nil_iff, List.any_eq_true]
    push Not
    rfl
  have hrow : ∀ p ∈ c.fixed, ∀ o, Row p.2 (c.owns p.1) tree o ↔
      if p.2.tasks = [] then o = none else
        ∃ w, (tree.only (c.owns p.1)).reduce p.2.plan = .ok w ∧ o = some w.bare := by
    intro p hp o
    unfold Row
    simp only [hany p hp]
    by_cases htasks : p.2.tasks = []
    · rw [if_neg (not_not.mpr htasks), if_pos htasks]
    · rw [if_pos htasks, if_neg htasks]
  have hbare : ∀ p ∈ c.fixed, ∀ w, (tree.only (c.owns p.1)).reduce p.2.plan = .ok w →
      p.2.finalized w.bare = p.2.finalized w := fun p hp w hw =>
    (hlawful p hp).aside.finalized
      (reduce_reached (hlawful p hp).associative (h.lists hp hcovers) hw)
  change (tree.reduce _ >>= (c.plan quote services).finalized) = _ ↔ _
  rw [ok_of_bind]
  constructor
  · rintro ⟨v, hv, hr⟩
    obtain ⟨f, hf, hrows⟩ :=
      (h.reduce_bare quote hlawful services hcovers).mp (map_ok_iff.mpr ⟨v, hv, rfl⟩)
    obtain ⟨k, rfl, hall⟩ := (h.finalized_named quote
      (fun p hp => (hlawful p hp).truthy) services hf).mp hr
    refine ⟨k, rfl, fun p hp => ?_⟩
    have hmine := (hrow p hp _).mp (hrows p hp)
    split
    · rename_i htasks
      rw [if_pos htasks] at hmine
      exact (hall p hp).1 hmine
    · rename_i htasks
      rw [if_neg htasks] at hmine
      obtain ⟨w, hw, hfp⟩ := hmine
      obtain ⟨y, hy, hk⟩ := (hall p hp).2 _ hfp
      rw [hbare p hp w hw] at hy
      exact ⟨y, hk, (h.gives_iff hp (hlawful p hp) htree).mpr ⟨w, hw, hy⟩⟩
  · rintro ⟨k, rfl, hall⟩
    have hrows : ∀ p ∈ c.fixed, ∃ o, Row p.2 (c.owns p.1) tree o ∧ (o = none → k p.1 = none) ∧
        ∀ x, o = some x → ∃ y, p.2.finalized x = .ok y ∧ k p.1 = some y := by
      intro p hp
      have hmine := hall p hp
      by_cases htasks : p.2.tasks = []
      · rw [if_pos htasks] at hmine
        refine ⟨none, (hrow p hp _).mpr (by rw [if_pos htasks]), fun _ => hmine, ?_⟩
        intro x hx
        cases hx
      · rw [if_neg htasks] at hmine
        obtain ⟨y, hk, hgives⟩ := hmine
        obtain ⟨w, hw, hy⟩ := (h.gives_iff hp (hlawful p hp) htree).mp hgives
        refine ⟨some w.bare, (hrow p hp _).mpr ?_, nofun, ?_⟩
        · rw [if_neg htasks]
          exact ⟨w, hw, rfl⟩
        · intro x hx
          obtain rfl := Option.some.inj hx
          exact ⟨y, (hbare p hp w hw).trans hy, hk⟩
    obtain ⟨f, hf⟩ := exists_values h.heldNames hrows
    obtain ⟨v, hv, hvbare⟩ := map_ok_iff.mp
      ((h.reduce_bare quote hlawful services hcovers).mpr ⟨f, rfl, fun p hp => (hf p hp).1⟩)
    refine ⟨v, hv, (h.finalized_named quote (fun p hp => (hlawful p hp).truthy) services
      hvbare).mpr ⟨k, rfl, fun p hp => (hf p hp).2⟩⟩

end Values

/-! ### Collating -/

section Collate

variable [DecidableEq σ] (quote : String → String) {plans : List (String × GivenPlan α σ)}

/-- What a collated plan is to its plans. -/
structure SideBySide (plans : List (String × GivenPlan α σ)) (c : TaskPlan α σ) : Prop where
  partitions : c.ordered.map (·.partition) =
    plans.flatMap fun e => e.2.ordered.map (·.partition)
  routed : ∀ name p, (name, .plan p) ∈ plans → ∀ t ∈ p.tasks,
    c.process.call t.partition =
      (p.process.call t.partition).map (·.onValue fun v => .dict [(name, v)])
  value : ∀ tree : Reduction, tree.leaves = c.ordered → ∀ r, c.run tree = .ok r ↔
    ∃ k : String → Option (PyValue α), r = .dict (dictOf (plans.map Prod.fst) k) ∧
      ∀ name p, (name, .plan p) ∈ plans →
        if p.tasks = [] then k name = none else ∃ x, k name = some x ∧ p.Gives x

/-- **`collate` runs plans side by side**: it raises just for a service of two specs, a plan without
fixed tasks, a file's tree held twice, or a part written twice; else each partition is processed
once, by the plan that listed it, and every tree gives each plan's value under its name. -/
theorem collate_sideBySide (hne : plans ≠ []) (hnames : (plans.map Prod.fst).Nodup)
    (hlawful : ∀ name p, (name, .plan p) ∈ plans → p.Lawful) :
    ((∃ e, collate quote plans = .error e) ↔ TwoSpecs plans ∨ (∃ x ∈ plans, ¬ x.2.Fixed) ∨
      SharedFile plans ∨ HookRaises plans ∨ PartTwice plans) ∧
    ∀ c, collate quote plans = .ok c → SideBySide plans c ∧ c.Lawful := by
  refine ⟨collate_error quote hne hnames, fun c hc => ?_⟩
  obtain ⟨loop, services, haccepted, rfl⟩ := collate_cases quote hnames hc
  have hfixed : ∀ p ∈ loop.fixed, p.2.Lawful := fun p hp =>
    hlawful p.1 p.2 (haccepted.mem_fixed.mp hp)
  have hordered := haccepted.ordered quote services
  refine ⟨⟨?_, ?_, ?_⟩, haccepted.lawful quote hfixed services⟩
  · rw [hordered]
    exact haccepted.partitions
  · exact fun name p hp t ht => haccepted.call_eq quote hp ht services
  · intro tree htree r
    rw [hordered] at htree
    rw [haccepted.run_ok quote hfixed services htree]
    unfold named
    rw [haccepted.held, fixedOf_names haccepted.fixed]
    apply exists_congr
    intro k
    apply and_congr_right
    intro _
    constructor
    · exact fun hall name p hp => hall (name, p) (mem_fixedOf.mpr hp)
    · exact fun hall p hp => hall p.1 p.2 (mem_fixedOf.mp hp)

end Collate

/-! ### Two counts, and a plan that loses its warnings -/

/-- A plan that counts the partitions of a file. -/
def countingPlan (uri : String) : TaskPlan Int Unit where
  process := ⟨fun _ => .ok (.leaf 1), none⟩
  combine
    | .leaf a, .leaf b => .ok (.leaf (a + b))
    | _, _ => .error (typeError "unsupported operand type(s) for +")
  empty := .ok (.leaf 0)
  tasks := [⟨0, ⟨uri, "Events", 0, 10, none, none, none⟩⟩]
  hasNextTasks := false
  stop := none
  openOnce := false
  services := []
  finalize := none

theorem countingPlan_reached {uri : String} {v : PyValue Int}
    (h : (countingPlan uri).Reached v) : ∃ n, v = .leaf n := by
  induction h with
  | empty h =>
      obtain rfl := Except.ok.inj h
      exact ⟨0, rfl⟩
  | task _ h =>
      obtain rfl := Except.ok.inj h
      exact ⟨1, rfl⟩
  | combine _ _ h iha ihb =>
      obtain ⟨a, rfl⟩ := iha
      obtain ⟨b, rfl⟩ := ihb
      obtain rfl := Except.ok.inj h
      exact ⟨a + b, rfl⟩

theorem countingPlan_lawful (uri : String) : (countingPlan uri).Lawful := by
  refine ⟨⟨.leaf 0, rfl, ?_⟩, ?_, fun fn hfn => by cases hfn⟩
  · refine ⟨TaskPlan.Reached.empty rfl, TaskPlan.Reached.combine, ?_, ?_, ?_⟩
    · intro a ha
      obtain ⟨n, rfl⟩ := countingPlan_reached ha
      exact congrArg (fun n => Except.ok (PyValue.leaf n)) (Int.zero_add n)
    · intro a ha
      obtain ⟨n, rfl⟩ := countingPlan_reached ha
      exact congrArg (fun n => Except.ok (PyValue.leaf n)) (Int.add_zero n)
    · intro a b c ha hb hc
      obtain ⟨l, rfl⟩ := countingPlan_reached ha
      obtain ⟨m, rfl⟩ := countingPlan_reached hb
      obtain ⟨n, rfl⟩ := countingPlan_reached hc
      intro v
      change Except.ok (PyValue.leaf (l + m + n)) = _ ↔ Except.ok (PyValue.leaf (l + (m + n))) = _
      rw [Int.add_assoc]
  · refine Or.inl fun v hv => ?_
    obtain ⟨n, rfl⟩ := countingPlan_reached hv
    trivial

/-- Two files are counted side by side. -/
theorem collate_counts : ∃ c, collate id [("data", .plan (countingPlan "data.root")),
      ("mc", .plan (countingPlan "mc.root"))] = .ok c ∧
    SideBySide [("data", .plan (countingPlan "data.root")),
      ("mc", .plan (countingPlan "mc.root"))] c ∧ c.Lawful := by
  refine ⟨_, rfl, (collate_sideBySide id (by simp) (by decide) ?_).2 _ rfl⟩
  intro name p hp
  simp only [List.mem_cons, Prod.mk.injEq, GivenPlan.plan.injEq, List.not_mem_nil, or_false] at hp
  rcases hp with ⟨-, rfl⟩ | ⟨-, rfl⟩ <;> exact countingPlan_lawful _

/-- The first of two values that is no empty dict. -/
def firstOf : PyValue Unit → PyValue Unit → PyValue Unit
  | .dict [], b => b
  | a, _ => a

theorem firstOf_assoc (a b c : PyValue Unit) :
    firstOf (firstOf a b) c = firstOf a (firstOf b c) := by
  rcases a with _ | ⟨_ | _⟩ | _ <;> rfl

theorem firstOf_empty (a : PyValue Unit) : firstOf a (.dict []) = a := by
  rcases a with _ | ⟨_ | _⟩ | _ <;> rfl

/-- A plan whose partial carries a warning, with no finalize to look through it. -/
def noisyPlan : TaskPlan Unit Unit where
  process := ⟨fun _ => .ok (.warned (.leaf ()) [(⟨"RuntimeWarning", "divide by zero"⟩,
    ⟨"analysis.py", 3, "f (entries 0-10)"⟩)]), none⟩
  combine a b := .ok (firstOf a b)
  empty := .ok (.dict [])
  tasks := [⟨0, ⟨"f", "Events", 0, 10, none, none, none⟩⟩]
  hasNextTasks := false
  stop := none
  openOnce := false
  services := []
  finalize := none

theorem noisyPlan_associative : noisyPlan.Associative := by
  refine ⟨.dict [], rfl, TaskPlan.Reached.empty rfl, TaskPlan.Reached.combine, fun _ => rfl, ?_, ?_⟩
  · intro a _
    exact congrArg Except.ok (firstOf_empty a)
  · intro a b c _ _ _ v
    change Except.ok (firstOf (firstOf a b) c) = _ ↔ Except.ok (firstOf a (firstOf b c)) = _
    rw [firstOf_assoc]

/-- Collated, the plan's value is no longer the one with its warnings. -/
theorem collate_drops_warnings : ¬ ∀ (α σ : Type) [DecidableEq σ] (quote : String → String)
    (plans : List (String × GivenPlan α σ)), plans ≠ [] → (plans.map Prod.fst).Nodup →
    (∀ name p, (name, .plan p) ∈ plans → p.Associative) →
      ((∃ e, collate quote plans = .error e) ↔ TwoSpecs plans ∨ (∃ x ∈ plans, ¬ x.2.Fixed) ∨
        SharedFile plans ∨ HookRaises plans ∨ PartTwice plans) ∧
      ∀ c, collate quote plans = .ok c → SideBySide plans c ∧ c.Associative := by
  intro hall
  obtain ⟨-, hruns⟩ := hall Unit Unit id [("mc", .plan noisyPlan)] (by simp) (by simp) (by
    intro name p hp
    simp only [List.mem_singleton, Prod.mk.injEq, GivenPlan.plan.injEq] at hp
    rw [hp.2]
    exact noisyPlan_associative)
  obtain ⟨c, hc, htasks, hrun⟩ : ∃ c, collate id [("mc", GivenPlan.plan noisyPlan)] = .ok c ∧
      c.ordered = noisyPlan.ordered ∧
      c.run (.task ⟨0, ⟨"f", "Events", 0, 10, none, none, none⟩⟩) =
        .ok (.dict [("mc", .leaf ())]) := ⟨_, rfl, rfl, rfl⟩
  obtain ⟨k, hd, hk⟩ := ((hruns c hc).1.value _ (htasks ▸ rfl) _).mp hrun
  have hmine := hk "mc" noisyPlan List.mem_cons_self
  rw [if_neg (by simp [noisyPlan])] at hmine
  obtain ⟨x, hx, hgives⟩ := hmine
  have hleaf := congrArg (List.lookup "mc") (PyValue.dict.inj hd)
  rw [lookup_dictOf, if_pos (by simp), hx] at hleaf
  have hwarned := hgives (.task ⟨0, ⟨"f", "Events", 0, 10, none, none, none⟩⟩) rfl
  rw [← Option.some.inj hleaf] at hwarned
  change Except.ok (PyValue.warned _ _) = Except.ok (PyValue.leaf ()) at hwarned
  have himpossible := Except.ok.inj hwarned
  cases himpossible

end Graphed
