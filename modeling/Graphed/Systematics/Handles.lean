import Graphed.Systematics.Reindex

/-!
# When re-indexing depends on the lineage only

Unification answers for any order and grouping of the handles. Re-indexing through a context between
records what the direct walk does exactly where the handles meet on both or on neither, and likewise
for a handle below a run of `vary` links and the row space above it. They need not: a walk merges the
handles of its masks into the value's and stamps the target only at its end.
-/

namespace Graphed

open Attempts

/-- What a unification answers, whatever the order and grouping of its handles. -/
structure UnifyLaws {N : Type} (tree : ContextTree N) : Prop where
  perm : ∀ handles handles' : List (Option Nat), handles.Perm handles' →
    (tree.unifyContexts handles).toOption = (tree.unifyContexts handles').toOption
  grouped : ∀ groups : List (List (Option Nat)), (tree.unifyContexts groups.flatten).toOption =
    (groups.mapM fun group => (tree.unifyContexts group).toOption).bind fun answers =>
      (tree.unifyContexts answers).toOption
  most_derived : ∀ handles m, tree.unifyContexts handles = .ok (some m) ↔
    some m ∈ handles ∧ ∀ a, some a ∈ handles → tree.isAncestor a m = true
  context_free : ∀ handles, tree.unifyContexts handles = .ok none ↔ ∀ h ∈ handles, h = none
  refused : ∀ handles, (∃ pair, tree.unifyContexts handles = .error pair) ↔
    ¬ tree.OnOneChain handles
  names : ∀ handles a b, tree.unifyContexts handles = .error (a, b) → some a ∈ handles ∧
    some b ∈ handles ∧ tree.isAncestor a b = false ∧ tree.isAncestor b a = false

namespace ContextTree

variable {N E : Type} (tree : ContextTree N) (registry : PointRegistry)
  (select : N → N → Except E N)

theorem toOption_unifyContexts_eq_some_iff {handles : List (Option Nat)} {answer : Option Nat} :
    (tree.unifyContexts handles).toOption = some answer ↔ tree.UnifiesTo handles answer := by
  rw [← unifyContexts_eq_ok_iff]
  cases tree.unifyContexts handles with
  | error pair => simp [Except.toOption]
  | ok answer' => simp [Except.toOption]

theorem mapM_unify_eq_some_iff {groups : List (List (Option Nat))} {answers : List (Option Nat)} :
    (groups.mapM fun group => (tree.unifyContexts group).toOption) = some answers ↔
      List.Forall₂ tree.UnifiesTo groups answers := by
  induction groups generalizing answers with
  | nil =>
      rw [List.mapM_nil, List.forall₂_nil_left_iff]
      exact ⟨fun h => (Option.some.inj h).symm, fun h => by rw [h]; rfl⟩
  | cons group groups ih =>
      rw [List.mapM_cons, List.forall₂_cons_left_iff]
      simp only [Option.bind_eq_bind, Option.bind_eq_some_iff, ih, Option.pure_def,
        Option.some.injEq, toOption_unifyContexts_eq_some_iff]
      constructor
      · rintro ⟨x, hx, xs, hxs, rfl⟩
        exact ⟨x, xs, hx, hxs, rfl⟩
      · rintro ⟨x, xs, hx, hxs, rfl⟩
        exact ⟨x, hx, xs, hxs, rfl⟩

/-- **Unification depends on the lineage only.** -/
theorem unifyLaws : UnifyLaws tree where
  perm handles handles' h := by
    refine Option.ext fun answer => ?_
    simp only [toOption_unifyContexts_eq_some_iff]
    exact tree.unifiesTo_perm h
  grouped groups := by
    refine Option.ext fun answer => ?_
    simp only [toOption_unifyContexts_eq_some_iff, Option.bind_eq_some_iff,
      mapM_unify_eq_some_iff]
    exact tree.unifiesTo_flatten
  most_derived handles m := by
    rw [unifyContexts_eq_ok_iff, UnifiesTo, List.mem_cons, or_iff_right (by simp)]
    refine and_congr_right fun _ => forall₂_congr fun a _ => ?_
    constructor
    · rintro ⟨m', hm', ha⟩
      rwa [Option.some.inj hm']
    · exact fun ha => ⟨m, rfl, ha⟩
  context_free handles := by
    rw [unifyContexts_eq_ok_iff, UnifiesTo]
    constructor
    · rintro ⟨-, hall⟩ h hh
      cases h with
      | none => rfl
      | some a =>
          obtain ⟨m, hm, -⟩ := hall a hh
          cases hm
    · intro h
      exact ⟨List.mem_cons_self, fun a ha => absurd (h _ ha) (by simp)⟩
  refused handles := by
    rw [← exists_unifiesTo_iff]
    simp only [← unifyContexts_eq_ok_iff]
    cases tree.unifyContexts handles with
    | error pair => simp
    | ok answer => simp
  names _ _ _ h := tree.unifyContexts_eq_error h

/-- Re-index to one context, then to another. -/
def reindexVia (value : HandledValue N) (between ctx : Nat) :
    Except (HandleError E) (HandledValue N) := do
  let value ← tree.reindexTo registry select value (some between)
  tree.reindexTo registry select value (some ctx)

theorem startOf_of_isAncestor {a b : Nat} (h : tree.isAncestor a b = true) :
    tree.startOf (E := E) a b = .ok a := by
  rw [startOf, if_pos h]

theorem isAncestor_of_rowSpaceFrom {ctx fuel node above : Nat}
    (h : tree.rowSpaceFrom ctx fuel node = some above) : tree.isAncestor above ctx = true := by
  induction fuel generalizing node with
  | zero => cases h
  | succ fuel ih =>
      unfold rowSpaceFrom at h
      split at h
      next parent _ =>
        split_ifs at h with hfound
        · obtain rfl := Option.some.inj h
          rcases Bool.or_eq_true_iff.mp hfound with heq | hanc
          · rw [eq_of_beq heq]
            exact tree.order_isAncestor.refl ctx
          · exact hanc
        · exact ih h
      next => cases h

/-- **What two steps record**: the nodes of the whole way, where the handles meet on each leg. -/
theorem recordedBy_reindexVia {value : HandledValue N} {a b c : Nat} {nodes : Broadcast N Unit}
    (hab : tree.isAncestor a b = true) (hbc : tree.isAncestor b c = true) :
    recordedBy (tree.reindexVia registry select (withContext (some a) value) b c) = some nodes ↔
      (recordingNodes select).followAll registry (nodesOf value)
          ((tree.linksBelow c a).map nodeLink) = .ok nodes ∧
        tree.MeetsVia registry (readAt a value) (tree.linksBelow b a) b (tree.linksBelow c b) := by
  have hfirst : tree.reindexTo registry select (withContext (some a) value) (some b) =
      ((tree.selecting select).followAll registry (withContext (some a) value)
        (tree.linksBelow b a)).map (withContext (some b)) :=
    tree.reindexTo_eq registry select (tree.startOf_of_isAncestor hab)
  rw [tree.linksBelow_append hab hbc, List.map_append, Verb.followAll_append_eq_ok_iff]
  constructor
  · intro h
    obtain ⟨w, hw, hnodes⟩ := recordedBy_eq_some_iff.mp h
    obtain ⟨w', hw', hsecond⟩ := bind_eq_ok_iff.mp hw
    rw [hfirst] at hw'
    obtain ⟨carried, hcarried, rfl⟩ := map_eq_ok_iff.mp hw'
    have hrecorded := recordedBy_eq_some_iff.mpr ⟨w, hsecond, hnodes⟩
    obtain ⟨hleg, hmeets⟩ := (tree.recordedBy_reindexTo registry select
      (tree.startOf_of_isAncestor hbc)).mp hrecorded
    obtain ⟨hnodes', met, hmet, hread⟩ := tree.followAll_selecting registry select hcarried
    rw [nodesOf_withContext] at hnodes'
    rw [handlesOf_withContext] at hmet
    exact ⟨⟨nodesOf carried, hnodes', hleg⟩, met, hmet, hread b ▸ hmeets⟩
  · rintro ⟨⟨between, hbetween, hleg⟩, met, hmet, hmeets⟩
    rw [← nodesOf_withContext (some a)] at hbetween
    have hstamped := hmet
    rw [← handlesOf_withContext] at hstamped
    obtain ⟨carried, hcarried, rfl⟩ := tree.exists_followAll_selecting registry select hbetween
      ⟨met, hstamped⟩
    obtain ⟨-, met', hmet', hread⟩ := tree.followAll_selecting registry select hcarried
    rw [handlesOf_withContext, hmet, Except.ok.injEq] at hmet'
    have hsecond : recordedBy (tree.reindexTo registry select (withContext (some b) carried)
        (some c)) = some nodes :=
      (tree.recordedBy_reindexTo registry select (tree.startOf_of_isAncestor hbc)).mpr
        ⟨hleg, hread b ▸ hmet' ▸ hmeets⟩
    obtain ⟨w, hw, hnodes⟩ := recordedBy_eq_some_iff.mp hsecond
    refine recordedBy_eq_some_iff.mpr ⟨w, bind_eq_ok_iff.mpr ⟨withContext (some b) carried, ?_, hw⟩,
      hnodes⟩
    rw [hfirst, hcarried]
    rfl

/-- Two refusable recordings of one walk agree where both are accepted or neither is. -/
theorem recordings_eq_iff {x y : Option (Broadcast N Unit)} {value : HandledValue N}
    {links : List (LineageLink N)} {p q : Prop}
    (hx : ∀ nodes, x = some nodes ↔ (recordingNodes select).followAll registry (nodesOf value)
      (links.map nodeLink) = .ok nodes ∧ p)
    (hy : ∀ nodes, y = some nodes ↔ (recordingNodes select).followAll registry (nodesOf value)
      (links.map nodeLink) = .ok nodes ∧ q) :
    x = y ↔ ¬ Records registry select value links ∨ (p ↔ q) := by
  constructor
  · rintro rfl
    by_cases hrecords : Records registry select value links
    · obtain ⟨nodes, hnodes⟩ := hrecords
      refine Or.inr ⟨fun hp => ?_, fun hq => ?_⟩
      · exact ((hy nodes).mp ((hx nodes).mpr ⟨hnodes, hp⟩)).2
      · exact ((hx nodes).mp ((hy nodes).mpr ⟨hnodes, hq⟩)).2
    · exact Or.inl hrecords
  · intro h
    refine Option.ext fun nodes => ?_
    rw [hx, hy]
    rcases h with hrecords | hpq
    · exact ⟨fun h => absurd ⟨nodes, h.1⟩ hrecords, fun h => absurd ⟨nodes, h.1⟩ hrecords⟩
    · rw [hpq]

/-- **Unification and re-indexing, from the lineage.** -/
theorem unify_reindex : UnifyLaws tree ∧
    (∀ (value : HandledValue N) (a b c : Nat), tree.isAncestor a b = true →
      tree.isAncestor b c = true →
      (recordedBy (tree.reindexVia registry select (withContext (some a) value) b c) =
          recordedBy (tree.reindexTo registry select (withContext (some a) value) (some c)) ↔
        ¬ Records registry select value (tree.linksBelow c a) ∨
          (tree.MeetsVia registry (readAt a value) (tree.linksBelow b a) b (tree.linksBelow c b) ↔
            tree.Meets registry (readAt a value) (tree.linksBelow c a)))) ∧
    (∀ (value : HandledValue N) (handle above c : Nat), tree.isAncestor handle c = false →
      tree.rowSpaceAbove handle c = some above →
      (recordedBy (tree.reindexTo registry select (withContext (some handle) value) (some c)) =
          recordedBy (tree.reindexTo registry select (withContext (some above) value) (some c)) ↔
        ¬ Records registry select value (tree.linksBelow c above) ∨
          (tree.Meets registry (readAt handle value) (tree.linksBelow c above) ↔
            tree.Meets registry (readAt above value) (tree.linksBelow c above)))) := by
  refine ⟨tree.unifyLaws, fun value a b c hab hbc => ?_, fun value handle above c hnot hrow => ?_⟩
  · have hac := tree.order_isAncestor.trans hab hbc
    exact recordings_eq_iff registry select
      (fun nodes => tree.recordedBy_reindexVia registry select hab hbc)
      fun nodes => tree.recordedBy_reindexTo registry select (tree.startOf_of_isAncestor hac)
  · have hstart : tree.startOf (E := E) handle c = .ok above := by
      rw [startOf, if_neg (by rw [hnot]; decide), hrow]
    exact recordings_eq_iff registry select
      (fun nodes => tree.recordedBy_reindexTo registry select hstart)
      fun nodes => tree.recordedBy_reindexTo registry select
        (tree.startOf_of_isAncestor (tree.isAncestor_of_rowSpaceFrom hrow))

end ContextTree

/-! ### Two selections below a `vary` -/

/-- A root 0 with a `vary` child 1; 2 and 3 select below the root in turn, 4 selects the root by a
mask read at 1, and 5 selects below 4. -/
def selectedTwice : ContextTree Nat where
  derived := [none, some (0, .vary), some (0, .mask (.array ⟨100, some 0⟩)),
    some (2, .mask (.array ⟨101, some 2⟩)), some (0, .mask (.array ⟨102, some 1⟩)),
    some (4, .mask (.array ⟨103, some 4⟩))]
  parent_lt := by
    intro c p link h
    match c, h with
    | 1, h => cases h; decide
    | 2, h => cases h; decide
    | 3, h => cases h; decide
    | 4, h => cases h; decide
    | 5, h => cases h; decide

/-- A walk over two selections refuses a value read at the `vary` child, and a mask read there; the
row space above, and a step between, are accepted. -/
theorem not_unify_reindex :
    (selectedTwice.isAncestor 1 3 = false ∧ selectedTwice.rowSpaceAbove 1 3 = some 0 ∧
      recordedBy (selectedTwice.reindexTo [] (fun a b => (.ok (a * 1000 + b) : Except Unit Nat))
        (.array ⟨7, some 1⟩) (some 3)) = none ∧
      recordedBy (selectedTwice.reindexTo [] (fun a b => (.ok (a * 1000 + b) : Except Unit Nat))
        (.array ⟨7, some 0⟩) (some 3)) = some (.array 7100101)) ∧
    selectedTwice.isAncestor 0 4 = true ∧ selectedTwice.isAncestor 4 5 = true ∧
      recordedBy (selectedTwice.reindexTo [] (fun a b => (.ok (a * 1000 + b) : Except Unit Nat))
        (.array ⟨7, some 0⟩) (some 5)) = none ∧
      recordedBy (selectedTwice.reindexVia [] (fun a b => (.ok (a * 1000 + b) : Except Unit Nat))
        (.array ⟨7, some 0⟩) 4 5) = some (.array 7102103) := by
  refine ⟨⟨by decide, by decide, rfl, rfl⟩, by decide, by decide, rfl, rfl⟩

end Graphed
