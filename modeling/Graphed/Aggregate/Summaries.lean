import Graphed.Aggregate.Reducers
import Graphed.Library.Folding
import Mathlib.Data.Nat.Cast.Basic

/-!
# What a fold keeps

A fold goes over entries piece by piece. What it keeps of them is a sum, a count, a truth value or an
extremum, or `None` where there was nothing to reduce.
-/

namespace Graphed

variable {α : Type}

/-! ### Extrema -/

namespace Num

section Extreme

variable {le : α → α → Prop} {xs ys : List (Num α)} {v w : Num α}

theorem not_extreme_nil : ¬Extreme le [] v := by
  rintro (⟨h, -⟩ | ⟨-, y, -, hy, -⟩)
  · cases h
  · cases hy

theorem Extreme.unique (hanti : ∀ a b, le a b → le b a → a = b) (hv : Extreme le xs v)
    (hw : Extreme le xs w) : v = w := by
  cases hv with
  | inl hv =>
      cases hw with
      | inl hw => rw [hv.2, hw.2]
      | inr hw => exact absurd hv.1 hw.1
  | inr hv =>
      obtain ⟨hnan, x, rfl, hx, hxs⟩ := hv
      cases hw with
      | inl hw => exact absurd hw.1 hnan
      | inr hw =>
          obtain ⟨-, y, rfl, hy, hys⟩ := hw
          rw [hanti x y (hys x hx) (hxs y hy)]

theorem Extreme.congr (hv : Extreme le xs v) (h : ∀ x, x ∈ xs ↔ x ∈ ys) : Extreme le ys v := by
  cases hv with
  | inl hv => exact .inl ⟨(h _).mp hv.1, hv.2⟩
  | inr hv =>
      obtain ⟨hnan, x, hvx, hx, hxs⟩ := hv
      refine .inr ⟨fun hn => hnan ((h _).mpr hn), x, hvx, (h _).mp hx, ?_⟩
      intro y hy
      exact hxs y ((h _).mpr hy)

/-- Of two extrema, NaN or the one further out is the extremum of both. -/
theorem Extreme.append (htotal : ∀ a b, le a b ∨ le b a)
    (htrans : ∀ a b c, le a b → le b c → le a c) (hv : Extreme le xs v) (hw : Extreme le ys w)
    {out : Bool} (hout : out = true ↔ w = .nan ∨ ∃ x y, v = .num x ∧ w = .num y ∧ ¬le y x) :
    Extreme le (xs ++ ys) (if out = true then w else v) := by
  cases hv with
  | inl hv =>
      obtain ⟨hnan, rfl⟩ := hv
      refine .inl ⟨List.mem_append_left _ hnan, ?_⟩
      by_cases h : out = true
      · rw [if_pos h]
        cases hout.mp h with
        | inl hw => exact hw
        | inr hlt =>
            obtain ⟨x, y, hx, -⟩ := hlt
            cases hx
      · exact if_neg h
  | inr hv =>
      obtain ⟨hnan, x, rfl, hx, hxs⟩ := hv
      cases hw with
      | inl hw =>
          obtain ⟨hmem, rfl⟩ := hw
          exact .inl ⟨List.mem_append_right _ hmem, if_pos (hout.mpr (.inl rfl))⟩
      | inr hw =>
          obtain ⟨hnan', y, rfl, hy, hys⟩ := hw
          have hnone : .nan ∉ xs ++ ys := fun h => (List.mem_append.mp h).elim hnan hnan'
          by_cases h : out = true
          · have hyx : ¬le y x := by
              cases hout.mp h with
              | inl hw => cases hw
              | inr hlt =>
                  obtain ⟨x', y', hx', hy', hlt⟩ := hlt
                  cases hx'
                  cases hy'
                  exact hlt
            refine .inr ⟨hnone, y, if_pos h, List.mem_append_right _ hy, ?_⟩
            intro z hz
            cases List.mem_append.mp hz with
            | inl hz => exact htrans z x y (hxs z hz) ((htotal x y).resolve_right hyx)
            | inr hz => exact hys z hz
          · have hyx : le y x := by
              by_contra hlt
              exact h (hout.mpr (.inr ⟨x, y, rfl, rfl, hlt⟩))
            refine .inr ⟨hnone, x, if_neg h, List.mem_append_left _ hx, ?_⟩
            intro z hz
            cases List.mem_append.mp hz with
            | inl hz => exact hxs z hz
            | inr hz => exact htrans z y x (hys z hz) hyx

end Extreme

/-! ### Totals -/

theorem add_assoc' [AddMonoid α] (a b c : Num α) : (a.add b).add c = a.add (b.add c) := by
  cases a with
  | nan => rfl
  | num a =>
      cases b with
      | nan => rfl
      | num b =>
          cases c with
          | nan => rfl
          | num c => exact congrArg num (add_assoc a b c)

theorem zero_add' [AddMonoid α] (a : Num α) : (num 0).add a = a := by
  cases a with
  | nan => rfl
  | num a => exact congrArg num (zero_add a)

theorem total_append [AddMonoid α] (xs ys : List (Num α)) :
    total (xs ++ ys) = (total xs).add (total ys) := by
  induction xs with
  | nil => exact (zero_add' _).symm
  | cons x rest ih =>
      change x.add (total (rest ++ ys)) = (x.add (total rest)).add (total ys)
      rw [ih, add_assoc']

end Num

/-- A reduction with an identity: its fold and what it gives of the entries present. -/
structure Totals (f : Fold α) (total : List (Num α) → Datum α) : Prop where
  append : ∀ xs ys, f.combine (total xs) (total ys) = .ok (total (xs ++ ys))
  empty : f.empty = some (total [])

theorem folds_total [LinearOrder α] [AddMonoidWithOne α] {name : String} {f : Fold α}
    {total : List (Num α) → Datum α} (hf : folds.lookup name = some f)
    (htotal : totals.lookup name = some total) : Totals f total := by
  have hmem : (name, total) ∈ totals := by
    obtain ⟨before, after, heq, -⟩ := List.lookup_eq_some_iff.mp htotal
    rw [heq]
    exact List.mem_append_right _ List.mem_cons_self
  simp only [totals, List.mem_cons, Prod.mk.injEq, List.not_mem_nil, or_false] at hmem
  obtain ⟨rfl, rfl⟩ | ⟨rfl, rfl⟩ | ⟨rfl, rfl⟩ | ⟨rfl, rfl⟩ | ⟨rfl, rfl⟩ := hmem
  · obtain rfl : _ = f := Option.some.inj hf
    refine ⟨fun xs ys => ?_, rfl⟩
    exact congrArg (fun x => Except.ok (Datum.number x)) (Num.total_append xs ys).symm
  · obtain rfl : _ = f := Option.some.inj hf
    refine ⟨fun xs ys => ?_, ?_⟩
    · change Except.ok (Datum.number (Num.num ((xs.length : α) + (ys.length : α)))) = _
      rw [List.length_append, Nat.cast_add]
    · exact congrArg (fun x => some (Datum.number (Num.num x))) Nat.cast_zero.symm
  · obtain rfl : _ = f := Option.some.inj hf
    refine ⟨fun xs ys => ?_, ?_⟩
    · change Except.ok (Datum.number (Num.num (((xs.countP Num.nonzero : Nat) : α) +
        ((ys.countP Num.nonzero : Nat) : α)))) = _
      rw [List.countP_append, Nat.cast_add]
    · exact congrArg (fun x => some (Datum.number (Num.num x))) Nat.cast_zero.symm
  · obtain rfl : _ = f := Option.some.inj hf
    refine ⟨fun xs ys => ?_, rfl⟩
    rw [List.any_append]
    rfl
  · obtain rfl : _ = f := Option.some.inj hf
    refine ⟨fun xs ys => ?_, rfl⟩
    rw [List.all_append]
    rfl

/-! ### Summaries -/

/-- What a fold keeps of the entries it has gone over: combining is appending, and the empty value
is an identity on both sides. -/
structure Summary (f : Fold α) (Spec : List (Num α) → Option (Datum α) → Prop) : Prop where
  append : ∀ {ps qs a b}, Spec ps a → Spec qs b → ∃ c, f.call a b = .ok c ∧ Spec (ps ++ qs) c
  left : ∀ {ps a}, Spec ps a → f.call f.empty a = .ok a
  right : ∀ {ps a}, Spec ps a → f.call a f.empty = .ok a
  both : f.call f.empty f.empty = .ok f.empty
  unique : ∀ {ps a b}, Spec ps a → Spec ps b → a = b

theorem Fold.call_none_left (f : Fold α) (a : Option (Datum α)) : f.call none a = .ok a := by
  cases a <;> rfl

theorem Fold.call_none_right (f : Fold α) (a : Option (Datum α)) : f.call a none = .ok a := by
  cases a <;> rfl

/-- What a reduction with an identity gives; masked, nothing to reduce is `None`. -/
def TotalSpec (total : List (Num α) → Datum α) (masked : Bool) (ps : List (Num α))
    (v : Option (Datum α)) : Prop :=
  v = if masked = true ∧ ps = [] then none else some (total ps)

theorem Totals.call {f : Fold α} {total : List (Num α) → Datum α} (h : Totals f total)
    (ps qs : List (Num α)) :
    f.call (some (total ps)) (some (total qs)) = .ok (some (total (ps ++ qs))) := by
  change (f.combine (total ps) (total qs)).map some = _
  rw [h.append]
  rfl

theorem Totals.summary {f : Fold α} {total : List (Num α) → Datum α} (h : Totals f total) :
    Summary f (TotalSpec total false) := by
  have hspec : ∀ {ps v}, TotalSpec total false ps v ↔ v = some (total ps) := by
    intro ps v
    unfold TotalSpec
    rw [if_neg (fun hand => Bool.false_ne_true hand.1)]
  constructor
  · intro ps qs a b ha hb
    rw [hspec.mp ha, hspec.mp hb]
    exact ⟨_, h.call ps qs, hspec.mpr rfl⟩
  · intro ps a ha
    rw [hspec.mp ha, h.empty]
    exact h.call [] ps
  · intro ps a ha
    rw [hspec.mp ha, h.empty]
    have hcall := h.call ps []
    rwa [List.append_nil] at hcall
  · rw [h.empty]
    exact h.call [] []
  · intro ps a b ha hb
    rw [hspec.mp ha, hspec.mp hb]

theorem Totals.masked_summary {f : Fold α} {total : List (Num α) → Datum α} (h : Totals f total) :
    Summary { f with empty := none } (TotalSpec total true) := by
  have hcall : ∀ a b, Fold.call { f with empty := none } a b = f.call a b := by
    intro a b
    cases a with
    | none => rfl
    | some a => cases b <;> rfl
  constructor
  · intro ps qs a b ha hb
    rw [hcall]
    by_cases hp : ps = []
    · have hnone : a = none := ha.trans (if_pos ⟨rfl, hp⟩)
      rw [hnone, hp, List.nil_append]
      exact ⟨b, f.call_none_left b, hb⟩
    · have hsome : a = some (total ps) := ha.trans (if_neg fun hand => hp hand.2)
      by_cases hq : qs = []
      · have hnone : b = none := hb.trans (if_pos ⟨rfl, hq⟩)
        rw [hnone, hq, List.append_nil]
        exact ⟨a, f.call_none_right a, ha⟩
      · have hsome' : b = some (total qs) := hb.trans (if_neg fun hand => hq hand.2)
        rw [hsome, hsome']
        refine ⟨_, h.call ps qs, (if_neg ?_).symm⟩
        intro hand
        exact hp (List.append_eq_nil_iff.mp hand.2).1
  · intro ps a ha
    exact Fold.call_none_left _ a
  · intro ps a ha
    exact Fold.call_none_right _ a
  · rfl
  · intro ps a b ha hb
    exact ha.trans hb.symm

/-- What an extremum gives of the entries and what it starts from; masked, nothing to reduce is
`None`. -/
def ExtremeSpec (le : α → α → Prop) (start : List (Num α)) (masked : Bool) (ps : List (Num α))
    (v : Option (Datum α)) : Prop :=
  if masked = true ∧ ps = [] then v = none
  else ∃ x, v = some (.number x) ∧ Num.Extreme le (start ++ ps) x

/-- A combine that keeps the value further out, or a NaN. -/
structure Extrema (f : Fold α) (le : α → α → Prop) : Prop where
  total : ∀ a b, le a b ∨ le b a
  trans : ∀ a b c, le a b → le b c → le a c
  antisymm : ∀ a b, le a b → le b a → a = b
  empty : f.empty = none
  combine : ∀ v w, ∃ out : Bool,
    (out = true ↔ w = .nan ∨ ∃ x y, v = .num x ∧ w = .num y ∧ ¬le y x) ∧
      f.combine (.number v) (.number w) = .ok (.number (if out = true then w else v))

/-- Masked, an extremum's fold is what it was. -/
theorem Extrema.masked {f : Fold α} {le : α → α → Prop} (h : Extrema f le) {b : Bool} :
    (if b = true then { f with empty := none } else f) = f := by
  cases b with
  | true =>
      rw [if_pos rfl, ← h.empty]
  | false => exact if_neg Bool.false_ne_true

theorem Extrema.unique {f : Fold α} {le : α → α → Prop} (h : Extrema f le) {start : List (Num α)}
    {masked : Bool} {ps : List (Num α)} {a b : Option (Datum α)}
    (ha : ExtremeSpec le start masked ps a) (hb : ExtremeSpec le start masked ps b) : a = b := by
  unfold ExtremeSpec at ha hb
  by_cases hnone : masked = true ∧ ps = []
  · rw [if_pos hnone] at ha hb
    rw [ha, hb]
  · rw [if_neg hnone] at ha hb
    obtain ⟨x, rfl, hx⟩ := ha
    obtain ⟨y, rfl, hy⟩ := hb
    rw [hx.unique h.antisymm hy]

theorem Extrema.summary {f : Fold α} {le : α → α → Prop} (h : Extrema f le)
    (start : List (Num α)) (masked : Bool) : Summary f (ExtremeSpec le start masked) := by
  constructor
  · intro ps qs a b ha hb
    by_cases hp : masked = true ∧ ps = []
    · have hnone : a = none := by
        unfold ExtremeSpec at ha
        rwa [if_pos hp] at ha
      rw [hnone, hp.2, List.nil_append]
      exact ⟨b, f.call_none_left b, hb⟩
    · by_cases hq : masked = true ∧ qs = []
      · have hnone : b = none := by
          unfold ExtremeSpec at hb
          rwa [if_pos hq] at hb
        rw [hnone, hq.2, List.append_nil]
        exact ⟨a, f.call_none_right a, ha⟩
      · unfold ExtremeSpec at ha hb
        rw [if_neg hp] at ha
        rw [if_neg hq] at hb
        obtain ⟨x, rfl, hx⟩ := ha
        obtain ⟨y, rfl, hy⟩ := hb
        obtain ⟨out, hout, hcombine⟩ := h.combine x y
        refine ⟨some (.number (if out = true then y else x)), ?_, ?_⟩
        · change (f.combine (.number x) (.number y)).map some = _
          rw [hcombine]
          rfl
        · unfold ExtremeSpec
          rw [if_neg fun hand => hp ⟨hand.1, (List.append_eq_nil_iff.mp hand.2).1⟩]
          refine ⟨_, rfl, (hx.append h.total h.trans hy hout).congr ?_⟩
          -- both sides start from the same value
          intro z
          simp only [List.mem_append]
          tauto
  · intro ps a ha
    rw [h.empty]
    exact f.call_none_left a
  · intro ps a ha
    rw [h.empty]
    exact f.call_none_right a
  · rw [h.empty]
    rfl
  · exact fun ha hb => h.unique ha hb

section Order

variable [LinearOrder α] [AddMonoidWithOne α]

theorem extrema_max {f : Fold α} (hf : folds.lookup "max" = some f) : Extrema f (· ≤ ·) := by
  obtain rfl : _ = f := Option.some.inj hf
  refine ⟨le_total, fun _ _ _ => le_trans, fun _ _ => le_antisymm, rfl, ?_⟩
  intro v w
  refine ⟨w.ne w || v.lt w, ?_, ?_⟩
  · cases w with
    | nan => exact ⟨fun _ => .inl rfl, fun _ => rfl⟩
    | num y => cases v <;> simp [Num.ne, Num.lt]
  · change Except.ok (if (w.ne w || v.lt w) = true then Datum.number w else Datum.number v) = _
    rw [apply_ite Datum.number]

theorem extrema_min {f : Fold α} (hf : folds.lookup "min" = some f) : Extrema f (· ≥ ·) := by
  obtain rfl : _ = f := Option.some.inj hf
  refine ⟨fun a b => le_total b a, fun _ _ _ hab hbc => le_trans hbc hab,
    fun _ _ hab hba => le_antisymm hba hab, rfl, ?_⟩
  intro v w
  refine ⟨w.ne w || w.lt v, ?_, ?_⟩
  · cases w with
    | nan => exact ⟨fun _ => .inl rfl, fun _ => rfl⟩
    | num y => cases v <;> simp [Num.ne, Num.lt]
  · change Except.ok (if (w.ne w || w.lt v) = true then Datum.number w else Datum.number v) = _
    rw [apply_ite Datum.number]

end Order

end Graphed
