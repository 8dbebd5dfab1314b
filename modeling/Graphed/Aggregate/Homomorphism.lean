import Graphed.Aggregate.Reference
import Mathlib.Algebra.Ring.Int.Defs

/-!
# Folding chunk values

The reduction of an array is the fold of its chunks' reductions, in any tree that keeps their order
and may start from the empty value. Two reductions fall short: NumPy's extremum of a chunk with
nothing in it raises, and Awkward Array's extremum with `mask_identity=False` has a value for no rows
that the value of no chunks is not.
-/

namespace Graphed

variable {α : Type}

/-! ### Accepted nodes -/

/-- The names `_FOLDS` has. -/
def foldNames : List String := ["sum", "count", "count_nonzero", "any", "all", "max", "min"]

theorem numpy_accepted : ∀ op ∈ ArrayBackend.numpy.reducers, lastName op ∈ foldNames →
    op = lastName op ∧ (op ∈ ["sum", "any", "all"] ∨ op = "max" ∨ op = "min") := by
  decide

theorem awkward_accepted : ∀ op ∈ ArrayBackend.awkward.reducers, lastName op ∈ foldNames →
    op = "ak." ++ lastName op := by
  decide

section Accepted

variable [LinearOrder α] [AddMonoidWithOne α]

theorem folds_name {name : String} {f : Fold α} (h : folds.lookup name = some f) :
    name ∈ foldNames := by
  obtain ⟨before, after, heq, -⟩ := List.lookup_eq_some_iff.mp h
  have hmem : (name, f) ∈ (folds : List (String × Fold α)) := by
    rw [heq]
    exact List.mem_append_right _ List.mem_cons_self
  have hname : name ∈ (folds : List (String × Fold α)).map Prod.fst :=
    List.mem_map.mpr ⟨_, hmem, rfl⟩
  exact hname

theorem foldOf_reduction {op : String} {params : ParamMap} {ins : List Nat} {f : Fold α}
    (h : foldOf (.reduction op params ins) = .ok f) :
    ∃ g, folds.lookup (lastName op) = some g ∧
      f = if (Reducers.maskIdentity params).getD false = true then { g with empty := none }
        else g := by
  unfold foldOf at h
  cases hwhy : notFoldable.lookup (lastName op) with
  | some why =>
      simp only [hwhy] at h
      cases h
  | none =>
      cases hfold : (folds : List (String × Fold α)).lookup (lastName op) with
      | none =>
          simp only [hwhy, hfold] at h
          cases h
      | some g =>
          simp only [hwhy, hfold] at h
          refine ⟨g, rfl, ?_⟩
          by_cases haxis : keepsAxis params = true
          · rw [if_pos haxis] at h
            cases h
          · rw [if_neg haxis] at h
            unfold Reducers.maskIdentity
            by_cases hmask : ((params.get? "mask_identity").map ParamValue.truthy).getD false = true
            · rw [if_pos hmask] at h ⊢
              exact (Except.ok.inj h).symm
            · rw [if_neg hmask] at h ⊢
              exact (Except.ok.inj h).symm

end Accepted

/-! ### Outputs -/

/-- An output over a reduction: its node, its compiled slot, and the array it reduces chunk by
chunk. A backend evaluates its node; NumPy's arrays miss nothing and its reductions take no
`mask_identity`, and of Awkward Array's only the extrema take an `initial`. -/
structure FoldedOutput (α : Type) [LE α] where
  backend : ArrayBackend
  op : String
  params : ParamMap
  inputs : List Nat
  slot : Nat
  dtype : Dtype α
  column : Partition → Column dtype
  known : op ∈ backend.reducers
  dense : backend = .numpy → ∀ p, none ∉ (column p).entries
  unmasked : backend = .numpy → params.get? "mask_identity" = none
  signature : backend = .awkward → params.get? "initial" ≠ none → op = "ak.min" ∨ op = "ak.max"

namespace FoldedOutput

section

variable [LE α] (o : FoldedOutput α)

def node : NodeKey := .reduction o.op o.params o.inputs

def reduction (r : Reducers α) (scalar : ParamMap → Num α) (c : Column o.dtype) :
    Except Raised (Option (Datum α)) :=
  r.eval o.backend scalar o.op o.params c

/-- The array the tasks are cut from. -/
def whole (ts : List Task) : Column o.dtype :=
  Column.concat (ts.map fun t => o.column t.partition)

def isExtremum : Bool := lastName o.op == "min" || lastName o.op == "max"

/-- Whether the reduction has a value for nothing to reduce. -/
def hasIdentity : Bool :=
  match o.backend with
  | .numpy => !o.isExtremum
  | .awkward => !(Reducers.maskIdentity o.params).getD o.isExtremum

/-- The reduction of the whole array; `None` when there is nothing to reduce and no identity. -/
def expected (r : Reducers α) (scalar : ParamMap → Num α) (ts : List Task) :
    Except Raised (Option (Datum α)) :=
  if (o.whole ts).present = [] ∧ o.hasIdentity = false then .ok none
  else o.reduction r scalar (o.whole ts)

/-- Where the fold falls short: NumPy's extremum of a chunk with nothing in it, and an Awkward
extremum with an identity over no chunk at all. -/
def Folds (ts : List Task) : Prop :=
  o.isExtremum = true →
    match o.backend with
    | .numpy => ∀ t ∈ ts, (o.column t.partition).present ≠ []
    | .awkward => o.hasIdentity = true → ts ≠ []

theorem present_whole_append (xs ys : List Task) :
    (o.whole (xs ++ ys)).present = (o.whole xs).present ++ (o.whole ys).present := by
  unfold whole
  rw [Column.present_concat, Column.present_concat, Column.present_concat, List.map_append,
    List.flatMap_append]

theorem whole_singleton (t : Task) : o.whole [t] = o.column t.partition :=
  Column.concat_singleton _

end

section

variable [LE α] {o : FoldedOutput α} {r : Reducers α} {scalar : ParamMap → Num α}

theorem reducer_eq (op : String) (params : ParamMap) {d : Dtype α} (c : Column d) :
    r.reducer scalar op params c =
      r.awkward d op (Reducers.maskIdentity params) (Reducers.initial scalar params) c := by
  unfold Reducers.reducer
  split
  · rename_i h
    have hmask := h.2 "mask_identity" (by decide)
    have hinitial := h.2 "initial" (by decide)
    unfold Reducers.maskIdentity Reducers.initial
    rw [hmask, hinitial]
    rfl
  · rfl

theorem reduction_numpy (hnumpy : o.backend = .numpy) (c : Column o.dtype) :
    o.reduction r scalar c = r.numpy o.dtype o.op c := by
  have hknown := o.known
  unfold reduction Reducers.eval
  rw [hnumpy] at hknown ⊢
  exact if_pos hknown

theorem reduction_awkward (hawkward : o.backend = .awkward) (c : Column o.dtype) :
    o.reduction r scalar c =
      r.awkward o.dtype o.op (Reducers.maskIdentity o.params)
        (Reducers.initial scalar o.params) c := by
  have hknown := o.known
  unfold reduction Reducers.eval
  rw [hawkward] at hknown ⊢
  rw [if_pos hknown]
  exact reducer_eq _ _ _

end

section

variable [LE α] {o : FoldedOutput α} {r : Reducers α} {scalar : ParamMap → Num α} {f : Fold α}

/-- Of an accepted output: the reduction of an array of it is what the entries present come to, and
the fold keeps that. -/
structure Summarized (o : FoldedOutput α) (r : Reducers α) (scalar : ParamMap → Num α) (f : Fold α)
    (Spec : List (Num α) → Option (Datum α) → Prop) : Prop where
  summary : Summary f Spec
  reduces : ∀ c : Column o.dtype, (o.backend = .numpy → none ∉ c.entries) →
    ∀ v, o.reduction r scalar c = .ok v ↔ Spec c.present v
  /-- Only NumPy's extremum of nothing raises. -/
  gives : ∀ c : Column o.dtype, (o.backend = .numpy → none ∉ c.entries) →
    ((∃ v, o.reduction r scalar c = .ok v) ↔
      (o.backend = .numpy → o.isExtremum = true → c.present ≠ []))
  /-- The value of nothing to reduce is the empty one, an Awkward extremum's identity apart. -/
  nothing : ∀ v, Spec [] v →
    (v = f.empty ↔ ¬(o.isExtremum = true ∧ o.backend = .awkward ∧ o.hasIdentity = true))
  identity : ∀ v, Spec [] v → o.hasIdentity = false → v = none
  missing : ∀ ps, Spec ps none → ps = [] ∧ o.hasIdentity = false
  empty : o.hasIdentity = false → f.empty = none

theorem Summarized.of_total {total : List (Num α) → Datum α} {masked : Bool}
    (hsummary : Summary f (TotalSpec total masked))
    (hempty : f.empty = if masked = true then none else some (total []))
    (hred : ∀ c : Column o.dtype, (o.backend = .numpy → none ∉ c.entries) →
      o.reduction r scalar c =
        .ok (if masked = true ∧ c.present = [] then none else some (total c.present)))
    (hext : o.isExtremum = false) (hid : o.hasIdentity = !masked) :
    Summarized o r scalar f (TotalSpec total masked) := by
  have hfalse : o.isExtremum ≠ true := by
    rw [hext]
    exact Bool.false_ne_true
  refine ⟨hsummary, ?_, ?_, ?_, ?_, ?_, ?_⟩
  · intro c hc v
    rw [hred c hc]
    exact ⟨fun h => (Except.ok.inj h).symm, fun h => congrArg Except.ok h.symm⟩
  · intro c hc
    exact ⟨fun _ _ h => absurd h hfalse, fun _ => ⟨_, hred c hc⟩⟩
  · intro v hv
    refine ⟨fun _ hand => hfalse hand.1, fun _ => ?_⟩
    rw [hempty]
    refine hv.trans ?_
    cases masked with
    | true => rfl
    | false => rfl
  · intro v hv hnone
    rw [hid] at hnone
    exact hv.trans (if_pos ⟨by simpa using hnone, rfl⟩)
  · intro ps hps
    by_cases hand : masked = true ∧ ps = []
    · rw [hid, hand.1]
      exact ⟨hand.2, rfl⟩
    · exact absurd (hps.trans (if_neg hand)).symm (Option.some_ne_none _)
  · intro hnone
    rw [hid] at hnone
    rw [hempty]
    exact if_pos (by simpa using hnone)

theorem Summarized.of_extremum {le : α → α → Prop} (start : List (Num α)) (masked : Bool)
    (hextrema : Extrema f le) (hext : o.isExtremum = true)
    (hred : ∀ c : Column o.dtype, (o.backend = .numpy → none ∉ c.entries) →
      if masked = true ∧ c.present = [] then o.reduction r scalar c = .ok none
      else if o.backend = .numpy ∧ c.present = [] then ∃ e, o.reduction r scalar c = .error e
      else ∃ v, o.reduction r scalar c = .ok (some (.number v)) ∧
        Num.Extreme le (start ++ c.present) v)
    (hstart : o.backend = .numpy → start = [])
    (hid : o.hasIdentity = true ↔ o.backend = .awkward ∧ masked = false)
    (hmasked : o.backend = .numpy → masked = false) :
    Summarized o r scalar f (ExtremeSpec le start masked) := by
  refine ⟨hextrema.summary start masked, ?_, ?_, ?_, ?_, ?_, fun _ => hextrema.empty⟩
  · intro c hc v
    have h := hred c hc
    unfold ExtremeSpec
    by_cases hnone : masked = true ∧ c.present = []
    · rw [if_pos hnone] at h ⊢
      rw [h]
      exact ⟨fun h => (Except.ok.inj h).symm, fun h => congrArg Except.ok h.symm⟩
    · rw [if_neg hnone] at h ⊢
      by_cases hraise : o.backend = .numpy ∧ c.present = []
      · rw [if_pos hraise] at h
        obtain ⟨e, he⟩ := h
        rw [he]
        constructor
        · intro h
          cases h
        · rintro ⟨x, -, hx⟩
          rw [hstart hraise.1, hraise.2] at hx
          exact absurd hx Num.not_extreme_nil
      · rw [if_neg hraise] at h
        obtain ⟨x, hx, hextreme⟩ := h
        rw [hx]
        constructor
        · intro h
          exact ⟨x, (Except.ok.inj h).symm, hextreme⟩
        · intro ⟨y, hv, hy⟩
          rw [hv, hextreme.unique hextrema.antisymm hy]
  · intro c hc
    have h := hred c hc
    by_cases hraise : o.backend = .numpy ∧ c.present = []
    · have hplain : ¬(masked = true ∧ c.present = []) := by
        rw [hmasked hraise.1]
        exact fun hand => Bool.false_ne_true hand.1
      rw [if_neg hplain, if_pos hraise] at h
      obtain ⟨e, he⟩ := h
      rw [he]
      refine ⟨fun hv => ?_, fun hne => absurd hraise.2 (hne hraise.1 hext)⟩
      obtain ⟨v, hv⟩ := hv
      cases hv
    · refine ⟨fun _ hnumpy _ hempty => hraise ⟨hnumpy, hempty⟩, fun _ => ?_⟩
      by_cases hnone : masked = true ∧ c.present = []
      · rw [if_pos hnone] at h
        exact ⟨none, h⟩
      · rw [if_neg hnone, if_neg hraise] at h
        obtain ⟨x, hx, -⟩ := h
        exact ⟨_, hx⟩
  · intro v hv
    rw [hextrema.empty]
    unfold ExtremeSpec at hv
    by_cases hnone : masked = true ∧ ([] : List (Num α)) = []
    · rw [if_pos hnone] at hv
      refine ⟨fun _ hand => ?_, fun _ => hv⟩
      exact Bool.false_ne_true ((hid.mp hand.2.2).2.symm.trans hnone.1)
    · rw [if_neg hnone] at hv
      obtain ⟨x, rfl, hx⟩ := hv
      have hmask : masked = false := Bool.eq_false_iff.mpr fun h => hnone ⟨h, rfl⟩
      have hback : o.backend = .awkward := by
        cases hback : o.backend with
        | awkward => rfl
        | numpy =>
            rw [hstart hback] at hx
            exact absurd hx Num.not_extreme_nil
      refine ⟨fun h => absurd h (Option.some_ne_none _), fun h => absurd ?_ h⟩
      exact ⟨hext, hback, hid.mpr ⟨hback, hmask⟩⟩
  · intro v hv hnone
    unfold ExtremeSpec at hv
    by_cases hmask : masked = true ∧ ([] : List (Num α)) = []
    · rwa [if_pos hmask] at hv
    · rw [if_neg hmask] at hv
      obtain ⟨x, rfl, hx⟩ := hv
      have hfalse : masked = false := Bool.eq_false_iff.mpr fun h => hmask ⟨h, rfl⟩
      cases hback : o.backend with
      | awkward =>
          have htrue := hid.mpr ⟨hback, hfalse⟩
          rw [hnone] at htrue
          cases htrue
      | numpy =>
          rw [hstart hback] at hx
          exact absurd hx Num.not_extreme_nil
  · intro ps hps
    unfold ExtremeSpec at hps
    by_cases hand : masked = true ∧ ps = []
    · refine ⟨hand.2, Bool.eq_false_iff.mpr fun h => ?_⟩
      exact Bool.false_ne_true ((hid.mp h).2.symm.trans hand.1)
    · rw [if_neg hand] at hps
      obtain ⟨x, hx, -⟩ := hps
      exact absurd hx.symm (Option.some_ne_none _)

theorem Summarized.numpy_extremum {le : α → α → Prop} (hnumpy : o.backend = .numpy)
    (hextrema : Extrema f le) (hext : o.isExtremum = true)
    (hred : ∀ c : Column o.dtype, none ∉ c.entries →
      if c.present = [] then ∃ e, r.numpy o.dtype o.op c = .error e
      else ∃ v, r.numpy o.dtype o.op c = .ok (some (.number v)) ∧ Num.Extreme le c.present v) :
    ∃ Spec, Summarized o r scalar f Spec := by
  refine ⟨_, Summarized.of_extremum [] false hextrema hext ?_ (fun _ => rfl) ?_ fun _ => rfl⟩
  · intro c hc
    have h := hred c (hc hnumpy)
    rw [if_neg fun hand => Bool.false_ne_true hand.1, reduction_numpy hnumpy]
    by_cases hempty : c.present = []
    · rw [if_pos hempty] at h
      rwa [if_pos ⟨hnumpy, hempty⟩]
    · rw [if_neg hempty] at h
      rwa [if_neg fun hand => hempty hand.2]
  · have hid : o.hasIdentity = false := by
      unfold hasIdentity
      rw [hnumpy, hext]
      rfl
    rw [hid, hnumpy]
    decide

theorem Summarized.awkward_extremum {le : α → α → Prop} {start : Num α}
    (hawkward : o.backend = .awkward) (hextrema : Extrema f le) (hext : o.isExtremum = true)
    (hred : ∀ c : Column o.dtype,
      if (Reducers.maskIdentity o.params).getD true = true ∧ c.present = [] then
        o.reduction r scalar c = .ok none
      else ∃ v, o.reduction r scalar c = .ok (some (.number v)) ∧
        Num.Extreme le (start :: c.present) v) :
    ∃ Spec, Summarized o r scalar f Spec := by
  have hnot : o.backend ≠ .numpy := by
    rw [hawkward]
    decide
  refine ⟨_, Summarized.of_extremum [start] ((Reducers.maskIdentity o.params).getD true) hextrema
    hext ?_ (fun h => absurd h hnot) ?_ fun h => absurd h hnot⟩
  · intro c _
    have h := hred c
    by_cases hnone : (Reducers.maskIdentity o.params).getD true = true ∧ c.present = []
    · rwa [if_pos hnone] at h ⊢
    · rw [if_neg hnone] at h ⊢
      rwa [if_neg fun hand => hnot hand.1]
  · unfold hasIdentity
    rw [hawkward, hext]
    cases (Reducers.maskIdentity o.params).getD true <;> decide

/-- What a run holds of an output after these tasks. -/
def Reduces (o : FoldedOutput α) (r : Reducers α) (scalar : ParamMap → Num α) (f : Fold α)
    (ts : List Task) (v : Option (Datum α)) : Prop :=
  if ts = [] then v = f.empty else o.reduction r scalar (o.whole ts) = .ok v

theorem numpy_extremum_identity (hnumpy : o.backend = .numpy) (hext : o.isExtremum = true) :
    o.hasIdentity = false := by
  unfold hasIdentity
  rw [hnumpy, hext]
  rfl

theorem whole_dense (hnumpy : o.backend = .numpy) (ts : List Task) :
    none ∉ (o.whole ts).entries := by
  intro h
  obtain ⟨c, hc, hnone⟩ := List.mem_flatMap.mp h
  obtain ⟨t, -, rfl⟩ := List.mem_map.mp hc
  exact o.dense hnumpy t.partition hnone

theorem reduces_nil : o.Reduces r scalar f [] f.empty := by
  unfold Reduces
  rw [if_pos rfl]

theorem reduces_task {t : Task} {v : Option (Datum α)}
    (h : o.reduction r scalar (o.column t.partition) = .ok v) :
    o.Reduces r scalar f [t] v := by
  unfold Reduces
  rw [if_neg (List.cons_ne_nil _ _), whole_singleton]
  exact h

theorem Summarized.reduces_iff {Spec : List (Num α) → Option (Datum α) → Prop}
    (h : Summarized o r scalar f Spec) {ts : List Task} (hts : ts ≠ []) {v : Option (Datum α)} :
    o.Reduces r scalar f ts v ↔ Spec (o.whole ts).present v := by
  unfold Reduces
  rw [if_neg hts]
  exact h.reduces _ (fun hnumpy => whole_dense hnumpy ts) v

/-- With an identity, or something to reduce, the whole array has a value. -/
theorem reduction_whole {Spec : List (Num α) → Option (Datum α) → Prop}
    (hspec : Summarized o r scalar f Spec) {ts : List Task}
    (h : ¬((o.whole ts).present = [] ∧ o.hasIdentity = false)) :
    ∃ v, o.reduction r scalar (o.whole ts) = .ok v ∧ Spec (o.whole ts).present v := by
  have hgives := (hspec.gives _ fun hnumpy => whole_dense hnumpy ts).mpr
    fun hnumpy hext hnil => h ⟨hnil, numpy_extremum_identity hnumpy hext⟩
  obtain ⟨v, hv⟩ := hgives
  exact ⟨v, hv, (hspec.reduces _ (fun hnumpy => whole_dense hnumpy ts) v).mp hv⟩

end

section

variable [LinearOrder α] [AddMonoidWithOne α] {o : FoldedOutput α} {r : Reducers α}
  {scalar : ParamMap → Num α} {f : Fold α}

theorem totals_lookup : ∀ name ∈ ["sum", "count", "count_nonzero", "any", "all"],
    ∃ total : List (Num α) → Datum α, totals.lookup name = some total := by
  intro name hname
  simp only [List.mem_cons, List.not_mem_nil, or_false] at hname
  obtain rfl | rfl | rfl | rfl | rfl := hname
  · exact ⟨_, rfl⟩
  · exact ⟨_, rfl⟩
  · exact ⟨_, rfl⟩
  · exact ⟨_, rfl⟩
  · exact ⟨_, rfl⟩

theorem summarized_numpy (hdoc : Documented r) (hnumpy : o.backend = .numpy)
    (hf : foldOf o.node = .ok f) : ∃ Spec, Summarized o r scalar f Spec := by
  obtain ⟨g, hg, hfg⟩ := foldOf_reduction hf
  have hknown := o.known
  rw [hnumpy] at hknown
  obtain rfl : f = g := by
    unfold Reducers.maskIdentity at hfg
    rw [o.unmasked hnumpy] at hfg
    exact hfg
  obtain ⟨hop, hcases⟩ := numpy_accepted o.op hknown (folds_name hg)
  rw [← hop] at hg
  have hext : o.isExtremum = (o.op == "min" || o.op == "max") := by
    unfold isExtremum
    rw [← hop]
  obtain hname | hmax | hmin := hcases
  · obtain ⟨total, htotal⟩ := totals_lookup (α := α) o.op
      ((by decide : ∀ name ∈ ["sum", "any", "all"],
        name ∈ ["sum", "count", "count_nonzero", "any", "all"]) _ hname)
    have hfalse : o.isExtremum = false := by
      rw [hext]
      exact (by decide : ∀ op ∈ ["sum", "any", "all"], (op == "min" || op == "max") = false) _ hname
    have htotals := folds_total hg htotal
    refine ⟨_, Summarized.of_total htotals.summary htotals.empty ?_ hfalse ?_⟩
    · intro c hc
      rw [reduction_numpy hnumpy, hdoc.numpy_total hname htotal c (hc hnumpy)]
      rw [if_neg fun hand => Bool.false_ne_true hand.1]
    · unfold hasIdentity
      rw [hnumpy, hfalse]
  · rw [hmax] at hg hext
    apply Summarized.numpy_extremum hnumpy (extrema_max hg) hext
    rw [hmax]
    exact hdoc.numpy_max
  · rw [hmin] at hg hext
    apply Summarized.numpy_extremum hnumpy (extrema_min hg) hext
    rw [hmin]
    exact hdoc.numpy_min

theorem summarized_awkward (hdoc : Documented r) (hawkward : o.backend = .awkward)
    (hf : foldOf o.node = .ok f) : ∃ Spec, Summarized o r scalar f Spec := by
  obtain ⟨g, hg, hfg⟩ := foldOf_reduction hf
  have hknown := o.known
  rw [hawkward] at hknown
  have hname := folds_name hg
  have hop := awkward_accepted o.op hknown hname
  have hnot : o.backend ≠ .numpy := by
    rw [hawkward]
    decide
  by_cases hext : o.isExtremum = true
  · have hboth : lastName o.op = "min" ∨ lastName o.op = "max" := by
      unfold isExtremum at hext
      simpa using hext
    obtain hmin | hmax := hboth
    · have hextrema : Extrema f (· ≥ ·) := by
        rw [hmin] at hg
        rw [hfg, (extrema_min hg).masked]
        exact extrema_min hg
      apply Summarized.awkward_extremum hawkward hextrema hext
      intro c
      rw [reduction_awkward hawkward, hop, hmin]
      exact hdoc.awkward_min _ _ c
    · have hextrema : Extrema f (· ≤ ·) := by
        rw [hmax] at hg
        rw [hfg, (extrema_max hg).masked]
        exact extrema_max hg
      apply Summarized.awkward_extremum hawkward hextrema hext
      intro c
      rw [reduction_awkward hawkward, hop, hmax]
      exact hdoc.awkward_max _ _ c
  · have hfalse : o.isExtremum = false := Bool.eq_false_iff.mpr hext
    have hplain : lastName o.op ∈ ["sum", "count", "count_nonzero", "any", "all"] := by
      unfold isExtremum at hfalse
      exact (by decide : ∀ name ∈ foldNames, (name == "min" || name == "max") = false →
        name ∈ ["sum", "count", "count_nonzero", "any", "all"]) _ hname hfalse
    obtain ⟨total, htotal⟩ := totals_lookup (α := α) (lastName o.op) hplain
    have htotals := folds_total hg htotal
    have hinitial : Reducers.initial scalar o.params = none := by
      unfold Reducers.initial
      cases hget : o.params.get? "initial" with
      | none => rfl
      | some value =>
          have hnames := o.signature hawkward (by rw [hget]; exact Option.some_ne_none _)
          have hlast : (lastName o.op == "min" || lastName o.op == "max") = true := by
            obtain h | h := hnames
            · rw [h]
              decide
            · rw [h]
              decide
          exact absurd hlast hext
    have hred : ∀ c : Column o.dtype, o.reduction r scalar c =
        .ok (if (Reducers.maskIdentity o.params).getD false = true ∧ c.present = [] then none
          else some (total c.present)) := by
      intro c
      rw [reduction_awkward hawkward, hop, hinitial]
      exact hdoc.awkward_total htotal _ c
    have hid : o.hasIdentity = !(Reducers.maskIdentity o.params).getD false := by
      unfold hasIdentity
      rw [hawkward, hfalse]
    cases hmask : (Reducers.maskIdentity o.params).getD false with
    | true =>
        rw [hmask] at hfg hred hid
        obtain rfl : f = { g with empty := none } := hfg
        exact ⟨_, Summarized.of_total htotals.masked_summary rfl (fun c _ => hred c) hfalse hid⟩
    | false =>
        rw [hmask] at hfg hred hid
        obtain rfl : f = g := hfg
        exact ⟨_, Summarized.of_total htotals.summary htotals.empty (fun c _ => hred c) hfalse hid⟩

/-- Every accepted output is summarized by its fold. -/
theorem summarized (hdoc : Documented r) (hf : foldOf o.node = .ok f) :
    ∃ Spec, Summarized o r scalar f Spec := by
  cases hbackend : o.backend with
  | numpy => exact summarized_numpy hdoc hbackend hf
  | awkward => exact summarized_awkward hdoc hbackend hf

/-- One step: the values of two runs of chunks combine to the value of both. -/
theorem reduces_call (hdoc : Documented r) (hf : foldOf o.node = .ok f) {xs ys : List Task}
    {a b : Option (Datum α)} (ha : o.Reduces r scalar f xs a) (hb : o.Reduces r scalar f ys b) :
    ∃ c, f.call a b = .ok c ∧ o.Reduces r scalar f (xs ++ ys) c := by
  obtain ⟨Spec, hspec⟩ : ∃ Spec, Summarized o r scalar f Spec := summarized hdoc hf
  by_cases hxs : xs = []
  · have hempty : a = f.empty := by
      unfold Reduces at ha
      rwa [if_pos hxs] at ha
    rw [hempty, hxs, List.nil_append]
    refine ⟨b, ?_, hb⟩
    by_cases hys : ys = []
    · have hempty' : b = f.empty := by
        unfold Reduces at hb
        rwa [if_pos hys] at hb
      rw [hempty']
      exact hspec.summary.both
    · exact hspec.summary.left ((hspec.reduces_iff hys).mp hb)
  · by_cases hys : ys = []
    · have hempty : b = f.empty := by
        unfold Reduces at hb
        rwa [if_pos hys] at hb
      rw [hempty, hys, List.append_nil]
      exact ⟨a, hspec.summary.right ((hspec.reduces_iff hxs).mp ha), ha⟩
    · obtain ⟨c, hcall, hc⟩ := hspec.summary.append ((hspec.reduces_iff hxs).mp ha)
        ((hspec.reduces_iff hys).mp hb)
      refine ⟨c, hcall, (hspec.reduces_iff fun h => hxs (List.append_eq_nil_iff.mp h).1).mpr ?_⟩
      rwa [present_whole_append]

end

end FoldedOutput

/-! ### Several outputs -/

section

variable [LinearOrder α] [AddMonoidWithOne α] {r : Reducers α} {scalar : ParamMap → Num α}

/-- The values of the outputs after these tasks. -/
inductive Held (r : Reducers α) (scalar : ParamMap → Num α) (ts : List Task) :
    List (FoldedOutput α) → List (Fold α) → List (Option (Datum α)) → Prop
  | nil : Held r scalar ts [] [] []
  | cons {o : FoldedOutput α} {f : Fold α} {v : Option (Datum α)} {os fs vs} :
      foldOf o.node = .ok f → o.Reduces r scalar f ts v → Held r scalar ts os fs vs →
        Held r scalar ts (o :: os) (f :: fs) (v :: vs)

/-- The outputs fold one by one, whatever the others do. -/
theorem held_zipFolds (hdoc : Documented r) {xs ys : List Task} {os : List (FoldedOutput α)}
    {fs : List (Fold α)} {as bs : List (Option (Datum α))} (ha : Held r scalar xs os fs as)
    (hb : Held r scalar ys os fs bs) :
    ∃ cs, Folded.zipFolds fs as bs = .ok cs ∧ Held r scalar (xs ++ ys) os fs cs := by
  induction ha generalizing bs with
  | nil =>
      cases hb
      exact ⟨[], rfl, .nil⟩
  | cons hf hv _ ih =>
      cases hb with
      | cons _ hw hrest =>
          obtain ⟨c, hcall, hc⟩ := FoldedOutput.reduces_call hdoc hf hv hw
          obtain ⟨cs, hzip, hcs⟩ := ih hrest
          refine ⟨c :: cs, ?_, .cons hf hc hcs⟩
          simp only [Folded.zipFolds, hcall, hzip, bind, Except.bind]

/-- The folds of outputs every one of which is accepted. -/
def FoldsOf (os : List (FoldedOutput α)) (fs : List (Fold α)) : Prop :=
  List.Forall₂ (fun o f => foldOf (FoldedOutput.node o) = .ok f) os fs

theorem held_empty {os : List (FoldedOutput α)} {fs : List (Fold α)} (h : FoldsOf os fs) :
    Held r scalar [] os fs (fs.map Fold.empty) := by
  induction h with
  | nil => exact .nil
  | cons hf _ ih => exact .cons hf FoldedOutput.reduces_nil ih

/-- What the compiled graph evaluates to on a chunk: at each output's slot its reduction, which
outputs the optimizer has merged share; it raises when one of them does. -/
structure Evaluates (r : Reducers α) (scalar : ParamMap → Num α) (os : List (FoldedOutput α))
    (values : Partition → Except Raised (List (Option (Datum α)))) : Prop where
  reads : ∀ p, (∀ o ∈ os, ∃ v, o.reduction r scalar (o.column p) = .ok v) →
    ∃ vs, values p = .ok vs ∧
      ∀ o ∈ os, ∀ v, o.reduction r scalar (o.column p) = .ok v → vs[o.slot]? = some v
  raises : ∀ p, ∀ o ∈ os, ∀ e, o.reduction r scalar (o.column p) = .error e →
    ∃ e', values p = .error e'

theorem held_task {os : List (FoldedOutput α)} {fs : List (Fold α)} (h : FoldsOf os fs) {t : Task}
    {vs : List (Option (Datum α))}
    (hred : ∀ o ∈ os, ∃ v, o.reduction r scalar (o.column t.partition) = .ok v)
    (hvs : ∀ o ∈ os, ∀ v, o.reduction r scalar (o.column t.partition) = .ok v →
      vs[o.slot]? = some v) :
    ∃ read, (os.map FoldedOutput.slot).mapM
        (fun slot => (vs[slot]?).elim (.error indexError) .ok) = (.ok read : Except Raised _) ∧
      Held r scalar [t] os fs read := by
  induction h with
  | nil => exact ⟨[], rfl, .nil⟩
  | @cons o f os fs hf _ ih =>
      obtain ⟨v, hv⟩ := hred o List.mem_cons_self
      obtain ⟨read, hread, hheld⟩ := ih (fun o ho => hred o (List.mem_cons_of_mem _ ho))
        fun o ho => hvs o (List.mem_cons_of_mem _ ho)
      refine ⟨v :: read, ?_, .cons hf (FoldedOutput.reduces_task hv) hheld⟩
      rw [List.map_cons, List.mapM_cons, hvs o List.mem_cons_self v hv, hread]
      rfl

/-- **A run of the tree holds the reduction of each output**, by induction on the tree. -/
theorem held_reduce (hdoc : Documented r) {os : List (FoldedOutput α)} {F : Folded α}
    (hfs : FoldsOf os F.folds) (hslots : F.slots = os.map FoldedOutput.slot)
    {values : Partition → Except Raised (List (Option (Datum α)))}
    (hvalues : Evaluates r scalar os values) (tasks : List Task) {tree : Reduction}
    (hred : ∀ t ∈ tree.leaves, ∀ o ∈ os,
      ∃ v, o.reduction r scalar (o.column t.partition) = .ok v) :
    ∃ vs, tree.reduce (F.plan values tasks) = .ok (.tuple vs) ∧
      Held r scalar tree.leaves os F.folds vs := by
  induction tree with
  | empty => exact ⟨_, rfl, held_empty hfs⟩
  | task t =>
      obtain ⟨vs, hp, hvs⟩ := hvalues.reads t.partition (hred t List.mem_cons_self)
      obtain ⟨read, hread, hheld⟩ := held_task hfs (hred t List.mem_cons_self) hvs
      refine ⟨read, ?_, hheld⟩
      change (values t.partition >>= F.reduce) = _
      rw [hp]
      change (F.slots.mapM _ >>= fun read => Except.ok (FoldedValue.tuple read)) = _
      rw [hslots, hread]
      rfl
  | merge left right ihl ihr =>
      obtain ⟨as, hleft, ha⟩ := ihl fun t ht => hred t (List.mem_append_left _ ht)
      obtain ⟨bs, hright, hb⟩ := ihr fun t ht => hred t (List.mem_append_right _ ht)
      obtain ⟨cs, hzip, hc⟩ := held_zipFolds hdoc ha hb
      refine ⟨cs, ?_, hc⟩
      change (left.reduce (F.plan values tasks) >>= fun a =>
        right.reduce (F.plan values tasks) >>= fun b => F.combine a b) = _
      rw [hleft, hright]
      change (Folded.zipFolds F.folds as bs >>= fun vs => Except.ok (FoldedValue.tuple vs)) = _
      rw [hzip]
      rfl

omit [AddMonoidWithOne α] in
/-- A chunk that raises ends the run. -/
theorem reduce_raises {os : List (FoldedOutput α)} {F : Folded α}
    {values : Partition → Except Raised (List (Option (Datum α)))}
    (hvalues : Evaluates r scalar os values) (tasks : List Task) {tree : Reduction} {t : Task}
    (ht : t ∈ tree.leaves) {o : FoldedOutput α} (ho : o ∈ os) {e : Raised}
    (he : o.reduction r scalar (o.column t.partition) = .error e) :
    ∃ e', tree.reduce (F.plan values tasks) = .error e' := by
  induction tree with
  | empty => cases ht
  | task u =>
      obtain rfl := List.mem_singleton.mp ht
      obtain ⟨e', he'⟩ := hvalues.raises t.partition o ho e he
      refine ⟨e', ?_⟩
      change (values t.partition >>= F.reduce) = _
      rw [he']
      rfl
  | merge left right ihl ihr =>
      change ∃ e', (left.reduce (F.plan values tasks) >>= fun a =>
        right.reduce (F.plan values tasks) >>= fun b => F.combine a b) = .error e'
      cases List.mem_append.mp ht with
      | inl ht =>
          obtain ⟨e', he'⟩ := ihl ht
          rw [he']
          exact ⟨e', rfl⟩
      | inr ht =>
          obtain ⟨e', he'⟩ := ihr ht
          cases hleft : left.reduce (F.plan values tasks) with
          | error e => exact ⟨e, rfl⟩
          | ok a =>
              rw [he']
              exact ⟨e', rfl⟩

theorem foldsOf_mapM {os : List (FoldedOutput α)}
    {step : (NodeKey × Nat) × Nat → Except Raised (Fold α)}
    (hstep : ∀ entry f, step entry = .ok f → foldOf entry.1.1 = .ok f) {n : Nat}
    {fs : List (Fold α)}
    (h : ((os.map fun o => (o.node, o.slot)).zipIdx n).mapM step = .ok fs) : FoldsOf os fs := by
  induction os generalizing n fs with
  | nil =>
      obtain rfl := Except.ok.inj h
      exact .nil
  | cons o os ih =>
      rw [List.map_cons, List.zipIdx_cons, List.mapM_cons] at h
      obtain ⟨f, hf, h⟩ := ok_of_bind.mp h
      obtain ⟨rest, hrest, h⟩ := ok_of_bind.mp h
      obtain rfl := Except.ok.inj h
      exact .cons (hstep _ _ hf) (ih hrest)

theorem folded_cases {os : List (FoldedOutput α)} {F : Folded α}
    (h : folded (os.map fun o => (o.node, o.slot)) = .ok F) :
    FoldsOf os F.folds ∧ F.slots = os.map FoldedOutput.slot := by
  obtain ⟨fs, hfs, hF⟩ := ok_of_bind.mp h
  obtain rfl := Except.ok.inj hF
  refine ⟨foldsOf_mapM ?_ hfs, ?_⟩
  · intro entry f hf
    cases hnode : foldOf (α := α) entry.1.1 with
    | error err =>
        simp only [hnode] at hf
        cases hf
    | ok fold =>
        simp only [hnode] at hf
        exact hf
  · change (os.map fun o => (o.node, o.slot)).map Prod.snd = _
    rw [List.map_map]
    rfl

namespace FoldedOutput

variable {o : FoldedOutput α} {f : Fold α}

/-- Where an accepted output folds, every chunk of it has a value. -/
theorem gives_of_folds (scalar : ParamMap → Num α) (hdoc : Documented r) (hf : foldOf o.node = .ok f) {ts : List Task}
    (h : o.Folds ts) {t : Task} (ht : t ∈ ts) :
    ∃ v, o.reduction r scalar (o.column t.partition) = .ok v := by
  obtain ⟨Spec, hspec⟩ : ∃ Spec, Summarized o r scalar f Spec := summarized hdoc hf
  apply (hspec.gives _ fun hnumpy => o.dense hnumpy t.partition).mpr
  intro hnumpy hext
  have hall := h hext
  rw [hnumpy] at hall
  exact hall t ht

/-- What is expected of an accepted output is a value. -/
theorem expected_ok (hdoc : Documented r) (hf : foldOf o.node = .ok f) (ts : List Task) :
    ∃ v, o.expected r scalar ts = .ok v := by
  obtain ⟨Spec, hspec⟩ : ∃ Spec, Summarized o r scalar f Spec := summarized hdoc hf
  unfold expected
  by_cases hnone : (o.whole ts).present = [] ∧ o.hasIdentity = false
  · rw [if_pos hnone]
    exact ⟨none, rfl⟩
  · rw [if_neg hnone]
    obtain ⟨v, hv, -⟩ := reduction_whole hspec hnone
    exact ⟨v, hv⟩

theorem expected_none_iff (hdoc : Documented r) (hf : foldOf o.node = .ok f) (ts : List Task) :
    o.expected r scalar ts = .ok none ↔ (o.whole ts).present = [] ∧ o.hasIdentity = false := by
  obtain ⟨Spec, hspec⟩ : ∃ Spec, Summarized o r scalar f Spec := summarized hdoc hf
  unfold expected
  by_cases hnone : (o.whole ts).present = [] ∧ o.hasIdentity = false
  · rw [if_pos hnone]
    exact ⟨fun _ => hnone, fun _ => rfl⟩
  · rw [if_neg hnone]
    refine ⟨fun h => ?_, fun h => absurd h hnone⟩
    exact hspec.missing _ ((hspec.reduces _ (fun hnumpy => whole_dense hnumpy ts) none).mp h)

/-- Where it does not fold, a chunk raises or the value of no chunks is not what is expected. -/
theorem raises_or_differs (scalar : ParamMap → Num α) (hdoc : Documented r) (hf : foldOf o.node = .ok f) {ts : List Task}
    (h : ¬o.Folds ts) :
    (∃ t ∈ ts, ∃ e, o.reduction r scalar (o.column t.partition) = .error e) ∨
      (ts = [] ∧ o.expected r scalar ts ≠ .ok f.empty) := by
  obtain ⟨Spec, hspec⟩ : ∃ Spec, Summarized o r scalar f Spec := summarized hdoc hf
  obtain ⟨hext, h⟩ := Classical.not_imp.mp h
  cases hback : o.backend with
  | numpy =>
      rw [hback] at h
      obtain ⟨t, ht, hnil⟩ : ∃ t ∈ ts, (o.column t.partition).present = [] := by
        by_contra hno
        exact h fun t ht hnil => hno ⟨t, ht, hnil⟩
      refine .inl ⟨t, ht, ?_⟩
      cases hred : o.reduction r scalar (o.column t.partition) with
      | error e => exact ⟨e, rfl⟩
      | ok v =>
          have hgives := (hspec.gives _ fun hnumpy => o.dense hnumpy t.partition).mp ⟨v, hred⟩
          exact absurd hnil (hgives hback hext)
  | awkward =>
      rw [hback] at h
      obtain ⟨hid, hts⟩ := Classical.not_imp.mp h
      have hnil : ts = [] := not_not.mp hts
      subst hnil
      refine .inr ⟨rfl, ?_⟩
      have hsome : ¬((o.whole []).present = [] ∧ o.hasIdentity = false) := by
        rw [hid]
        exact fun hand => Bool.false_ne_true hand.2.symm
      obtain ⟨v, hv, hspecv⟩ := reduction_whole hspec hsome
      unfold expected
      rw [if_neg hsome, hv]
      intro heq
      exact (hspec.nothing v hspecv).mp (Except.ok.inj heq) ⟨hext, hback, hid⟩

/-- What a run holds is what is expected. -/
theorem expected_of_reduces (hdoc : Documented r) (hf : foldOf o.node = .ok f) {ts : List Task}
    (h : o.Folds ts) {v : Option (Datum α)} (hv : o.Reduces r scalar f ts v) :
    o.expected r scalar ts = .ok v := by
  obtain ⟨Spec, hspec⟩ : ∃ Spec, Summarized o r scalar f Spec := summarized hdoc hf
  unfold expected
  by_cases hnone : (o.whole ts).present = [] ∧ o.hasIdentity = false
  · rw [if_pos hnone]
    by_cases hts : ts = []
    · unfold Reduces at hv
      rw [if_pos hts] at hv
      rw [hv, hspec.empty hnone.2]
    · have hspecv := (hspec.reduces_iff hts).mp hv
      rw [hnone.1] at hspecv
      rw [hspec.identity v hspecv hnone.2]
  · rw [if_neg hnone]
    obtain ⟨w, hw, hspecw⟩ := reduction_whole hspec hnone
    by_cases hts : ts = []
    · subst hts
      unfold Reduces at hv
      rw [if_pos rfl] at hv
      have hnothing : w = f.empty := by
        apply (hspec.nothing w hspecw).mpr
        intro hand
        have hno := h hand.1
        rw [hand.2.1] at hno
        exact hno hand.2.2 rfl
      rw [hw, hv, hnothing]
    · rw [hw, hspec.summary.unique hspecw ((hspec.reduces_iff hts).mp hv)]

end FoldedOutput

omit [LinearOrder α] [AddMonoidWithOne α] in
theorem finalize_inj {vs ws : List (Option (Datum α))}
    (h : Folded.finalize (.tuple vs) = Folded.finalize (.tuple ws)) : vs = ws := by
  cases vs with
  | nil =>
      cases ws with
      | nil => rfl
      | cons w ws => cases ws <;> cases h
  | cons v vs =>
      cases vs with
      | nil =>
          cases ws with
          | nil => cases h
          | cons w ws =>
              cases ws with
              | nil =>
                  cases h
                  rfl
              | cons w' ws => cases h
      | cons v' vs =>
          cases ws with
          | nil => cases h
          | cons w ws =>
              cases ws with
              | nil => cases h
              | cons w' ws =>
                  cases h
                  rfl

/-- The values expected of the outputs. -/
def expectedAll (r : Reducers α) (scalar : ParamMap → Num α) (ts : List Task)
    (os : List (FoldedOutput α)) : Except Raised (List (Option (Datum α))) :=
  os.mapM fun o => o.expected r scalar ts

omit [AddMonoidWithOne α] in
theorem expectedAll_cons {o : FoldedOutput α} {os : List (FoldedOutput α)} {ts : List Task} :
    expectedAll r scalar ts (o :: os) =
      (o.expected r scalar ts >>= fun v => expectedAll r scalar ts os >>= fun vs =>
        .ok (v :: vs)) := by
  unfold expectedAll
  rw [List.mapM_cons]
  rfl

theorem expectedAll_ok (scalar : ParamMap → Num α) (hdoc : Documented r)
    {os : List (FoldedOutput α)} {fs : List (Fold α)}
    (hfs : FoldsOf os fs) (ts : List Task) : ∃ vs, expectedAll r scalar ts os = .ok vs := by
  induction hfs with
  | nil => exact ⟨[], rfl⟩
  | cons hf _ ih =>
      obtain ⟨v, hv⟩ := FoldedOutput.expected_ok hdoc hf ts
      obtain ⟨vs, hvs⟩ := ih
      exact ⟨v :: vs, by rw [expectedAll_cons, hv, hvs]; rfl⟩

/-- Held values are the expected ones where every output folds, and only there. -/
theorem expectedAll_held (hdoc : Documented r) {os : List (FoldedOutput α)} {fs : List (Fold α)}
    {ts : List Task} {vs : List (Option (Datum α))} (h : Held r scalar ts os fs vs)
    (hred : ∀ t ∈ ts, ∀ o ∈ os, ∃ v, o.reduction r scalar (o.column t.partition) = .ok v) :
    expectedAll r scalar ts os = .ok vs ↔ ∀ o ∈ os, o.Folds ts := by
  induction h with
  | nil =>
      refine ⟨fun _ o ho => ?_, fun _ => rfl⟩
      cases ho
  | @cons o f v os fs vs hf hv _ ih =>
      have hrest := ih fun t ht o ho => hred t ht o (List.mem_cons_of_mem _ ho)
      rw [expectedAll_cons]
      constructor
      · intro h
        obtain ⟨w, hw, h⟩ := ok_of_bind.mp h
        obtain ⟨ws, hws, h⟩ := ok_of_bind.mp h
        obtain ⟨rfl, rfl⟩ := List.cons.inj (Except.ok.inj h)
        intro o' ho'
        cases ho' with
        | tail _ ho' => exact hrest.mp hws o' ho'
        | head =>
            by_contra hfolds
            obtain ⟨t, ht, e, he⟩ | ⟨hnil, hdiffers⟩ :=
              FoldedOutput.raises_or_differs scalar hdoc hf hfolds
            · obtain ⟨u, hu⟩ := hred t ht o List.mem_cons_self
              rw [hu] at he
              cases he
            · unfold FoldedOutput.Reduces at hv
              rw [if_pos hnil] at hv
              rw [hv] at hw
              exact hdiffers hw
      · intro hall
        have hw := FoldedOutput.expected_of_reduces hdoc hf (hall o List.mem_cons_self) hv
        have hws := hrest.mpr fun o' ho' => hall o' (List.mem_cons_of_mem _ ho')
        rw [hw, hws]
        rfl

end

section Entries

/-- An `int8` array of two entries a chunk, one of them missing. -/
def twoEntries (_ : Partition) : Column (⟨-128, 127⟩ : Dtype Int) where
  entries := [some (.num 3), none]
  within x hx := by
    obtain rfl : x = 3 := by simpa using hx
    decide

/-- `ak.sum(x)`. -/
def sumOutput : FoldedOutput Int where
  backend := .awkward
  op := "ak.sum"
  params := .new [("axis", .str "none")]
  inputs := [0]
  slot := 0
  dtype := ⟨-128, 127⟩
  column := twoEntries
  known := by decide
  dense h := by cases h
  unmasked h := by cases h
  signature _ h := absurd (by decide) h

/-- `ak.max(x, mask_identity=False)`. -/
def maxOutput : FoldedOutput Int where
  backend := .awkward
  op := "ak.max"
  params := .new [("axis", .str "none"), ("mask_identity", .bool false)]
  inputs := [0]
  slot := 0
  dtype := ⟨-128, 127⟩
  column := twoEntries
  known := by decide
  dense h := by cases h
  unmasked h := by cases h
  signature _ _ := .inr rfl

/-- What is evaluated where every output is `o`, merged into one slot. -/
def mergedValues (o : FoldedOutput Int) (p : Partition) :
    Except Raised (List (Option (Datum Int))) :=
  (o.reduction (referenceReducers Int) (fun _ => .nan) (o.column p)).map fun v => [v]

theorem mergedValues_evaluates {o : FoldedOutput Int} (hslot : o.slot = 0)
    {os : List (FoldedOutput Int)} (hos : ∀ o' ∈ os, o' = o) :
    Evaluates (referenceReducers Int) (fun _ => .nan) (o :: os) (mergedValues o) := by
  have hall : ∀ o' ∈ o :: os, o' = o := by
    intro o' ho'
    cases ho' with
    | head => rfl
    | tail _ ho' => exact hos o' ho'
  constructor
  · intro p h
    obtain ⟨v, hv⟩ := h o List.mem_cons_self
    refine ⟨[v], ?_, ?_⟩
    · unfold mergedValues
      rw [hv]
      rfl
    · intro o' ho' w hw
      obtain rfl := hall o' ho'
      rw [hv] at hw
      obtain rfl := Except.ok.inj hw
      rw [hslot]
      rfl
  · intro p o' ho' e he
    obtain rfl := hall o' ho'
    unfold mergedValues
    rw [he]
    exact ⟨e, rfl⟩

/-- Two chunks. -/
def twoTasks : List Task :=
  [⟨0, ⟨"f.parquet", "", 0, 2, none, none, none⟩⟩, ⟨1, ⟨"f.parquet", "", 2, 4, none, none, none⟩⟩]

/-- The identity first, and then the two chunks. -/
def twoTree : Reduction :=
  .merge .empty (.merge (.task ⟨0, ⟨"f.parquet", "", 0, 2, none, none, none⟩⟩)
    (.task ⟨1, ⟨"f.parquet", "", 2, 4, none, none, none⟩⟩))

end Entries

end Graphed
