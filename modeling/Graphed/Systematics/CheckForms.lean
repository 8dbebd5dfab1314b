import Graphed.Frontend.Session
import Graphed.Systematics.Ambient

/-!
# The composition over arrays and over forms

A registration is type-checked by the walk the read will take, run over the members' forms with a
memo kept by the Session. Over arrays a product is recorded, and recording pairs the rows of its
operands, which forms do not carry: the two raise alike where the members multiplied together never
carry rows of different partitioned sources.
-/

namespace Graphed

open FirstSeen

variable {F : Type}

/-! ### The two products -/

/-- An array as a product reads it: its form, and the row sets it carries. -/
structure Weight (F : Type) where
  form : F
  rows : List Nat

/-- The form the backend infers for a product. -/
def Inference.mulOf (I : Inference F) (left right : F) : Except String F :=
  I.opForm "mul" [left, right] (.new [])

/-- Rows of different sources, which no operation pairs. -/
abbrev RowsClash (left right : List Nat) : Prop := left ≠ [] ∧ right ≠ [] ∧ left ≠ right

/-- Arrays multiply as the Session records them; a refusal is raised again at its label. -/
def times (I : Inference F) (left right : Weight F) (label : String) :
    StateT Unit (Except String) (Weight F) := fun s =>
  if RowsClash left.rows right.rows then .error label
  else
    match I.mulOf left.form right.form with
    | .error _ => .error label
    | .ok form =>
        .ok (⟨form, if I.hasRows form then (firsts [left.rows, right.rows]).flatten else []⟩, s)

/-- Product forms by what their operands' forms describe. -/
abbrev MulForms (F : Type) := List ((String × String) × F)

def mulForm (I : Inference F) (describe : F → String) (left right : F) (label : String) :
    StateT (MulForms F) (Except String) F := fun memo =>
  match memo.lookup (describe left, describe right) with
  | some hit => .ok (hit, memo)
  | none =>
      match I.mulOf left right with
      | .error _ => .error label
      | .ok form => .ok (form, memo ++ [((describe left, describe right), form)])

theorem firsts_pair {X : Type} [DecidableEq X] (a b : X) :
    firsts [a, b] = if a = b then [a] else [a, b] := by
  change insertNew [a] b = _
  by_cases heq : a = b
  · rw [if_pos heq, insertNew_of_mem (heq ▸ List.mem_cons_self)]
  · rw [if_neg heq, insertNew_of_notMem fun h => heq (List.mem_singleton.mp h).symm]
    rfl

namespace Session

variable [Inhabited F] (I : Inference F) (s : Session F)

def rowsOf (node : Nat) : List Nat := s.rows.getD node []

def overArrays : Walk (Weight F) String Unit where
  project node := ⟨s.forms.getD node default, s.rowsOf node⟩
  mul := times I

def overForms (describe : F → String) : Walk F String (MulForms F) where
  project node := s.forms.getD node default
  mul := mulForm I describe

omit [Inhabited F] in
theorem sameRows_pair (op : String) (left right : Nat) :
    s.sameRows op [left, right] =
      if RowsClash (s.rowsOf left) (s.rowsOf right) then .error (.otherRows op) else .ok () := by
  unfold sameRows
  change (if ((firsts [s.rowsOf left, s.rowsOf right]).filter (· ≠ [])).length < 2 then _ else _) =
    _
  generalize s.rowsOf left = a
  generalize s.rowsOf right = b
  rw [firsts_pair]
  unfold RowsClash
  by_cases ha : a = [] <;> by_cases hb : b = [] <;> by_cases hab : a = b <;>
    simp [ha, hb, hab]

/-- Recording a product of two recorded arrays refuses what `times` refuses. -/
theorem recordOp_mul {left right : Nat} (hleft : left < s.forms.length)
    (hright : right < s.forms.length) (hlength : s.forms.length = s.nodes.length) (label : String) :
    (∃ id, (s.recordOp I "mul" [left, right] (.new []) false none).1 = .ok id) ↔
      ∃ out, times I ((s.overArrays I).project left) ((s.overArrays I).project right) label () =
        .ok out := by
  have hfind : ∀ n, n = s.forms.length →
      ([left, right].find? fun i => decide (n ≤ i)) = none := by
    rintro n rfl
    refine List.find?_eq_none.mpr fun i hi => ?_
    have hlt : i < s.forms.length := by
      obtain rfl | hi := List.mem_cons.mp hi
      · exact hleft
      · exact List.mem_singleton.mp hi ▸ hright
    simpa using hlt
  have hforms : ([left, right].filterMap (s.forms[·]?)) =
      [s.forms.getD left default, s.forms.getD right default] := by
    rw [← List.getElem_eq_getD (h := hleft), ← List.getElem_eq_getD (h := hright)]
    simp only [List.filterMap_cons, List.filterMap_nil, List.getElem?_eq_getElem hleft,
      List.getElem?_eq_getElem hright]
  have henter : ∀ form, ∃ id, (s.enter I (.op "mul" (.new []) [left, right]) form none).1 =
      .ok id := by
    intro form
    have hintern : ∃ id, (s.store.intern (.op "mul" (.new []) [left, right])).1 = .ok id := by
      unfold GraphStore.intern
      rw [show (NodeKey.op "mul" (.new []) [left, right]).inputs = [left, right] from rfl,
        hfind s.store.nodes.length hlength.symm]
      cases s.store.lookup (.op "mul" (.new []) [left, right]) <;> exact ⟨_, rfl⟩
    obtain ⟨id, hid⟩ := hintern
    unfold Session.enter
    generalize s.store.intern (.op "mul" (.new []) [left, right]) = out at hid ⊢
    obtain ⟨_, store⟩ := out
    obtain rfl := hid
    by_cases hold : id < s.forms.length
    · exact ⟨id, by simp only [if_pos hold]⟩
    · exact ⟨id, by simp only [if_neg hold]⟩
  unfold recordOp times
  simp only [Option.isNone_none, if_true, sameRows_pair]
  change _ ↔ ∃ out, (if RowsClash (s.rowsOf left) (s.rowsOf right) then _ else _) = _
  by_cases hclash : RowsClash (s.rowsOf left) (s.rowsOf right)
  · simp only [if_pos hclash, reduceCtorEq, exists_false]
  · simp only [if_neg hclash]
    unfold located
    rw [hfind _ rfl, hforms]
    have hmul : I.opForm "mul" [s.forms.getD left default, s.forms.getD right default] (.new []) =
        I.mulOf ((s.overArrays I).project left).form ((s.overArrays I).project right).form := rfl
    rw [hmul]
    generalize I.mulOf ((s.overArrays I).project left).form
      ((s.overArrays I).project right).form = inferred
    cases inferred with
    | error e => simp only [reduceCtorEq, exists_false]
    | ok form =>
        obtain ⟨id, hid⟩ := henter form
        exact ⟨fun _ => ⟨_, rfl⟩, fun _ => ⟨id, hid⟩⟩

end Session

/-! ### The memo -/

/-- Every memoised form is the product of forms described so. -/
def MulForms.Sound (I : Inference F) (describe : F → String) (memo : MulForms F) : Prop :=
  ∀ entry ∈ memo, ∃ left right, entry.1 = (describe left, describe right) ∧
    I.mulOf left right = .ok entry.2

/-- Forms described alike multiply alike. -/
def Describes (I : Inference F) (describe : F → String) : Prop :=
  ∀ left left' right right', describe left = describe left' → describe right = describe right' →
    I.mulOf left right = I.mulOf left' right'

theorem mulForm_cases {I : Inference F} {describe : F → String} (hdescribe : Describes I describe)
    {memo : MulForms F} (hmemo : memo.Sound I describe) (left right : F) (label : String) :
    (∃ form memo', mulForm I describe left right label memo = .ok (form, memo') ∧
      I.mulOf left right = .ok form ∧ MulForms.Sound I describe memo') ∨
    ∃ e, mulForm I describe left right label memo = .error label ∧
      I.mulOf left right = .error e := by
  unfold mulForm
  cases hlookup : memo.lookup (describe left, describe right) with
  | some hit =>
      obtain ⟨l₁, l₂, rfl, -⟩ := List.lookup_eq_some_iff.mp hlookup
      obtain ⟨left', right', hkey, hhit⟩ := hmemo _ (List.mem_append_right _ List.mem_cons_self)
      obtain ⟨hl, hr⟩ := Prod.mk.inj hkey
      refine .inl ⟨hit, _, rfl, ?_, hmemo⟩
      rw [hdescribe left left' right right' hl hr]
      exact hhit
  | none =>
      cases hmul : I.mulOf left right with
      | error e => exact .inr ⟨e, rfl, rfl⟩
      | ok form =>
          refine .inl ⟨form, _, rfl, rfl, fun entry hentry => ?_⟩
          obtain hentry | hentry := List.mem_append.mp hentry
          · exact hmemo entry hentry
          · obtain rfl := List.mem_singleton.mp hentry
            exact ⟨left, right, rfl, hmul⟩

/-! ### Rows -/

namespace Session

variable [Inhabited F] {I : Inference F} {s : Session F}

/-- No two of the members carry rows of different sources. -/
def Compatible (s : Session F) (nodes : List Nat) : Prop :=
  ∀ m ∈ nodes, ∀ n ∈ nodes, s.rowsOf m ≠ [] → s.rowsOf n ≠ [] → s.rowsOf m = s.rowsOf n

omit [Inhabited F] in
theorem Compatible.subset {ms ns : List Nat} (h : s.Compatible ns) (hsub : ms ⊆ ns) :
    s.Compatible ms := fun m hm n hn => h m (hsub hm) n (hsub hn)

omit [Inhabited F] in
theorem times_ok {left right out : Weight F} {label : String} {u u' : Unit}
    (h : times I left right label u = .ok (out, u')) :
    ¬RowsClash left.rows right.rows ∧ I.mulOf left.form right.form = .ok out.form ∧
      out.rows = if I.hasRows out.form then (if left.rows = [] then right.rows else left.rows)
        else [] := by
  unfold times at h
  split at h
  · cases h
  · rename_i hrows
    cases hmul : I.mulOf left.form right.form with
    | error e =>
        rw [hmul] at h
        cases h
    | ok form =>
        rw [hmul] at h
        cases h
        refine ⟨hrows, rfl, ?_⟩
        rw [firsts_pair]
        by_cases heq : left.rows = right.rows
        · rw [if_pos heq, List.flatten_singleton]
          by_cases hnil : left.rows = []
          · rw [if_pos hnil, heq]
          · rw [if_neg hnil]
        · rw [if_neg heq, List.flatten_cons, List.flatten_singleton]
          by_cases hnil : left.rows = []
          · rw [if_pos hnil, hnil, List.nil_append]
          · have hright : right.rows = [] := by
              by_contra hright
              exact hrows ⟨hnil, hright, heq⟩
            rw [if_neg hnil, hright, List.append_nil]

/-- The backend keeps the row axis through a product, and members that carry rows have one. -/
structure KeepsRows (I : Inference F) (s : Session F) : Prop where
  members : ∀ node, s.rowsOf node ≠ [] → I.hasRows (s.forms.getD node default) = true
  mul : ∀ {left right form}, I.mulOf left right = .ok form →
    I.hasRows left = true ∨ I.hasRows right = true → I.hasRows form = true

/-- A product carries the rows of one of its members, or none. -/
theorem rows_of_over {nodes : List Nat} {a : Weight F} (h : (s.overArrays I).Over nodes a) :
    a.rows ≠ [] → ∃ m ∈ nodes, a.rows = s.rowsOf m := by
  refine Product.induct (fun nodes a => a.rows ≠ [] → ∃ m ∈ nodes, a.rows = s.rowsOf m)
    (fun node _ => ⟨node, List.mem_cons_self, rfl⟩) ?_ ?_ h
  · rintro ms ns a b c ha hb ⟨label, u, u', hmul⟩ hc
    obtain ⟨-, -, hrows⟩ := times_ok hmul
    rw [hrows] at hc ⊢
    split at hc
    · split at hc
      · obtain ⟨m, hm, heq⟩ := hb hc
        exact ⟨m, List.mem_append_right _ hm, by simp_all⟩
      · obtain ⟨m, hm, heq⟩ := ha hc
        exact ⟨m, List.mem_append_left _ hm, by simp_all⟩
    · exact absurd rfl hc
  · rintro ms ns a ha hperm hc
    obtain ⟨m, hm, heq⟩ := ha hc
    exact ⟨m, hperm.mem_iff.mp hm, heq⟩

/-- Members that were multiplied carry no rows of different sources. -/
theorem compatible_of_over (hkeeps : KeepsRows I s) {nodes : List Nat} {a : Weight F}
    (h : (s.overArrays I).Over nodes a) :
    (∀ m ∈ nodes, s.rowsOf m ≠ [] → a.rows = s.rowsOf m) ∧
      (a.rows ≠ [] → I.hasRows a.form = true) := by
  refine Product.induct (fun nodes a =>
    (∀ m ∈ nodes, s.rowsOf m ≠ [] → a.rows = s.rowsOf m) ∧
      (a.rows ≠ [] → I.hasRows a.form = true)) ?_ ?_ ?_ h
  · intro node
    refine ⟨fun m hm _ => ?_, hkeeps.members node⟩
    rw [List.mem_singleton.mp hm]
    rfl
  · rintro ms ns a b c ⟨ha, hfa⟩ ⟨hb, hfb⟩ ⟨label, u, u', hmul⟩
    obtain ⟨hclash, hform, hrows⟩ := times_ok hmul
    have hkept : a.rows ≠ [] ∨ b.rows ≠ [] → I.hasRows c.form = true :=
      fun h => hkeeps.mul hform (h.imp hfa hfb)
    refine ⟨fun m hm hne => ?_, fun hne => ?_⟩
    · obtain hm | hm := List.mem_append.mp hm
      · have hra := ha m hm hne
        have hne' : a.rows ≠ [] := hra ▸ hne
        rw [hrows, if_pos (hkept (.inl hne')), if_neg hne', hra]
      · have hrb := hb m hm hne
        have hne' : b.rows ≠ [] := hrb ▸ hne
        rw [hrows, if_pos (hkept (.inr hne'))]
        by_cases hnil : a.rows = []
        · rw [if_pos hnil, hrb]
        · rw [if_neg hnil, ← hrb]
          by_contra hdiff
          exact hclash ⟨hnil, hne', hdiff⟩
    · by_contra hnot
      rw [hrows, if_neg hnot] at hne
      exact hne rfl
  · rintro ms ns a ⟨ha, hfa⟩ hperm
    exact ⟨fun m hm => ha m (hperm.mem_iff.mpr hm), hfa⟩

theorem Compatible.of_over (hkeeps : KeepsRows I s) {nodes : List Nat}
    (h : Walk.Made (s.overArrays I) nodes) : s.Compatible nodes := by
  obtain ⟨ms, a, hsub, hover⟩ := h
  have hrows := (compatible_of_over hkeeps hover).1
  intro m hm n hn hne hne'
  rw [← hrows m (hsub.subset hm) hne, ← hrows n (hsub.subset hn) hne']

/-- Over members of compatible rows the forms' walk does what the arrays' walk does. -/
theorem simulates_forms {describe : F → String} (hdescribe : Describes I describe) :
    Walk.Simulates (fun (_ : Unit) memo => MulForms.Sound I describe memo) (s.overArrays I)
      (s.overForms I describe) Weight.form s.Compatible where
  project := fun _ => rfl
  sub := fun hsub hgood => hgood.subset hsub.subset
  mul := by
    intro ms ns a b label hgood ha hb u memo hmemo
    have hclash : ¬RowsClash a.rows b.rows := by
      rintro ⟨hna, hnb, hne⟩
      obtain ⟨m, hm, hma⟩ := rows_of_over ha hna
      obtain ⟨n, hn, hnb'⟩ := rows_of_over hb hnb
      rw [hma] at hna hne
      rw [hnb'] at hnb hne
      exact hne (hgood m (List.mem_append_left _ hm) n (List.mem_append_right _ hn) hna hnb)
    obtain ⟨form, memo', hform, hmul, hmemo'⟩ | ⟨e, hform, hmul⟩ :=
      mulForm_cases hdescribe hmemo a.form b.form label
    · have harrays : ∃ rows, times I a b label u = .ok (⟨form, rows⟩, u) := by
        unfold times
        rw [if_neg hclash, hmul]
        exact ⟨_, rfl⟩
      obtain ⟨rows, harrays⟩ := harrays
      exact .inl ⟨_, form, u, memo', Walk.times_of_ok harrays, Walk.times_of_ok hform, hmemo', rfl⟩
    · have harrays : times I a b label u = .error label := by
        unfold times
        rw [if_neg hclash, hmul]
      exact .inr ⟨label, Walk.times_of_error harrays, Walk.times_of_error hform⟩

end Session

/-! ### The composition -/

section Compose

variable (registry : PointRegistry) (factors : List Registered) (labels : List String)
  (overlays fixed : List Nat)

/-- Members multiplied together never carry rows of different sources. -/
structure Session.RowsAgree {F : Type} (s : Session F) : Prop where
  nominal : ∀ run ∈ runs overlays factors, s.Compatible (membersAt registry "nominal" run)
  label : ∀ label ∈ labels, ∀ entries, entries <+: factors → ∀ nodes,
    together registry overlays fixed label none entries = some nodes → s.Compatible nodes

/-- The walk over forms raises at the labels the walk over arrays raises at. -/
def RaiseAlike [Inhabited F] (I : Inference F) (describe : F → String) (s : Session F)
    (memo : MulForms F) : Prop :=
  ∀ label, (s.overForms I describe).compose registry factors labels overlays fixed memo =
      .error (.raised label) ↔
    (s.overArrays I).compose registry factors labels overlays fixed () = .error (.raised label)

variable {registry factors labels overlays fixed}

section

variable {F : Type} [Inhabited F] {I : Inference F} {describe : F → String} {s : Session F}
  {memo : MulForms F}

/-- Where rows agree the two walks raise alike. -/
theorem raiseAlike_of_rowsAgree (hdescribe : Describes I describe) (hmemo : memo.Sound I describe)
    (hrows : s.RowsAgree registry factors labels overlays fixed) :
    RaiseAlike registry factors labels overlays fixed I describe s memo := by
  intro label
  obtain ⟨d, d', u, memo', hd, hd', -, -⟩ | ⟨e, he, he'⟩ :=
    Walk.compose_meets (Session.simulates_forms hdescribe) hrows.nominal hrows.label () memo hmemo
  · rw [hd, hd']
    simp only [reduceCtorEq]
  · rw [he, he']
    simp only [Except.error.injEq]

/-- Where the arrays compose, rows agree. -/
theorem Session.RowsAgree.of_composed (hkeeps : Session.KeepsRows I s)
    {d : List (String × Option (Weight F))}
    (h : (s.overArrays I).Composed id registry factors labels overlays fixed d d) :
    s.RowsAgree registry factors labels overlays fixed where
  nominal := by
    intro run hrun
    by_cases hnil : run = []
    · subst hnil
      exact fun m hm => absurd hm List.not_mem_nil
    · obtain ⟨a, hover⟩ := h.nominal run hrun hnil
      exact .of_over hkeeps ⟨_, a, List.Sublist.refl _, hover⟩
  label := by
    intro label hlabel entries hinit nodes hnodes
    exact .of_over hkeeps ((h.folded label hlabel).made entries hinit nodes hnodes)

end

end Compose

/-- Every product of arrays is an array of rows. -/
def rowInference : Inference Unit where
  opForm op _ _ := if op = "mul" then .ok () else .error op
  hasRows _ := true
  fieldNames _ := []
  fields_known := by
    intro form result params text _ h
    rw [if_neg (by decide)] at h
    cases h

/-- A Session that reads two datasets. -/
def twoSources : Session Unit :=
  Session.record rowInference [.source "left" () ⟨0, none, true⟩ (.new []),
    .source "right" () ⟨1, none, true⟩ (.new [])]

/-- One weight factor of each dataset. -/
def twoFactors : List Registered := [⟨0, .plain 0⟩, ⟨1, .plain 1⟩]

/-- The tree over the two factors' forms, and the memo of their one product. -/
def factorTree : ProductTree Unit := [((0, 1), ()), ((1, 2), ()), ((0, 2), ())]

def factorMemo : MulForms Unit := [(("", ""), ())]

theorem twoFactors_forms :
    (twoSources.overForms rowInference fun _ => "").compose [] twoFactors ["nominal"] [] [] [] =
      .ok ([("nominal", some ())], factorMemo) := by
  have hbuild : (twoSources.overForms rowInference fun _ => "").build [(), ()] 0 2 [] =
      .ok (((), factorTree), factorMemo) := by
    rw [Walk.build.eq_def, if_pos (by decide)]
    rw [Walk.build.eq_def, if_neg (by decide)]
    rw [Walk.build.eq_def, if_neg (by decide)]
    rfl
  have hleaf : ∀ tree lo o,
      (twoSources.overForms rowInference fun _ => "").push tree lo (lo + 1) o = pure [o] := by
    intro tree lo o
    rw [Walk.push.eq_def, if_pos (by omega)]
  have hpush : (twoSources.overForms rowInference fun _ => "").push factorTree 0 2 none =
      pure [some (), some ()] := by
    rw [Walk.push.eq_def, if_neg (by decide)]
    simp only [Nat.reduceAdd, Nat.reduceDiv, hleaf _ 0, hleaf _ 1]
    rfl
  have hcomplements :
      (twoSources.overForms rowInference fun _ => "").complements factorTree 2 factorMemo =
        .ok ([some (), some ()], factorMemo) := congrFun hpush _
  calc (twoSources.overForms rowInference fun _ => "").compose [] twoFactors ["nominal"] [] [] []
    _ = (((twoSources.overForms rowInference fun _ => "").build [(), ()] 0 2 [] >>= _) >>= _) >>=
        _ := rfl
    _ = ((twoSources.overForms rowInference fun _ => "").complements factorTree 2 factorMemo >>=
        _) >>= _ := by
        rw [hbuild]
        rfl
    _ = .ok ([("nominal", some ())], factorMemo) := by
        rw [hcomplements]
        rfl

theorem twoFactors_arrays :
    (twoSources.overArrays rowInference).compose [] twoFactors ["nominal"] [] [] () =
      .error (.raised "nominal") := by
  have hbuild : (twoSources.overArrays rowInference).build [⟨(), [0]⟩, ⟨(), [1]⟩] 0 2 () =
      .error (.raised "nominal") := by
    rw [Walk.build.eq_def, if_pos (by decide)]
    rw [Walk.build.eq_def, if_neg (by decide)]
    rw [Walk.build.eq_def, if_neg (by decide)]
    rfl
  have hcompose : (twoSources.overArrays rowInference).compose [] twoFactors ["nominal"] [] [] () =
      (((twoSources.overArrays rowInference).build [⟨(), [0]⟩, ⟨(), [1]⟩] 0 2 () >>= _) >>= _) >>=
        _ := rfl
  rw [hcompose, hbuild]
  rfl

end Graphed
