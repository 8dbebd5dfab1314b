import Graphed.Library.Products
import Graphed.Systematics.Compose
import Mathlib.Data.List.Range

/-!
# The product walk, step by step

Two walks over the same members are followed together: what one holds is the image of what the other
holds, a product of members each used once. Every node the walk reads is in the tree, so the walks
stop only where a product raises, and both there.
-/

namespace Graphed

variable {A B E X Y X' Y' σ τ : Type} {I : σ → τ → Prop}

/-! ### Two runs side by side -/

/-- From related states both give related values, or both raise the same; neither misses a node. -/
def Meets (I : σ → τ → Prop) (x : WalkM σ E X) (y : WalkM τ E Y) (R : X → Y → Prop) : Prop :=
  ∀ s t, I s t →
    (∃ a b s' t', x s = .ok (a, s') ∧ y t = .ok (b, t') ∧ I s' t' ∧ R a b) ∨
      ∃ e, x s = .error (.raised e) ∧ y t = .error (.raised e)

theorem Meets.pure {R : X → Y → Prop} {a : X} {b : Y} (h : R a b) :
    Meets I (Pure.pure a : WalkM σ E X) (Pure.pure b) R :=
  fun s t hst => .inl ⟨a, b, s, t, rfl, rfl, hst, h⟩

theorem Meets.bind {x : WalkM σ E X} {y : WalkM τ E Y} {R : X → Y → Prop}
    {f : X → WalkM σ E X'} {g : Y → WalkM τ E Y'} {S : X' → Y' → Prop}
    (h : Meets I x y R) (hfg : ∀ a b, R a b → Meets I (f a) (g b) S) :
    Meets I (x >>= f) (y >>= g) S := by
  intro s t hst
  change (∃ a b s' t', (x s >>= fun out => f out.1 out.2) = .ok (a, s') ∧
      (y t >>= fun out => g out.1 out.2) = .ok (b, t') ∧ I s' t' ∧ S a b) ∨
    ∃ e, (x s >>= fun out => f out.1 out.2) = .error (.raised e) ∧
      (y t >>= fun out => g out.1 out.2) = .error (.raised e)
  obtain ⟨a, b, s', t', hx, hy, hst', hab⟩ | ⟨e, hx, hy⟩ := h s t hst
  · rw [hx, hy]
    exact hfg a b hab s' t' hst'
  · rw [hx, hy]
    exact .inr ⟨e, rfl, rfl⟩

theorem Meets.mono {x : WalkM σ E X} {y : WalkM τ E Y} {R S : X → Y → Prop}
    (h : Meets I x y R) (hRS : ∀ a b, R a b → S a b) : Meets I x y S := by
  intro s t hst
  obtain ⟨a, b, s', t', hx, hy, hst', hab⟩ | hraise := h s t hst
  · exact .inl ⟨a, b, s', t', hx, hy, hst', hRS a b hab⟩
  · exact .inr hraise

/-! ### What is held -/

namespace Walk

/-- A product over these nodes, each used once. -/
def Over (w : Walk A E σ) (nodes : List Nat) (a : A) : Prop :=
  Product w.project (fun a b c => ∃ label s s', w.mul a b label s = .ok (c, s')) nodes a

/-- Where it multiplies good nodes, one walk does what the other does, seen through `φ`. -/
structure Simulates (I : σ → τ → Prop) (w : Walk A E σ) (w' : Walk B E τ) (φ : A → B)
    (Good : List Nat → Prop) : Prop where
  project : ∀ node, w'.project node = φ (w.project node)
  mul : ∀ {ms ns a b} label, Good (ms ++ ns) → w.Over ms a → w.Over ns b →
    Meets I (w.times a b label) (w'.times (φ a) (φ b) label) fun c c' => c' = φ c
  sub : ∀ {ms ns}, ms.Subperm ns → Good ns → Good ms

variable {w : Walk A E σ} {w' : Walk B E τ} {φ : A → B} {Good : List Nat → Prop}

/-- What the two hold over these nodes. -/
def Holds (w : Walk A E σ) (φ : A → B) (nodes : List Nat) (a : A) (b : B) : Prop :=
  w.Over nodes a ∧ b = φ a

theorem Holds.perm {ms ns : List Nat} {a : A} {b : B} (h : Holds w φ ms a b) (hperm : ms.Perm ns) :
    Holds w φ ns a b := ⟨h.1.perm hperm, h.2⟩

theorem times_of_ok {a b : A} {label : String} {s : σ} {out : A × σ}
    (h : w.mul a b label s = .ok out) : w.times a b label s = .ok out := by
  unfold times
  rw [h]

theorem times_of_error {a b : A} {label : String} {s : σ} {e : E}
    (h : w.mul a b label s = .error e) : w.times a b label s = .error (.raised e) := by
  unfold times
  rw [h]

theorem ok_of_times {a b c : A} {label : String} {s s' : σ}
    (h : w.times a b label s = .ok (c, s')) :
    w.mul a b label s = .ok (c, s') := by
  cases hmul : w.mul a b label s with
  | ok out =>
      rw [times_of_ok hmul] at h
      cases h
      rfl
  | error e =>
      rw [times_of_error hmul] at h
      cases h

theorem times_meets (hsim : Simulates I w w' φ Good) {ms ns : List Nat} {a b : A} {a' b' : B}
    (label : String) (hgood : Good (ms ++ ns)) (ha : Holds w φ ms a a') (hb : Holds w φ ns b b') :
    Meets I (w.times a b label) (w'.times a' b' label) (Holds w φ (ms ++ ns)) := by
  obtain ⟨ha, rfl⟩ := ha
  obtain ⟨hb, rfl⟩ := hb
  intro s t hst
  obtain ⟨c, _, s', t', hc, hc', hst', rfl⟩ | hraise := hsim.mul label hgood ha hb s t hst
  · refine .inl ⟨c, φ c, s', t', hc, hc', hst', .mul ha hb ?_, rfl⟩
    exact ⟨label, s, s', ok_of_times hc⟩
  · exact .inr hraise

/-- A walk runs beside itself. -/
theorem simulates_self (w : Walk A E σ) :
    Simulates (· = ·) w w id (fun _ => True) where
  project := fun _ => rfl
  sub := fun _ _ => trivial
  mul := by
    rintro ms ns a b label - - - st _ rfl
    cases hmul : w.mul a b label st with
    | ok out =>
        exact .inl ⟨_, _, _, _, times_of_ok hmul, times_of_ok hmul, rfl, rfl⟩
    | error e => exact .inr ⟨e, times_of_error hmul, times_of_error hmul⟩

/-- The parts, each over its own nodes. -/
def Parts (w : Walk A E σ) (segments : List (List Nat)) (parts : List A) : Prop :=
  List.Forall₂ w.Over segments parts

/-- Multiplying parts is multiplying all their nodes, by induction on the parts. -/
theorem product_meets (hsim : Simulates I w w' φ Good) {segments : List (List Nat)} {parts : List A}
    (label : String) (hne : parts ≠ []) (hgood : Good segments.flatten)
    (hparts : Parts w segments parts) :
    Meets I (w.product parts label) (w'.product (parts.map φ) label)
      (Holds w φ segments.flatten) := by
  have hfold : ∀ {segments : List (List Nat)} {parts : List A} (done : List Nat) (a : A),
      w.Over done a → Good (done ++ segments.flatten) → Parts w segments parts →
        Meets I (parts.foldlM (fun acc part => w.times acc part label) a)
          ((parts.map φ).foldlM (fun acc part => w'.times acc part label) (φ a))
          (Holds w φ (done ++ segments.flatten)) := by
    intro segments parts done a hdone hgood hparts
    induction hparts generalizing done a with
    | nil =>
        rw [List.flatten_nil, List.append_nil]
        exact .pure ⟨hdone, rfl⟩
    | @cons segment part segments parts hpart _ ih =>
        rw [List.flatten_cons, ← List.append_assoc] at hgood ⊢
        rw [List.foldlM_cons, List.map_cons, List.foldlM_cons]
        have hfirst : Good (done ++ segment) :=
          hsim.sub (List.sublist_append_left _ _).subperm hgood
        refine Meets.bind (times_meets hsim label hfirst ⟨hdone, rfl⟩ ⟨hpart, rfl⟩) ?_
        rintro b b' ⟨hb, rfl⟩
        exact ih _ b hb hgood
  cases hparts with
  | nil => exact absurd rfl hne
  | @cons segment part segments parts hpart hrest =>
      rw [List.flatten_cons] at hgood ⊢
      exact hfold segment part hpart hgood hrest

end Walk

/-! ### Intervals of nodes -/

section Interval

variable (c : Nat → Nat)

def interval (lo hi : Nat) : List Nat := (List.range' lo (hi - lo)).map c

theorem interval_append {lo mid hi : Nat} (hlo : lo ≤ mid) (hhi : mid ≤ hi) :
    interval c lo mid ++ interval c mid hi = interval c lo hi := by
  unfold interval
  rw [← List.map_append]
  have happend := List.range'_append_1 (s := lo) (m := mid - lo) (n := hi - mid)
  rw [show lo + (mid - lo) = mid by omega, show mid - lo + (hi - mid) = hi - lo by omega] at happend
  rw [happend]

theorem interval_single (i : Nat) : interval c i (i + 1) = [c i] := by
  unfold interval
  rw [Nat.add_sub_cancel_left]
  rfl

/-- All but an interval. -/
def others (count lo hi : Nat) : List Nat := interval c 0 lo ++ interval c hi count

theorem others_left {count mid hi : Nat} (lo : Nat) (hhi : mid ≤ hi) (hcount : hi ≤ count) :
    (others c count lo hi ++ interval c mid hi).Perm (others c count lo mid) := by
  unfold others
  rw [← interval_append c hhi hcount, List.append_assoc]
  exact (List.perm_append_comm).append_left _

theorem others_right {lo mid : Nat} (count hi : Nat) (hmid : lo ≤ mid) :
    (others c count lo hi ++ interval c lo mid).Perm (others c count mid hi) := by
  unfold others
  rw [← interval_append c (Nat.zero_le lo) hmid, List.append_assoc, List.append_assoc]
  exact (List.perm_append_comm).append_left _

theorem others_all {count lo hi : Nat} (hlo : lo ≤ hi) (hhi : hi ≤ count) :
    (others c count lo hi ++ interval c lo hi).Perm (interval c 0 count) := by
  unfold others
  rw [← interval_append c (Nat.zero_le lo) (le_trans hlo hhi), ← interval_append c hlo hhi,
    List.append_assoc]
  exact (List.perm_append_comm).append_left _

theorem others_subperm {count lo hi : Nat} (hlo : lo ≤ hi) (hhi : hi ≤ count) :
    (others c count lo hi).Subperm (interval c 0 count) :=
  (List.sublist_append_left _ _).subperm.trans (others_all c hlo hhi).subperm

end Interval

/-! ### The tree -/

/-- Every node of the tree holds the product of its interval. -/
def Sound (w : Walk A E σ) (c : Nat → Nat) (tree : ProductTree A) : Prop :=
  ∀ node ∈ tree, w.Over (interval c node.1.1 node.1.2) node.2

/-- The tree has a node for the interval and for each half of it, down to the leaves. -/
inductive Present (tree : ProductTree A) : Nat → Nat → Prop
  | node {lo hi : Nat} (here : (lo, hi) ∈ tree.map Prod.fst)
      (left : 1 < hi - lo → Present tree lo ((lo + hi) / 2))
      (right : 1 < hi - lo → Present tree ((lo + hi) / 2) hi) : Present tree lo hi

theorem Present.mono {tree tree' : ProductTree A} (hsub : tree ⊆ tree') {lo hi : Nat}
    (h : Present tree lo hi) : Present tree' lo hi := by
  induction h with
  | node here _ _ ihl ihr => exact .node (List.map_subset _ hsub here) ihl ihr

/-- The same tree as the other walk holds it. -/
def ProductTree.through (φ : A → B) (tree : ProductTree A) : ProductTree B :=
  tree.map fun node => (node.1, φ node.2)

namespace Walk

variable {w : Walk A E σ} {w' : Walk B E τ} {φ : A → B} {Good : List Nat → Prop} {c : Nat → Nat}

theorem read_meets {tree : ProductTree A} (hsound : Sound w c tree) {lo hi : Nat}
    (hhere : (lo, hi) ∈ tree.map Prod.fst) :
    Meets I (tree.read lo hi : WalkM σ E A) ((tree.through φ).read lo hi)
      (Holds w φ (interval c lo hi)) := by
  have hthrough : ((tree.through φ).lookup (lo, hi)) = (tree.lookup (lo, hi)).map φ := by
    unfold ProductTree.through
    clear hsound hhere
    induction tree with
    | nil => rfl
    | cons node tree ih =>
        rw [List.map_cons, List.lookup_cons, List.lookup_cons, ih]
        cases (lo, hi) == node.1 <;> rfl
  unfold ProductTree.read
  rw [hthrough]
  cases hlookup : tree.lookup (lo, hi) with
  | none =>
      have hmissing := List.lookup_eq_none_iff.mp hlookup
      obtain ⟨node, hnode, hkey⟩ := List.mem_map.mp hhere
      exact absurd (beq_iff_eq.mpr hkey.symm) (by simpa using hmissing node hnode)
  | some a =>
      obtain ⟨l₁, l₂, rfl, -⟩ := List.lookup_eq_some_iff.mp hlookup
      have hover := hsound _ (List.mem_append_right _ List.mem_cons_self)
      exact .pure ⟨hover, rfl⟩

/-- What building an interval leaves: its product and the tree below it. -/
structure Built (w : Walk A E σ) (φ : A → B) (c : Nat → Nat) (lo hi : Nat) (x : A × ProductTree A)
    (y : B × ProductTree B) : Prop where
  holds : Holds w φ (interval c lo hi) x.1 y.1
  sound : Sound w c x.2
  present : Present x.2 lo hi
  through : y.2 = x.2.through φ

theorem Built.node {lo hi : Nat} {left right : A × ProductTree A}
    {left' right' : B × ProductTree B} {v : A} {v' : B}
    (hleft : Built w φ c lo ((lo + hi) / 2) left left')
    (hright : Built w φ c ((lo + hi) / 2) hi right right')
    (hv : Holds w φ (interval c lo hi) v v') :
    Built w φ c lo hi (v, left.2 ++ right.2 ++ [((lo, hi), v)])
      (v', left'.2 ++ right'.2 ++ [((lo, hi), v')]) where
  holds := hv
  sound := by
    intro node hnode
    rw [List.mem_append, List.mem_append, List.mem_singleton] at hnode
    obtain (hnode | hnode) | rfl := hnode
    · exact hleft.sound node hnode
    · exact hright.sound node hnode
    · exact hv.1
  present := by
    refine .node ?_ (fun _ => hleft.present.mono ?_) (fun _ => hright.present.mono ?_)
    · rw [List.map_append]
      exact List.mem_append_right _ List.mem_cons_self
    · rw [List.append_assoc]
      exact List.subset_append_left _ _
    · exact fun node hnode =>
        List.mem_append_left _ (List.mem_append_right _ hnode)
  through := by
    rw [hleft.through, hright.through, hv.2]
    simp only [ProductTree.through, List.map_append, List.map_cons, List.map_nil]

/-- Building an interval, by induction on its halves. -/
theorem build_meets (hsim : Simulates I w w' φ Good) {centrals : List A} {count : Nat}
    (hcentrals : ∀ i < count, centrals[i]? = some (w.project (c i)))
    (hgood : Good (interval c 0 count)) {lo hi : Nat} (hlo : lo < hi) (hhi : hi ≤ count) :
    Meets I (w.build centrals lo hi) (w'.build (centrals.map φ) lo hi) (Built w φ c lo hi) := by
  induction hsize : hi - lo using Nat.strong_induction_on generalizing lo hi with
  | _ size ih =>
      subst hsize
      rw [build.eq_def w, build.eq_def w']
      by_cases hsplit : 1 < hi - lo
      · rw [if_pos hsplit, if_pos hsplit]
        have hleft := ih _ (by omega) (show lo < (lo + hi) / 2 by omega) (by omega) rfl
        have hright := ih _ (by omega) (show (lo + hi) / 2 < hi by omega) hhi rfl
        refine Meets.bind hleft fun left left' hl => ?_
        refine Meets.bind hright fun right right' hr => ?_
        have happend : interval c lo ((lo + hi) / 2) ++ interval c ((lo + hi) / 2) hi =
            interval c lo hi := interval_append c (by omega) (by omega)
        have hsub : (interval c lo hi).Subperm (interval c 0 count) :=
          (List.sublist_append_right _ _).subperm.trans (others_all c hlo.le hhi).subperm
        have htimes := times_meets hsim "nominal" (happend ▸ hsim.sub hsub hgood) hl.holds hr.holds
        rw [happend] at htimes
        refine Meets.bind htimes fun v v' hv => ?_
        exact .pure (hl.node hr hv)
      · rw [if_neg hsplit, if_neg hsplit]
        obtain rfl : hi = lo + 1 := by omega
        have hover : w.Over (interval c lo (lo + 1)) (w.project (c lo)) := by
          rw [interval_single]
          exact .one (c lo)
        rw [List.getElem?_map, hcentrals lo hhi]
        refine .pure ⟨⟨hover, rfl⟩, ?_, ?_, rfl⟩
        · intro node hnode
          obtain rfl := List.mem_singleton.mp hnode
          exact hover
        · exact .node List.mem_cons_self (fun h => absurd h hsplit) fun h => absurd h hsplit

/-- A product over these nodes, or nothing where there is none of them. -/
def Rest (w : Walk A E σ) (nodes : List Nat) : Option A → Prop
  | none => nodes = []
  | some a => w.Over nodes a

theorem Rest.perm {ms ns : List Nat} {rest : Option A} (h : Rest w ms rest) (hperm : ms.Perm ns) :
    Rest w ns rest := by
  cases rest with
  | none =>
      obtain rfl : ms = [] := h
      exact hperm.nil_eq.symm
  | some a => exact Product.perm h hperm

theorem onto_meets (hsim : Simulates I w w' φ Good) {ms ns : List Nat} {outside : Option A} {v : A}
    {v' : B} (hgood : Good (ms ++ ns)) (hout : Rest w ms outside) (hv : Holds w φ ns v v') :
    Meets I (w.onto outside v) (w'.onto (outside.map φ) v') (Holds w φ (ms ++ ns)) := by
  cases outside with
  | none =>
      obtain rfl : ms = [] := hout
      exact .pure hv
  | some o => exact times_meets hsim "nominal" hgood ⟨hout, rfl⟩ hv

/-- Each index gets the product of all the others. -/
def Complements (w : Walk A E σ) (c : Nat → Nat) (count lo hi : Nat) (outs : List (Option A)) :
    Prop :=
  List.Forall₂ (fun i out => Rest w (others c count i (i + 1)) out) (List.range' lo (hi - lo)) outs

/-- The pushdown, by induction on the halves: what is outside a half is outside the whole, or in the
other half. -/
theorem push_meets (hsim : Simulates I w w' φ Good) {tree : ProductTree A} {count : Nat}
    (hsound : Sound w c tree) (hgood : Good (interval c 0 count)) {lo hi : Nat}
    (hpresent : Present tree lo hi) (hlo : lo < hi) (hhi : hi ≤ count) {outside : Option A}
    (hout : Rest w (others c count lo hi) outside) :
    Meets I (w.push tree lo hi outside) (w'.push (tree.through φ) lo hi (outside.map φ))
      (fun outs outs' => Complements w c count lo hi outs ∧ outs' = outs.map (Option.map φ)) := by
  induction hpresent generalizing outside with
  | @node lo hi here left right ihl ihr =>
      rw [push.eq_def w, push.eq_def w']
      by_cases hsplit : hi - lo ≤ 1
      · rw [if_pos hsplit, if_pos hsplit]
        obtain rfl : hi = lo + 1 := by omega
        refine .pure ⟨?_, rfl⟩
        unfold Complements
        rw [Nat.add_sub_cancel_left]
        exact .cons hout .nil
      · rw [if_neg hsplit, if_neg hsplit]
        have hhalf : 1 < hi - lo := by omega
        generalize hmid : (lo + hi) / 2 = mid at *
        have hlomid : lo < mid := by omega
        have hmidhi : mid < hi := by omega
        obtain ⟨hereLeft, _, _⟩ := left hhalf
        obtain ⟨hereRight, _, _⟩ := right hhalf
        refine Meets.bind (read_meets hsound hereLeft) fun l l' hl => ?_
        refine Meets.bind (read_meets hsound hereRight) fun r r' hr => ?_
        have hpermLeft := others_left c lo hmidhi.le hhi
        have hpermRight := others_right c count hi hlomid.le
        have hgoodLeft := hsim.sub
          (hpermLeft.subperm.trans (others_subperm c hlomid.le (hmidhi.le.trans hhi))) hgood
        have hgoodRight := hsim.sub
          (hpermRight.subperm.trans (others_subperm c hmidhi.le hhi)) hgood
        refine Meets.bind (onto_meets hsim hgoodLeft hout hr) ?_
        rintro outLeft _ ⟨hoverLeft, rfl⟩
        refine Meets.bind (ihl hhalf hlomid (hmidhi.le.trans hhi) (hoverLeft.perm hpermLeft)) ?_
        rintro outs _ ⟨houts, rfl⟩
        refine Meets.bind (onto_meets hsim hgoodRight hout hl) ?_
        rintro outRight _ ⟨hoverRight, rfl⟩
        refine Meets.bind (ihr hhalf hmidhi hhi (hoverRight.perm hpermRight)) ?_
        rintro outs' _ ⟨houts', rfl⟩
        refine .pure ⟨?_, (List.map_append).symm⟩
        have hrange := List.range'_append_1 (s := lo) (m := mid - lo) (n := hi - mid)
        rw [show lo + (mid - lo) = mid by omega,
          show mid - lo + (hi - mid) = hi - lo by omega] at hrange
        unfold Complements
        rw [← hrange]
        exact List.rel_append houts houts'

theorem complements_meets (hsim : Simulates I w w' φ Good) {tree : ProductTree A} {count : Nat}
    (hsound : Sound w c tree) (hgood : Good (interval c 0 count)) (hpos : 0 < count)
    (hpresent : Present tree 0 count) :
    Meets I (w.complements tree count) (w'.complements (tree.through φ) count)
      (fun outs outs' => Complements w c count 0 count outs ∧
        outs' = outs.map (Option.map φ)) := by
  unfold complements
  rw [if_neg hpos.ne', if_neg hpos.ne']
  have hnone : Rest w (others c count 0 count) none := by
    change others c count 0 count = []
    simp only [others, interval, Nat.sub_self, List.range'_zero, List.map_nil, List.append_nil]
  exact push_meets hsim hsound hgood hpresent hpos le_rfl hnone

/-- The largest subtrees cover the indices that do not vary. -/
theorem outsideParts_meets {tree : ProductTree A} (hsound : Sound w c tree) (varying : List Nat)
    {lo hi : Nat} (hlo : lo < hi) (hpresent : Present tree lo hi) :
    Meets I (Walk.outsideParts tree varying lo hi : WalkM σ E (List A))
      (Walk.outsideParts (tree.through φ) varying lo hi)
      (fun parts parts' => parts' = parts.map φ ∧ ∃ segments, Parts w segments parts ∧
        segments.flatten = ((List.range' lo (hi - lo)).filter fun i => i ∉ varying).map c) := by
  induction hpresent with
  | @node lo hi here left right ihl ihr =>
      rw [outsideParts.eq_def tree, outsideParts.eq_def (tree.through φ)]
      by_cases hvary : varying.any (fun i => decide (lo ≤ i ∧ i < hi)) = true
      · rw [if_neg (not_not_intro hvary), if_neg (not_not_intro hvary)]
        by_cases hsplit : 1 < hi - lo
        · rw [if_pos hsplit, if_pos hsplit]
          refine Meets.bind (ihl hsplit (by omega)) ?_
          rintro parts _ ⟨rfl, segments, hparts, hflat⟩
          refine Meets.bind (ihr hsplit (by omega)) ?_
          rintro parts' _ ⟨rfl, segments', hparts', hflat'⟩
          refine .pure ⟨(List.map_append).symm, segments ++ segments',
            List.rel_append hparts hparts', ?_⟩
          have hrange := List.range'_append_1 (s := lo) (m := (lo + hi) / 2 - lo)
            (n := hi - (lo + hi) / 2)
          rw [show lo + ((lo + hi) / 2 - lo) = (lo + hi) / 2 by omega,
            show (lo + hi) / 2 - lo + (hi - (lo + hi) / 2) = hi - lo by omega] at hrange
          rw [List.flatten_append, hflat, hflat', ← List.map_append, ← List.filter_append, hrange]
        · rw [if_neg hsplit, if_neg hsplit]
          obtain rfl : hi = lo + 1 := by omega
          obtain ⟨i, hi, hbounds⟩ := List.any_eq_true.mp hvary
          obtain rfl : i = lo := by
            have hbounds := of_decide_eq_true hbounds
            omega
          refine .pure ⟨rfl, [], .nil, ?_⟩
          rw [Nat.add_sub_cancel_left, List.range'_one,
            List.filter_cons_of_neg (by simpa using hi)]
          rfl
      · rw [if_pos hvary, if_pos hvary]
        refine Meets.bind (read_meets hsound here) ?_
        rintro v _ ⟨hv, rfl⟩
        refine .pure ⟨rfl, [interval c lo hi], .cons hv .nil, ?_⟩
        rw [List.flatten_singleton, List.filter_eq_self.mpr]
        · rfl
        · intro i hi
          refine decide_eq_true fun hmem => hvary (List.any_eq_true.mpr ⟨i, hmem, ?_⟩)
          obtain ⟨hge, hlt⟩ := List.mem_range'_1.mp hi
          exact decide_eq_true ⟨hge, by omega⟩

theorem outside_meets (hsim : Simulates I w w' φ Good) {tree : ProductTree A} {count : Nat}
    (hsound : Sound w c tree) (hgood : Good (interval c 0 count)) (hpos : 0 < count)
    (hpresent : Present tree 0 count) (varying : List Nat) :
    Meets I (w.outside tree count varying) (w'.outside (tree.through φ) count varying)
      (fun rest rest' => rest' = rest.map φ ∧
        Rest w (((List.range count).filter fun i => i ∉ varying).map c) rest) := by
  unfold outside
  refine Meets.bind (outsideParts_meets hsound varying hpos hpresent) ?_
  rintro parts _ ⟨rfl, segments, hparts, hflat⟩
  rw [Nat.sub_zero, ← List.range_eq_range'] at hflat
  by_cases hnil : parts = []
  · subst hnil
    cases hparts
    refine .pure ⟨rfl, ?_⟩
    rw [← hflat]
    rfl
  · have hnil' : parts.map φ ≠ [] := fun h => hnil (List.map_eq_nil_iff.mp h)
    rw [if_neg hnil, if_neg hnil']
    have hsub : segments.flatten.Subperm (interval c 0 count) := by
      rw [hflat]
      unfold interval
      rw [Nat.sub_zero, ← List.range_eq_range']
      exact (List.filter_sublist.map c).subperm
    refine Meets.bind (product_meets hsim "nominal" hnil (hsim.sub hsub hgood) hparts) ?_
    rintro v _ ⟨hv, rfl⟩
    refine .pure ⟨rfl, ?_⟩
    rw [← hflat]
    exact hv

end Walk

end Graphed
