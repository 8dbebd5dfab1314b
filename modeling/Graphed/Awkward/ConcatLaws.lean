import Graphed.Awkward.Concat
import Mathlib.Algebra.BigOperators.Ring.List

/-!
# Joined rows

What joining chunks gives has the rows of the whole chunks, one after the other, in every part each
chunk read, and placeholders for the rest.
-/

namespace Graphed.Blocks

open Gathering (cumsum rebased runs)

variable {α γ : Type}

/-! ### Rows of concatenated contents -/

section Lists

theorem flatMap_replicate {β : Type} (cs : List γ) (n : γ → Nat) (v : β) :
    (cs.flatMap fun c => List.replicate (n c) v) = List.replicate (cs.map n).sum v := by
  induction cs with
  | nil => rfl
  | cons c cs ih =>
      rw [List.flatMap_cons, ih, List.map_cons, List.sum_cons, List.replicate_add]

theorem sum_length_flatMap {β : Type} (cs : List γ) (f : γ → List β) :
    (cs.flatMap f).length = (cs.map fun c => (f c).length).sum := List.length_flatMap

theorem recordRows_append (names : Option (List String)) {n : Nat}
    (first second : Fin n → List (Val α)) {a : Nat} (b : Nat) (h : ∀ k, (first k).length = a) :
    recordRows names (fun k => first k ++ second k) (a + b) =
      recordRows names first a ++ recordRows names second b := by
  unfold recordRows
  rw [List.range_add, List.map_append, List.map_map]
  congr 1
  · apply List.map_congr_left
    intro i hi
    have hlt := List.mem_range.mp hi
    congr 1
    apply List.map_congr_left
    intro k _
    rw [List.getD_eq_getElem?_getD, List.getD_eq_getElem?_getD,
      List.getElem?_append_left (by rw [h k]; exact hlt)]
  · apply List.map_congr_left
    intro i _
    rw [Function.comp_apply]
    congr 1
    apply List.map_congr_left
    intro k _
    rw [List.getD_eq_getElem?_getD, List.getD_eq_getElem?_getD,
      List.getElem?_append_right (by rw [h k]; omega), h k, Nat.add_sub_cancel_left]

/-- Records of concatenated fields. -/
theorem recordRows_flatMap (names : Option (List String)) {n : Nat} (cs : List γ)
    (rows : γ → Fin n → List (Val α)) (len : γ → Nat)
    (h : ∀ c ∈ cs, ∀ k, (rows c k).length = len c) :
    recordRows names (fun k => cs.flatMap fun c => rows c k) (cs.map len).sum =
      cs.flatMap fun c => recordRows names (rows c) (len c) := by
  induction cs with
  | nil => rfl
  | cons c cs ih =>
      rw [List.flatMap_cons, List.map_cons, List.sum_cons,
        ← ih fun d hd => h d (List.mem_cons_of_mem _ hd),
        ← recordRows_append names (rows c) _ _ (h c List.mem_cons_self)]
      simp only [List.flatMap_cons]

/-- A list between two offsets. -/
theorem sub_eq_take_drop {β : Type} (rows : List β) (start stop : Nat) :
    sub rows (start, stop) = (rows.drop start).take (stop - start) := by
  unfold sub
  rw [List.drop_take]

theorem lists_eq_map (spans : List (Nat × Nat)) (rows : List (Val α)) :
    lists spans rows = (spans.map (sub rows)).map .list := by
  unfold lists
  rw [List.map_map]
  rfl

/-- Offsets that are running sums cut runs. -/
theorem subs_cumsum {β : Type} (counts : List Nat) (rows : List β) (start : Nat) :
    ((start :: (cumsum counts).map (start + ·)).zip ((cumsum counts).map (start + ·))).map
      (sub rows) = runs counts (rows.drop start) := by
  induction counts generalizing start with
  | nil => rfl
  | cons n counts ih =>
      have htail : ((cumsum counts).map (n + ·)).map (start + ·) =
          (cumsum counts).map (start + n + ·) := by
        rw [List.map_map]
        apply List.map_congr_left
        intro m _
        exact (Nat.add_assoc start n m).symm
      have hdrop : (rows.drop start).drop n = rows.drop (start + n) := List.drop_drop
      change (((start :: (start + n) :: ((cumsum counts).map (n + ·)).map (start + ·)).zip
        ((start + n) :: ((cumsum counts).map (n + ·)).map (start + ·))).map (sub rows)) =
        (rows.drop start).take n :: runs counts ((rows.drop start).drop n)
      rw [htail, List.zip_cons_cons, List.map_cons, ih (start + n), hdrop, sub_eq_take_drop,
        Nat.add_sub_cancel_left]

theorem lists_cumsum (counts : List Nat) (rows : List (Val α)) :
    lists ((0 :: cumsum counts).zip (0 :: cumsum counts).tail) rows =
      (runs counts rows).map .list := by
  have h := subs_cumsum counts rows 0
  rw [Gathering.map_zero_add, List.drop_zero] at h
  rw [lists_eq_map, List.tail_cons, h]

/-- Offsets in order cut the runs of their differences. -/
theorem subs_offsets {β : Type} (first : Nat) (offsets : List Nat) (rows : List β)
    (hsorted : (first :: offsets).Pairwise (· ≤ ·)) :
    ((first :: offsets).zip offsets).map (sub rows) =
      runs (diff (first :: offsets)) (rows.drop first) := by
  induction offsets generalizing first with
  | nil => rfl
  | cons second offsets ih =>
      obtain ⟨hfirst, hrest⟩ := List.pairwise_cons.mp hsorted
      have hle : first ≤ second := hfirst second List.mem_cons_self
      have hdrop : (rows.drop first).drop (second - first) = rows.drop second := by
        rw [List.drop_drop, Nat.add_sub_cancel' hle]
      change sub rows (first, second) :: (((second :: offsets).zip offsets).map (sub rows)) =
        (rows.drop first).take (second - first) ::
          runs (diff (second :: offsets)) ((rows.drop first).drop (second - first))
      rw [ih second hrest, hdrop, sub_eq_take_drop]

theorem length_diff (first : Nat) (offsets : List Nat) :
    (diff (first :: offsets)).length = offsets.length := by
  induction offsets generalizing first with
  | nil => rfl
  | cons second offsets ih => exact congrArg (· + 1) (ih second)

theorem sum_diff (first : Nat) (offsets : List Nat)
    (hsorted : (first :: offsets).Pairwise (· ≤ ·)) :
    first + (diff (first :: offsets)).sum = (first :: offsets).getLastD 0 := by
  induction offsets generalizing first with
  | nil => rfl
  | cons second offsets ih =>
      obtain ⟨hfirst, hrest⟩ := List.pairwise_cons.mp hsorted
      have hle : first ≤ second := hfirst second List.mem_cons_self
      have hsum := ih second hrest
      change first + ((second - first) + (diff (second :: offsets)).sum) =
        (second :: offsets).getLastD 0
      omega

/-- The lists of a part, cut from the slice its offsets cover. -/
theorem lists_offsets {offsets : List Nat} (hne : offsets ≠ [])
    (hsorted : offsets.Pairwise (· ≤ ·)) (rows : List (Val α)) :
    lists (offsets.zip offsets.tail) rows =
      (runs (diff offsets) (sub rows (offsets.headD 0, offsets.getLastD 0))).map .list := by
  obtain ⟨first, rest, rfl⟩ := List.exists_cons_of_ne_nil hne
  have hsum := sum_diff first rest hsorted
  rw [lists_eq_map, List.tail_cons, subs_offsets first rest rows hsorted, List.headD_cons,
    sub_eq_take_drop, ← hsum, Nat.add_sub_cancel_left, Gathering.runs_take]

theorem runs_flatMap {β : Type} (cs : List γ) (counts : γ → List Nat) (rows : γ → List β)
    (h : ∀ c ∈ cs, (rows c).length = (counts c).sum) :
    runs (cs.flatMap counts) (cs.flatMap rows) = cs.flatMap fun c => runs (counts c) (rows c) := by
  induction cs with
  | nil => rfl
  | cons c cs ih =>
      rw [List.flatMap_cons, List.flatMap_cons, List.flatMap_cons,
        Gathering.runs_append (h c List.mem_cons_self),
        ih fun d hd => h d (List.mem_cons_of_mem _ hd)]

theorem lists_regular (size n : Nat) (rows : List (Val α)) :
    lists (regularSpans size n) rows = (runs (List.replicate n size) rows).map .list := by
  rw [lists_eq_map]
  congr 1
  have hall : ∀ start, (((List.range n).map fun i => (start + i * size, start + (i + 1) * size)).map
      (sub rows)) = runs (List.replicate n size) (rows.drop start) := by
    induction n with
    | zero => exact fun start => rfl
    | succ n ih =>
        intro start
        have hshift : ((List.range n).map Nat.succ).map
            (fun i => (start + i * size, start + (i + 1) * size)) =
            (List.range n).map fun i =>
              (start + size + i * size, start + size + (i + 1) * size) := by
          rw [List.map_map]
          apply List.map_congr_left
          intro i _
          simp only [Function.comp_apply, Nat.succ_eq_add_one, Nat.add_mul, Nat.one_mul]
          congr 1 <;> omega
        have hdrop : (rows.drop start).drop size = rows.drop (start + size) := List.drop_drop
        rw [List.range_succ_eq_map, List.map_cons, List.map_cons, hshift, ih (start + size),
          List.replicate_succ]
        change _ = (rows.drop start).take size ::
          runs (List.replicate n size) ((rows.drop start).drop size)
        rw [hdrop, sub_eq_take_drop]
        simp only [Nat.zero_mul, Nat.add_zero, Nat.zero_add, Nat.one_mul, Nat.add_sub_cancel_left]
  have h := hall 0
  simp only [Nat.zero_add, List.drop_zero] at h
  exact h

end Lists

/-! ### Gathered rows -/

section Gather

variable {ι δ β : Type}

theorem foldr_append (cs : List γ) (rows : γ → List β) :
    (cs.map rows).foldr (· ++ ·) [] = cs.flatMap rows := by
  induction cs with
  | nil => rfl
  | cons c cs ih => rw [List.map_cons, List.foldr_cons, ih, List.flatMap_cons]

theorem zipWith_flatten (cs : List γ) (index : γ → List ι) {C : Type} (rows : γ → C)
    (pick : C → ι → δ) :
    (List.zipWith (fun index content => index.map (pick content)) (cs.map index)
      (cs.map rows)).flatten = cs.flatMap fun c => (index c).map (pick (rows c)) := by
  induction cs with
  | nil => rfl
  | cons c cs ih =>
      rw [List.map_cons, List.map_cons, List.zipWith_cons_cons, List.flatten_cons, ih,
        List.flatMap_cons]

/-- Indexes into one content each. -/
theorem gather_flatMap {shift : Nat → ι → ι} {pick : List β → ι → δ} (cs : List γ)
    (index : γ → List ι) (rows : γ → List β)
    (h : ∀ c ∈ cs, Gathering.Stays (· ++ ·) List.length shift pick (index c) (rows c)) :
    (rebased shift (cs.map fun c => (rows c).length) (cs.map index)).map
        (pick (cs.flatMap rows)) = cs.flatMap fun c => (index c).map (pick (rows c)) := by
  have hstays : List.Forall₂ (Gathering.Stays (· ++ ·) List.length shift pick) (cs.map index)
      (cs.map rows) := by
    rw [List.forall₂_map_left_iff, List.forall₂_map_right_iff, List.forall₂_same]
    exact h
  have hgather := Gathering.gather List.append_assoc (fun _ _ => List.length_append)
    List.nil_append List.length_nil hstays
  rw [foldr_append, zipWith_flatten, List.map_map] at hgather
  exact hgather

/-- Contents by tag, concatenated tag by tag. -/
def appendEach {n : Nat} (first second : Fin n → List β) (k : Fin n) : List β :=
  first k ++ second k

theorem foldr_appendEach {n : Nat} (cs : List γ) (rows : γ → Fin n → List β) :
    (cs.map rows).foldr appendEach (fun _ => []) = fun k => cs.flatMap fun c => rows c k := by
  induction cs with
  | nil => rfl
  | cons c cs ih =>
      rw [List.map_cons, List.foldr_cons, ih]
      rfl

/-- Indexes into a content by tag. -/
theorem gather_each {n : Nat} {shift : (Fin n → Nat) → ι → ι}
    {pick : (Fin n → List β) → ι → δ} (cs : List γ) (index : γ → List ι)
    (rows : γ → Fin n → List β)
    (h : ∀ c ∈ cs, Gathering.Stays appendEach (fun rows k => (rows k).length) shift pick (index c)
      (rows c)) :
    (rebased shift (cs.map fun c k => (rows c k).length) (cs.map index)).map
        (pick fun k => cs.flatMap fun c => rows c k) =
      cs.flatMap fun c => (index c).map (pick (rows c)) := by
  have hstays : List.Forall₂ (Gathering.Stays appendEach (fun rows k => (rows k).length) shift pick)
      (cs.map index) (cs.map rows) := by
    rw [List.forall₂_map_left_iff, List.forall₂_map_right_iff, List.forall₂_same]
    exact h
  have hassoc : ∀ a b c : Fin n → List β,
      appendEach (appendEach a b) c = appendEach a (appendEach b c) :=
    fun a b c => funext fun k => List.append_assoc _ _ _
  have hlen : ∀ a b : Fin n → List β, (fun k => (appendEach a b k).length) =
      (fun k => (a k).length) + fun k => (b k).length :=
    fun a b => funext fun k => List.length_append
  have hnil : ∀ a : Fin n → List β, appendEach (fun _ => []) a = a := fun a => rfl
  have hgather := Gathering.gather hassoc hlen hnil rfl hstays
  rw [foldr_appendEach, zipWith_flatten, List.map_map] at hgather
  exact hgather

theorem picked_stays {index : List Int} {rows : List (Val α)}
    (h : ∀ i ∈ index, i < (rows.length : Int)) :
    Gathering.Stays (· ++ ·) List.length shiftIndex picked index rows := by
  intro i hi before after
  have hlt := h i hi
  unfold shiftIndex picked
  by_cases hneg : i < 0
  · rw [if_pos hneg, if_pos hneg]
    rfl
  · rw [if_neg hneg, if_neg hneg, if_neg (by omega)]
    have hnat : (i + (before.length : Int)).toNat = before.length + i.toNat := by omega
    change (before ++ rows ++ after).getD (i + (before.length : Int)).toNat .null = _
    rw [hnat, List.getD_eq_getElem?_getD, List.getD_eq_getElem?_getD, List.append_assoc,
      List.getElem?_append_right (Nat.le_add_right _ _), Nat.add_sub_cancel_left,
      List.getElem?_append_left (by omega)]

/-- A span shifted to where its content starts. -/
def shiftSpan (start : Nat) (span : Nat × Nat) : Nat × Nat := (span.1 + start, span.2 + start)

theorem spans_stay {spans : List (Nat × Nat)} {rows : List (Val α)}
    (h : ∀ span ∈ spans, span.1 = span.2 ∨ span.1 < span.2 ∧ span.2 ≤ rows.length) :
    Gathering.Stays (· ++ ·) List.length shiftSpan (fun rows span => Val.list (sub rows span))
      spans rows := by
  rintro ⟨start, stop⟩ hspan before after
  change Val.list (sub (before ++ rows ++ after) (start + before.length, stop + before.length)) =
    Val.list (sub rows (start, stop))
  rw [sub_eq_take_drop, sub_eq_take_drop, Nat.add_sub_add_right]
  obtain heq | ⟨hlt, hle⟩ := h _ hspan
  · have hzero : stop - start = 0 := by
      change start = stop at heq
      omega
    rw [hzero, List.take_zero, List.take_zero]
  · change stop ≤ rows.length at hle
    rw [List.append_assoc, Nat.add_comm start, ← List.drop_drop, List.drop_left,
      List.drop_append_of_le_length (by omega), List.take_append_of_le_length (by
        rw [List.length_drop]
        omega)]

/-- An item shifted to where its tag's content starts. -/
def shiftItem {n : Nat} (start : Fin n → Nat) (item : Fin n × Nat) : Fin n × Nat :=
  (item.1, item.2 + start item.1)

theorem chosen_stays {n : Nat} {items : List (Fin n × Nat)} {rows : Fin n → List (Val α)}
    (h : ∀ item ∈ items, item.2 < (rows item.1).length) :
    Gathering.Stays appendEach (fun rows k => (rows k).length) shiftItem chosen items rows := by
  rintro ⟨tag, i⟩ hitem before after
  have hlt : i < (rows tag).length := h _ hitem
  change (before tag ++ rows tag ++ after tag).getD (i + (before tag).length) .null =
    (rows tag).getD i .null
  rw [List.getD_eq_getElem?_getD, List.getD_eq_getElem?_getD, List.append_assoc,
    List.getElem?_append_right (Nat.le_add_left _ _), Nat.add_sub_cancel,
    List.getElem?_append_left hlt]

end Gather

/-! ### Indexes shifted together -/

section Shifted

variable {M β δ : Type} {f : γ → M → List β} {g : γ → M → List δ} {cs : List γ}

theorem length_shifted (h : ∀ c ∈ cs, ∀ s, (f c s).length = (g c s).length) (ss : List M) :
    (List.zipWith f cs ss).flatten.length = (List.zipWith g cs ss).flatten.length := by
  induction cs generalizing ss with
  | nil => rfl
  | cons c cs ih =>
      cases ss with
      | nil => rfl
      | cons s ss =>
          rw [List.zipWith_cons_cons, List.zipWith_cons_cons, List.flatten_cons, List.flatten_cons,
            List.length_append, List.length_append, h c List.mem_cons_self s,
            ih (fun d hd => h d (List.mem_cons_of_mem _ hd)) ss]

theorem zip_shifted (h : ∀ c ∈ cs, ∀ s, (f c s).length = (g c s).length) (ss : List M) :
    (List.zipWith f cs ss).flatten.zip (List.zipWith g cs ss).flatten =
      (List.zipWith (fun c s => (f c s).zip (g c s)) cs ss).flatten := by
  induction cs generalizing ss with
  | nil => rfl
  | cons c cs ih =>
      cases ss with
      | nil => rfl
      | cons s ss =>
          rw [List.zipWith_cons_cons, List.zipWith_cons_cons, List.zipWith_cons_cons,
            List.flatten_cons, List.flatten_cons, List.flatten_cons,
            List.zip_append (h c List.mem_cons_self s),
            ih (fun d hd => h d (List.mem_cons_of_mem _ hd)) ss]

theorem flatMap_eq_shifted (tags : γ → List β) {ss : List M} (h : cs.length ≤ ss.length) :
    cs.flatMap tags = (List.zipWith (fun c _ => tags c) cs ss).flatten := by
  induction cs generalizing ss with
  | nil => rfl
  | cons c cs ih =>
      cases ss with
      | nil => simp at h
      | cons s ss =>
          rw [List.zipWith_cons_cons, List.flatMap_cons, List.flatten_cons,
            ih (Nat.le_of_succ_le_succ h)]

theorem zipWith_congr_left {f g : γ → M → δ} (h : ∀ c ∈ cs, ∀ s, f c s = g c s) (ss : List M) :
    List.zipWith f cs ss = List.zipWith g cs ss := by
  induction cs generalizing ss with
  | nil => rfl
  | cons c cs ih =>
      cases ss with
      | nil => rfl
      | cons s ss =>
          rw [List.zipWith_cons_cons, List.zipWith_cons_cons, h c List.mem_cons_self s,
            ih (fun d hd => h d (List.mem_cons_of_mem _ hd)) ss]

theorem rebased_map [AddMonoid M] {ι : Type} (shift : M → ι → ι) (lengths : List M)
    (index : γ → List ι) :
    rebased shift lengths (cs.map index) =
      (List.zipWith (fun c s => (index c).map (shift s)) cs (Gathering.starts lengths)).flatten := by
  unfold rebased
  rw [List.zipWith_map_left]

end Shifted

/-! ### Node by node -/

namespace Layout

/-- What joining parts of these wholes must give. -/
def Joins (f : Form) (cs : List γ) (part whole : γ → Layout α f) (joined : Joined α) : Prop :=
  joined.length = (cs.map fun c => (whole c).length f).sum ∧
    joined.rows = cs.flatMap fun c => (whole c).rows f (seen f (cs.map part))

/-- The parts are what reads of the wholes leave. -/
structure Parts (f : Form) (cs : List γ) (part whole : γ → Layout α f) : Prop where
  valid : ∀ c ∈ cs, (whole c).Valid f
  leaves : ∀ c ∈ cs, (part c).Leaves f (whole c)

section Nodes

variable {f : Form} {cs : List γ} {part whole : γ → Layout α f}

theorem Parts.total (h : Parts f cs part whole) :
    total f (cs.map part) = (cs.map fun c => (whole c).length f).sum := by
  unfold Layout.total
  rw [List.map_map]
  congr 1
  apply List.map_congr_left
  intro c hc
  exact (h.leaves c hc).length_eq

theorem Parts.lengths (h : Parts f cs part whole) (s : Seen f) :
    ((cs.map part).map fun p => p.length f) = cs.map fun c => ((whole c).rows f s).length := by
  rw [List.map_map]
  apply List.map_congr_left
  intro c hc
  rw [length_rows f s (h.valid c hc)]
  exact (h.leaves c hc).length_eq

theorem Parts.of_rows (h : Parts f cs part whole) {joined : Joined α}
    (hlength : joined.length = joined.rows.length)
    (hrows : joined.rows = cs.flatMap fun c => (whole c).rows f (seen f (cs.map part))) :
    Joins f cs part whole joined := by
  refine ⟨?_, hrows⟩
  rw [hlength, hrows, List.length_flatMap]
  congr 1
  apply List.map_congr_left
  intro c hc
  exact length_rows f _ (h.valid c hc)

/-- Concatenated where all is read, and joined by hand else. -/
theorem Parts.concatenateOr (h : Parts f cs part whole) {joined : Joined α}
    (hjoined : (cs.map part).all (isRead f) = false → Joins f cs part whole joined) :
    Joins f cs part whole (concatenateOr f (cs.map part) joined) := by
  unfold Layout.concatenateOr
  cases hall : (cs.map part).all (isRead f) with
  | false => exact hjoined hall
  | true =>
      have hread := List.all_eq_true.mp hall
      have hrows : (cs.map part).flatMap (toList f) =
          cs.flatMap fun c => (whole c).rows f (seen f (cs.map part)) := by
        rw [List.flatMap_map, seen_of_isRead f hread]
        apply List.flatMap_congr
        intro c hc
        have hpart := hread _ (List.mem_map_of_mem hc)
        rw [(h.leaves c hc).eq_of_isRead hpart]
        rfl
      rw [if_pos rfl]
      exact h.of_rows rfl hrows

/-- A node some chunk left unread. -/
theorem Parts.unread (h : Parts f cs part whole)
    (hrows : ∀ c ∈ cs, (whole c).rows f (seen f (cs.map part)) =
      List.replicate ((whole c).length f) .unread) :
    Joins f cs part whole (.unread f (Layout.total f (cs.map part))) := by
  refine ⟨h.total, ?_⟩
  change List.replicate (Layout.total f (cs.map part)) Val.unread = _
  rw [h.total, ← flatMap_replicate]
  apply List.flatMap_congr
  intro c hc
  rw [hrows c hc]

end Nodes

section Kinds

variable {content : Form} {cs : List γ}

theorem joins_numpy {part whole : γ → Layout α .numpy} (h : Parts .numpy cs part whole) :
    Joins .numpy cs part whole (joined .numpy (cs.map part)) := by
  refine h.concatenateOr fun hall => h.unread fun c _ => ?_
  have hseen : (seen .numpy (cs.map part)).1 = false := hall
  change (if (seen .numpy (cs.map part)).1 = true then _ else _) = _
  rw [hseen]
  rfl

/-- What is asked of joining contents. -/
def JoinsAll (content : Form) (join : List (Layout α content) → Joined α) : Prop :=
  ∀ (γ : Type) (cs : List γ) (part whole : γ → Layout α content), Parts content cs part whole →
    Joins content cs part whole (join (cs.map part))

theorem joins_indexed {option : Bool} {join : List (Layout α content) → Joined α}
    (hjoin : JoinsAll content join) {part whole : γ → Layout α (.indexed option content)}
    (h : Parts (.indexed option content) cs part whole) :
    Joins (.indexed option content) cs part whole
      (joinedIndexed option content join (cs.map part)) := by
  refine h.concatenateOr fun _ => ?_
  cases hall : (cs.map part).all (·.index.isRead) with
  | false =>
      refine h.unread fun c _ => ?_
      have hseen : (seen (.indexed option content) (cs.map part)).1 = false := hall
      change (if (seen (.indexed option content) (cs.map part)).1 = true then _ else _) = _
      rw [hseen]
      rfl
  | true =>
      have hread : ∀ c ∈ cs, (part c).index.isRead = true := fun c hc =>
        List.all_eq_true.mp hall _ (List.mem_map_of_mem hc)
      have hcontents : Parts content cs (fun c => (part c).content) fun c => (whole c).content :=
        ⟨fun c hc => (h.valid c hc).2.2, fun c hc => (h.leaves c hc).2 (hread c hc)⟩
      obtain ⟨-, hrows⟩ := hjoin γ cs _ _ hcontents
      have hseen : seen (.indexed option content) (cs.map part) =
          (true, seen content (cs.map fun c => (part c).content)) := by
        refine Prod.ext hall ?_
        change seen content ((cs.map part).map (·.content)) = _
        rw [List.map_map]
        rfl
      have hindex : (cs.map part).map (·.index.items) = cs.map fun c => (whole c).index.items := by
        rw [List.map_map]
        apply List.map_congr_left
        intro c hc
        exact congrArg Buffer.items ((h.leaves c hc).1.2 (hread c hc))
      have hlengths : ((cs.map part).map fun p => length content p.content) = cs.map fun c =>
          ((whole c).content.rows content
            (seen content (cs.map fun c => (part c).content))).length := by
        rw [← hcontents.lengths, List.map_map, List.map_map]
        rfl
      have hstays : ∀ c ∈ cs, Gathering.Stays (· ++ ·) List.length shiftIndex picked
          (whole c).index.items
          ((whole c).content.rows content (seen content (cs.map fun c => (part c).content))) := by
        intro c hc
        apply picked_stays
        intro i hi
        rw [length_rows content _ (hcontents.valid c hc)]
        exact ((h.valid c hc).2.1 i hi).1
      have hgather := gather_flatMap cs (fun c => (whole c).index.items) _ hstays
      rw [if_pos rfl]
      refine h.of_rows (List.length_map _).symm ?_
      change (rebased _ _ _).map (picked (join ((cs.map part).map (·.content))).rows) = _
      rw [hindex, hlengths, List.map_map, hseen]
      refine Eq.trans (congrArg (fun rows => List.map (picked rows) _) hrows) (hgather.trans ?_)
      rfl

/-- Slices of parts are parts of slices. -/
theorem Parts.slice (part whole : γ → Layout α content) (span : γ → Nat × Nat)
    (hvalid : ∀ c ∈ cs, (whole c).Valid content)
    (hleaves : ∀ c ∈ cs, (part c).Leaves content (whole c))
    (hspan : ∀ c ∈ cs, (span c).1 ≤ (span c).2 ∧ (span c).2 ≤ (whole c).length content) :
    Parts content cs (fun c => slice (span c).1 (span c).2 content (part c))
      fun c => slice (span c).1 (span c).2 content (whole c) :=
  ⟨fun c hc => valid_slice content (hvalid c hc) (hspan c hc).1 (hspan c hc).2,
    fun c hc => (hleaves c hc).slice _ _⟩

/-- Joining slices of contents. -/
theorem JoinsAll.sliced {join : List (Layout α content) → Joined α} (hjoin : JoinsAll content join)
    (part whole : γ → Layout α content) (span : γ → Nat × Nat)
    (hvalid : ∀ c ∈ cs, (whole c).Valid content)
    (hleaves : ∀ c ∈ cs, (part c).Leaves content (whole c))
    (hspan : ∀ c ∈ cs, (span c).1 ≤ (span c).2 ∧ (span c).2 ≤ (whole c).length content) :
    (join (cs.map fun c => slice (span c).1 (span c).2 content (part c))).rows =
      cs.flatMap fun c => sub ((whole c).rows content (seen content (cs.map part))) (span c) := by
  obtain ⟨-, hrows⟩ := hjoin γ cs _ _ (Parts.slice part whole span hvalid hleaves hspan)
  rw [hrows, seen_slice]
  apply List.flatMap_congr
  intro c hc
  exact rows_slice content _ (hvalid c hc) (hspan c hc).1 (hspan c hc).2

theorem recordRows_clip (names : Option (List String)) {n : Nat} (rows : Fin n → List (Val α))
    (len : Nat) :
    recordRows names (fun k => sub (rows k) (0, len)) len = recordRows names rows len := by
  have h : recordRows names (fun k => sub (rows k) (0, len)) (min len len - 0) =
      sub (recordRows names rows len) (0, len) := recordRows_sub names rows (Nat.le_refl len)
  have hlength := length_recordRows names rows len
  rw [Nat.min_self, Nat.sub_zero] at h
  rw [h]
  calc sub (recordRows names rows len) (0, len)
      = sub (recordRows names rows len) (0, (recordRows names rows len).length) := by rw [hlength]
    _ = recordRows names rows len := sub_all

theorem joins_record {n : Nat} {names : Option (List String)} {fields : Fin n → Form}
    (hjoin : ∀ k, JoinsAll (α := α) (fields k) (joined (fields k)))
    {part whole : γ → Layout α (.record n names fields)}
    (h : Parts (.record n names fields) cs part whole) :
    Joins (.record n names fields) cs part whole
      (joined (.record n names fields) (cs.map part)) := by
  refine h.concatenateOr fun _ => h.of_rows (length_recordRows _ _ _).symm ?_
  have hlen : ∀ c ∈ cs, (part c).len = (whole c).len := fun c hc => (h.leaves c hc).1
  have hfields : ∀ k, (joined (fields k)
      ((cs.map part).map fun p => slice 0 p.len (fields k) (p.contents k))).rows =
        cs.flatMap fun c => sub ((whole c).contents k |>.rows (fields k)
          (seen (.record n names fields) (cs.map part) k)) (0, (whole c).len) := by
    intro k
    have hslices : ((cs.map part).map fun p => slice 0 p.len (fields k) (p.contents k)) =
        cs.map fun c => slice 0 (whole c).len (fields k) ((part c).contents k) := by
      rw [List.map_map]
      apply List.map_congr_left
      intro c hc
      rw [Function.comp_apply, hlen c hc]
    have hseen : seen (.record n names fields) (cs.map part) k =
        seen (fields k) (cs.map fun c => (part c).contents k) := by
      change seen (fields k) ((cs.map part).map (·.contents k)) = _
      rw [List.map_map]
      rfl
    rw [hslices, hseen]
    exact (hjoin k).sliced (fun c => (part c).contents k) (fun c => (whole c).contents k)
      (fun c => (0, (whole c).len))
      (fun c hc => (h.valid c hc k).1) (fun c hc => (h.leaves c hc).2 k)
      fun c hc => ⟨Nat.zero_le _, (h.valid c hc k).2⟩
  change recordRows names (fun k => (joined (fields k) _).rows) (total _ (cs.map part)) = _
  simp only [hfields]
  rw [h.total]
  refine (recordRows_flatMap names cs (fun c k => sub _ (0, (whole c).len)) (fun c => (whole c).len)
    ?_).trans ?_
  · intro c hc k
    rw [length_sub, length_rows _ _ (h.valid c hc k).1]
    have hle := (h.valid c hc k).2
    omega
  · apply List.flatMap_congr
    intro c _
    exact recordRows_clip _ _ _

/-- Offsets cover as much content as their differences sum to. -/
theorem cover {offsets : List Nat} (hne : offsets ≠ []) (hsorted : offsets.Pairwise (· ≤ ·)) :
    offsets.headD 0 ≤ offsets.getLastD 0 ∧ offsets.getLastD 0 ∈ offsets ∧
      (diff offsets).sum = offsets.getLastD 0 - offsets.headD 0 := by
  obtain ⟨first, rest, rfl⟩ := List.exists_cons_of_ne_nil hne
  have hsum := sum_diff first rest hsorted
  have hlast : (first :: rest).getLastD 0 = (first :: rest).getLast hne := by
    rw [List.getLastD_eq_getLast?, List.getLast?_eq_some_getLast hne]
    rfl
  rw [List.headD_cons]
  refine ⟨by omega, ?_, by omega⟩
  rw [hlast]
  exact List.getLast_mem hne

theorem joins_listOffset (hjoin : JoinsAll (α := α) content (joined content))
    {part whole : γ → Layout α (.listOffset content)}
    (h : Parts (.listOffset content) cs part whole) :
    Joins (.listOffset content) cs part whole (joined (.listOffset content) (cs.map part)) := by
  refine h.concatenateOr fun _ => ?_
  cases hall : (cs.map part).all (·.offsets.isRead) with
  | false =>
      refine h.unread fun c _ => ?_
      have hseen : (seen (.listOffset content) (cs.map part)).1 = false := hall
      change (if (seen (.listOffset content) (cs.map part)).1 = true then _ else _) = _
      rw [hseen]
      rfl
  | true =>
      have hread : ∀ c ∈ cs, (part c).offsets.isRead = true := fun c hc =>
        List.all_eq_true.mp hall _ (List.mem_map_of_mem hc)
      have hoffsets : ∀ c ∈ cs, (part c).offsets = (whole c).offsets := fun c hc =>
        (h.leaves c hc).1.2 (hread c hc)
      have hcover : ∀ c ∈ cs, _ := fun c hc =>
        cover (h.valid c hc).2.1 (h.valid c hc).2.2.1
      have hseen : seen (.listOffset content) (cs.map part) =
          (true, seen content (cs.map fun c => (part c).content)) := by
        refine Prod.ext hall ?_
        change seen content ((cs.map part).map (·.content)) = _
        rw [List.map_map]
        rfl
      have hcounts : ((cs.map part).flatMap fun p => diff p.offsets.items) =
          cs.flatMap fun c => diff (whole c).offsets.items := by
        rw [List.flatMap_map]
        apply List.flatMap_congr
        intro c hc
        rw [hoffsets c hc]
      have hslices : ((cs.map part).map fun p =>
          slice (p.offsets.items.headD 0) (p.offsets.items.getLastD 0) content p.content) =
          cs.map fun c => slice ((whole c).offsets.items.headD 0)
            ((whole c).offsets.items.getLastD 0) content (part c).content := by
        rw [List.map_map]
        apply List.map_congr_left
        intro c hc
        rw [Function.comp_apply, hoffsets c hc]
      have hspan : ∀ c ∈ cs, (whole c).offsets.items.headD 0 ≤ (whole c).offsets.items.getLastD 0 ∧
          (whole c).offsets.items.getLastD 0 ≤ (whole c).content.length content := by
        intro c hc
        obtain ⟨hle, hmem, -⟩ := hcover c hc
        exact ⟨hle, (h.valid c hc).2.2.2.1 _ hmem⟩
      have hcontent := hjoin.sliced (fun c => (part c).content) (fun c => (whole c).content)
        (fun c => ((whole c).offsets.items.headD 0, (whole c).offsets.items.getLastD 0))
        (fun c hc => (h.valid c hc).2.2.2.2) (fun c hc => (h.leaves c hc).2 (hread c hc)) hspan
      have hlength : ∀ c ∈ cs, (sub ((whole c).content.rows content
          (seen content (cs.map fun c => (part c).content)))
          ((whole c).offsets.items.headD 0, (whole c).offsets.items.getLastD 0)).length =
          (diff (whole c).offsets.items).sum := by
        intro c hc
        obtain ⟨-, -, hsum⟩ := hcover c hc
        have hle := (hspan c hc).2
        rw [length_sub, length_rows content _ (h.valid c hc).2.2.2.2, hsum, Nat.min_eq_left hle]
      rw [if_pos rfl]
      refine h.of_rows ?_ ?_
      · change _ = (lists _ _).length
        rw [length_lists, List.length_zip, List.length_tail]
        change List.length _ - 1 = _
        omega
      · change lists _ (joined content _).rows = _
        rw [hcounts, hslices, lists_cumsum, hcontent, runs_flatMap cs _ _ hlength, List.map_flatMap,
          hseen]
        apply List.flatMap_congr
        intro c hc
        exact (lists_offsets (h.valid c hc).2.1 (h.valid c hc).2.2.1 _).symm

theorem zip_take_length {β δ : Type} (xs : List β) (ys : List δ) :
    xs.zip (ys.take xs.length) = xs.zip ys := by
  induction xs generalizing ys with
  | nil => rfl
  | cons x xs ih =>
      cases ys with
      | nil => rfl
      | cons y ys => exact congrArg ((x, y) :: ·) (ih ys)

theorem joins_list (hjoin : JoinsAll (α := α) content (joined content))
    {part whole : γ → Layout α (.list content)} (h : Parts (.list content) cs part whole) :
    Joins (.list content) cs part whole (joined (.list content) (cs.map part)) := by
  refine h.concatenateOr fun _ => ?_
  cases hall : (cs.map part).all (fun p => p.starts.isRead && p.stops.isRead) with
  | false =>
      refine h.unread fun c _ => ?_
      have hseen : (seen (.list content) (cs.map part)).1 = false := hall
      change (if (seen (.list content) (cs.map part)).1 = true then _ else _) = _
      rw [hseen]
      rfl
  | true =>
      have hread : ∀ c ∈ cs, (part c).starts.isRead = true ∧ (part c).stops.isRead = true :=
        fun c hc => Bool.and_eq_true_iff.mp (List.all_eq_true.mp hall _ (List.mem_map_of_mem hc))
      have hcontents : Parts content cs (fun c => (part c).content) fun c => (whole c).content :=
        ⟨fun c hc => (h.valid c hc).2.2.2.2, fun c hc => (h.leaves c hc).2.2 (hread c hc)⟩
      obtain ⟨-, hrows⟩ := hjoin γ cs _ _ hcontents
      have hseen : seen (.list content) (cs.map part) =
          (true, seen content (cs.map fun c => (part c).content)) := by
        refine Prod.ext hall ?_
        change seen content ((cs.map part).map (·.content)) = _
        rw [List.map_map]
        rfl
      have hlength : ∀ c ∈ cs, (part c).starts.length = (whole c).starts.items.length := fun c hc =>
        (h.leaves c hc).1.1.trans ((whole c).starts.length_items (h.valid c hc).1).symm
      have hstarts : ((cs.map part).map fun p => p.starts.items.take p.starts.length) =
          cs.map fun c => (whole c).starts.items := by
        rw [List.map_map]
        apply List.map_congr_left
        intro c hc
        rw [Function.comp_apply, hlength c hc, (h.leaves c hc).1.2 (hread c hc).1, List.take_length]
      have hstops : ((cs.map part).map fun p => p.stops.items.take p.starts.length) =
          cs.map fun c => (whole c).stops.items.take (whole c).starts.items.length := by
        rw [List.map_map]
        apply List.map_congr_left
        intro c hc
        rw [Function.comp_apply, hlength c hc, (h.leaves c hc).2.1.2 (hread c hc).2]
      have hlengths : ((cs.map part).map fun p => length content p.content) = cs.map fun c =>
          ((whole c).content.rows content
            (seen content (cs.map fun c => (part c).content))).length := by
        rw [← hcontents.lengths, List.map_map, List.map_map]
        rfl
      have hsame : ∀ c ∈ cs, ∀ s, ((whole c).starts.items.map fun i => i + s).length =
          (((whole c).stops.items.take (whole c).starts.items.length).map
            fun i => i + s).length := by
        intro c hc s
        have hle := (h.valid c hc).2.2.1
        rw [← (whole c).starts.length_items (h.valid c hc).1,
          ← (whole c).stops.length_items (h.valid c hc).2.1] at hle
        rw [List.length_map, List.length_map, List.length_take, Nat.min_eq_left hle]
      have hstays : ∀ c ∈ cs, Gathering.Stays (· ++ ·) List.length shiftSpan
          (fun rows span => Val.list (sub rows span))
          ((whole c).starts.items.zip (whole c).stops.items)
          ((whole c).content.rows content (seen content (cs.map fun c => (part c).content))) := by
        intro c hc
        apply spans_stay
        intro span hspan
        rw [length_rows content _ (hcontents.valid c hc)]
        exact (h.valid c hc).2.2.2.1 span hspan
      have hgather := gather_flatMap cs
        (fun c => (whole c).starts.items.zip (whole c).stops.items) _ hstays
      rw [if_pos rfl]
      refine h.of_rows ?_ ?_
      · change List.length _ = (lists _ _).length
        rw [length_lists, List.length_zip, hstarts, hstops, rebased_map, rebased_map,
          length_shifted hsame, Nat.min_self]
      · change lists _ (joined content ((cs.map part).map (·.content))).rows = _
        rw [hstarts, hstops, hlengths, rebased_map, rebased_map, zip_shifted hsame, hseen,
          List.map_map]
        rw [rebased_map] at hgather
        refine Eq.trans ?_ hgather
        refine Eq.trans (congrArg (lists _) hrows) ?_
        unfold lists
        congr 3
        funext c s
        rw [List.zip_map, zip_take_length]
        rfl

theorem joins_regular {size : Nat} (hjoin : JoinsAll (α := α) content (joined content))
    {part whole : γ → Layout α (.regular size content)}
    (h : Parts (.regular size content) cs part whole) :
    Joins (.regular size content) cs part whole (joined (.regular size content) (cs.map part)) := by
  have hspan : ∀ c ∈ cs, 0 ≤ (whole c).length (.regular size content) * size ∧
      (whole c).length (.regular size content) * size ≤ (whole c).content.length content := by
    intro c _
    refine ⟨Nat.zero_le _, ?_⟩
    change (if size = 0 then (whole c).zerosLength else
      length content (whole c).content / size) * size ≤ _
    by_cases hsize : size = 0
    · rw [hsize, Nat.mul_zero]
      exact Nat.zero_le _
    · rw [if_neg hsize]
      exact Nat.div_mul_le_self _ _
  have hslices : ((cs.map part).map fun p =>
      slice 0 (length (.regular size content) p * size) content p.content) =
      cs.map fun c => slice 0 ((whole c).length (.regular size content) * size) content
        (part c).content := by
    rw [List.map_map]
    apply List.map_congr_left
    intro c hc
    rw [Function.comp_apply, (h.leaves c hc).length_eq]
  have hsliced : Parts content cs _ _ := Parts.slice (fun c => (part c).content)
    (fun c => (whole c).content) (fun c => (0, (whole c).length (.regular size content) * size))
    h.valid (fun c hc => (h.leaves c hc).2) hspan
  have hcontent := hjoin.sliced (fun c => (part c).content) (fun c => (whole c).content)
    (fun c => (0, (whole c).length (.regular size content) * size))
    h.valid (fun c hc => (h.leaves c hc).2) hspan
  have hseen : seen (.regular size content) (cs.map part) =
      seen content (cs.map fun c => (part c).content) := by
    change seen content ((cs.map part).map (·.content)) = _
    rw [List.map_map]
    rfl
  -- as many lists as the parts have, also where they are empty
  have hlength : (Joined.regular size (joined content ((cs.map part).map fun p =>
      slice 0 (length (.regular size content) p * size) content p.content))
      (total _ (cs.map part))).length = total _ (cs.map part) := by
    change (if size = 0 then total _ (cs.map part) else _ / size) = total _ (cs.map part)
    by_cases hsize : size = 0
    · rw [if_pos hsize]
    · obtain ⟨hsum, -⟩ := hjoin γ cs _ _ hsliced
      have hcounts : (cs.map fun c => (slice 0 ((whole c).length (.regular size content) * size)
          content (whole c).content).length content).sum =
          (cs.map fun c => (whole c).length (.regular size content)).sum * size := by
        rw [← List.sum_map_mul_right]
        congr 1
        apply List.map_congr_left
        intro c hc
        rw [length_slice content (h.valid c hc) (hspan c hc).1 (hspan c hc).2, Nat.sub_zero]
      rw [if_neg hsize, hslices, hsum, hcounts, Nat.mul_div_cancel _ (Nat.pos_of_ne_zero hsize),
        h.total]
  refine h.concatenateOr fun _ => h.of_rows ?_ ?_
  · change _ = (lists (regularSpans size _) _).length
    rw [length_lists, regularSpans, List.length_map, List.length_range]
  · change lists (regularSpans size (Joined.length _)) (joined content _).rows = _
    rw [hlength, hslices, hcontent, h.total, lists_regular, ← flatMap_replicate cs,
      runs_flatMap, List.map_flatMap, hseen]
    · apply List.flatMap_congr
      intro c _
      have hruns := Gathering.runs_take
        (List.replicate ((whole c).length (.regular size content)) size) ((whole c).content.rows
          content (seen content (cs.map fun c => (part c).content)))
      rw [List.sum_replicate_nat] at hruns
      change (runs _ (List.drop 0 (List.take _ _))).map Val.list = _
      rw [List.drop_zero, hruns]
      exact (lists_regular _ _ _).symm
    · intro c hc
      rw [length_sub, length_rows content _ (h.valid c hc), Nat.min_eq_left (hspan c hc).2,
        List.sum_replicate_nat, Nat.sub_zero]

theorem joins_unmasked (hjoin : JoinsAll (α := α) content (joined content))
    {part whole : γ → Layout α (.unmasked content)} (h : Parts (.unmasked content) cs part whole) :
    Joins (.unmasked content) cs part whole (joined (.unmasked content) (cs.map part)) := by
  have hcontents : Parts content cs (fun c => (part c).content) fun c => (whole c).content :=
    ⟨h.valid, h.leaves⟩
  have hmap : (cs.map part).map (·.content) = cs.map fun c => (part c).content := List.map_map
  refine h.concatenateOr fun _ => ?_
  change (joined content ((cs.map part).map (·.content))).length = _ ∧
    (joined content ((cs.map part).map (·.content))).rows =
      cs.flatMap fun c => (whole c).content.rows content (seen content ((cs.map part).map _))
  rw [hmap]
  exact hjoin γ cs _ _ hcontents

/-! Masks are joined as indexes. -/

theorem mem_maskIndex {validWhen : Bool} {mask : List Bool} {i : Int}
    (h : i ∈ maskIndex validWhen mask) : i < mask.length := by
  obtain ⟨k, hk, rfl⟩ := List.mem_mapIdx.mp h
  split
  · exact Int.ofNat_lt.mpr hk
  · omega

theorem length_maskIndex (validWhen : Bool) (mask : List Bool) :
    (maskIndex validWhen mask).length = mask.length := List.length_mapIdx

/-- Masked contents, joined by index. -/
theorem joins_masked (hjoin : JoinsAll (α := α) content (joined content)) (validWhen : Bool)
    (mask : γ → List Bool) {part whole : γ → Layout α content} (h : Parts content cs part whole)
    (hle : ∀ c ∈ cs, (mask c).length ≤ (whole c).length content) :
    let joined := joinedIndexed true content (joined content)
      (cs.map fun c => ⟨.read (maskIndex validWhen (mask c)), part c⟩)
    joined.length = (cs.map fun c => (mask c).length).sum ∧
      joined.rows = cs.flatMap fun c => (maskIndex validWhen (mask c)).map
        (picked ((whole c).rows content (seen content (cs.map part)))) := by
  intro joined
  have hindexed : Parts (.indexed true content) cs
      (fun c => ⟨.read (maskIndex validWhen (mask c)), part c⟩)
      fun c => ⟨.read (maskIndex validWhen (mask c)), whole c⟩ := by
    refine ⟨fun c hc => ⟨rfl, fun i hi => ⟨?_, fun hfalse => by cases hfalse⟩, h.valid c hc⟩,
      fun c hc => ⟨⟨rfl, fun _ => rfl⟩, fun _ => h.leaves c hc⟩⟩
    exact (mem_maskIndex hi).trans_le (Int.ofNat_le.mpr (hle c hc))
  have hseen : seen (.indexed true content)
      (cs.map fun c => (⟨.read (maskIndex validWhen (mask c)), part c⟩ :
        Layout α (.indexed true content))) =
      (true, seen content (cs.map part)) := by
    refine Prod.ext ?_ ?_
    · exact List.all_eq_true.mpr (List.forall_mem_map.mpr fun c _ => rfl)
    · exact congrArg (seen content) List.map_map
  obtain ⟨hlength, hrows⟩ := joins_indexed hjoin hindexed
  refine ⟨hlength.trans ?_, hrows.trans ?_⟩
  · congr 1
    apply List.map_congr_left
    intro c _
    exact length_maskIndex validWhen (mask c)
  · rw [hseen]
    rfl

theorem joins_byteMasked {validWhen : Bool} (hjoin : JoinsAll (α := α) content (joined content))
    {part whole : γ → Layout α (.byteMasked validWhen content)}
    (h : Parts (.byteMasked validWhen content) cs part whole) :
    Joins (.byteMasked validWhen content) cs part whole
      (joined (.byteMasked validWhen content) (cs.map part)) := by
  refine h.concatenateOr fun _ => ?_
  cases hall : (cs.map part).all (·.mask.isRead) with
  | false =>
      refine h.unread fun c _ => ?_
      have hseen : (seen (.byteMasked validWhen content) (cs.map part)).1 = false := hall
      change (if (seen (.byteMasked validWhen content) (cs.map part)).1 = true then _ else _) = _
      rw [hseen]
      rfl
  | true =>
      have hread : ∀ c ∈ cs, (part c).mask.isRead = true := fun c hc =>
        List.all_eq_true.mp hall _ (List.mem_map_of_mem hc)
      have hlength : ∀ c ∈ cs, (whole c).mask.items.length = (whole c).mask.length := fun c hc =>
        (whole c).mask.length_items (h.valid c hc).1
      have hcontents : Parts content cs (fun c => (part c).content) fun c => (whole c).content :=
        ⟨fun c hc => (h.valid c hc).2.2, fun c hc => (h.leaves c hc).2 (hread c hc)⟩
      have hparts : (cs.map part).map byteIndexed = cs.map fun c =>
          (⟨.read (maskIndex validWhen (whole c).mask.items), (part c).content⟩ :
            Layout α (.indexed true content)) := by
        rw [List.map_map]
        apply List.map_congr_left
        intro c hc
        rw [Function.comp_apply, byteIndexed, (h.leaves c hc).1.2 (hread c hc)]
      have hseen : seen (.byteMasked validWhen content) (cs.map part) =
          (true, seen content (cs.map fun c => (part c).content)) := by
        refine Prod.ext hall ?_
        change seen content ((cs.map part).map (·.content)) = _
        rw [List.map_map]
        rfl
      obtain ⟨hsum, hrows⟩ := joins_masked hjoin validWhen (fun c => (whole c).mask.items) hcontents
        fun c hc => (hlength c hc).trans_le (h.valid c hc).2.1
      rw [if_pos rfl, hparts]
      refine ⟨hsum.trans ?_, hrows.trans ?_⟩
      · rw [List.map_congr_left hlength]
        rfl
      · rw [hseen]
        rfl

theorem joins_bitMasked {validWhen : Bool} (hjoin : JoinsAll (α := α) content (joined content))
    {part whole : γ → Layout α (.bitMasked validWhen content)}
    (h : Parts (.bitMasked validWhen content) cs part whole) :
    Joins (.bitMasked validWhen content) cs part whole
      (joined (.bitMasked validWhen content) (cs.map part)) := by
  refine h.concatenateOr fun _ => ?_
  cases hall : (cs.map part).all (·.mask.isRead) with
  | false =>
      refine h.unread fun c _ => ?_
      have hseen : (seen (.bitMasked validWhen content) (cs.map part)).1 = false := hall
      change (if (seen (.bitMasked validWhen content) (cs.map part)).1 = true then _ else _) = _
      rw [hseen]
      rfl
  | true =>
      have hread : ∀ c ∈ cs, (part c).mask.isRead = true := fun c hc =>
        List.all_eq_true.mp hall _ (List.mem_map_of_mem hc)
      have hlength : ∀ c ∈ cs,
          ((whole c).mask.items.take (whole c).len).length = (whole c).len := by
        intro c hc
        have hle := (h.valid c hc).2.1
        rw [List.length_take, (whole c).mask.length_items (h.valid c hc).1, Nat.min_eq_left hle]
      have hcontents : Parts content cs (fun c => (part c).content) fun c => (whole c).content :=
        ⟨fun c hc => (h.valid c hc).2.2.2, fun c hc => (h.leaves c hc).2.2 (hread c hc)⟩
      have hparts : (cs.map part).map bitIndexed = cs.map fun c =>
          (⟨.read (maskIndex validWhen ((whole c).mask.items.take (whole c).len)),
            (part c).content⟩ :
            Layout α (.indexed true content)) := by
        rw [List.map_map]
        apply List.map_congr_left
        intro c hc
        rw [Function.comp_apply, bitIndexed, (h.leaves c hc).1.2 (hread c hc), (h.leaves c hc).2.1]
      have hseen : seen (.bitMasked validWhen content) (cs.map part) =
          (true, seen content (cs.map fun c => (part c).content)) := by
        refine Prod.ext hall ?_
        change seen content ((cs.map part).map (·.content)) = _
        rw [List.map_map]
        rfl
      obtain ⟨hsum, hrows⟩ := joins_masked hjoin validWhen
        (fun c => (whole c).mask.items.take (whole c).len) hcontents
        fun c hc => (hlength c hc).trans_le (h.valid c hc).2.2.1
      rw [if_pos rfl, hparts]
      refine ⟨hsum.trans ?_, hrows.trans ?_⟩
      · rw [List.map_congr_left hlength]
        rfl
      · rw [hseen]
        rfl

/-! Unions are joined item by item. -/

theorem zip_shiftItem {n : Nat} (s : Fin n → Nat) (tags : List (Fin n)) (index : List Nat) :
    tags.zip (List.zipWith (fun tag i => i + s tag) tags (index.take tags.length)) =
      (tags.zip index).map (shiftItem s) := by
  induction tags generalizing index with
  | nil => rfl
  | cons tag tags ih =>
      cases index with
      | nil => rfl
      | cons i index => exact congrArg ((tag, i + s tag) :: ·) (ih index)

theorem length_cumsum {M : Type} [AddMonoid M] (ms : List M) : (cumsum ms).length = ms.length := by
  induction ms with
  | nil => rfl
  | cons m ms ih =>
      change ((cumsum ms).map (m + ·)).length + 1 = ms.length + 1
      rw [List.length_map, ih]

theorem joins_union {n : Nat} {contents : Fin n → Form}
    (hjoin : ∀ k, JoinsAll (α := α) (contents k) (joined (contents k)))
    {part whole : γ → Layout α (.union n contents)} (h : Parts (.union n contents) cs part whole) :
    Joins (.union n contents) cs part whole (joined (.union n contents) (cs.map part)) := by
  refine h.concatenateOr fun _ => ?_
  cases hall : (cs.map part).all (fun p => p.tags.isRead && p.index.isRead) with
  | false =>
      refine h.unread fun c _ => ?_
      have hseen : (seen (.union n contents) (cs.map part)).1 = false := hall
      change (if (seen (.union n contents) (cs.map part)).1 = true then _ else _) = _
      rw [hseen]
      rfl
  | true =>
      have hread : ∀ c ∈ cs, (part c).tags.isRead = true ∧ (part c).index.isRead = true :=
        fun c hc => Bool.and_eq_true_iff.mp (List.all_eq_true.mp hall _ (List.mem_map_of_mem hc))
      have hcontents : ∀ k, Parts (contents k) cs (fun c => (part c).contents k)
          fun c => (whole c).contents k := fun k =>
        ⟨fun c hc => (h.valid c hc).2.2.2.2 k, fun c hc => (h.leaves c hc).2.2 (hread c hc) k⟩
      have hrows := fun k => (hjoin k γ cs _ _ (hcontents k)).2
      have hseen : seen (.union n contents) (cs.map part) =
          (true, fun k => seen (contents k) (cs.map fun c => (part c).contents k)) := by
        refine Prod.ext hall (funext fun k => ?_)
        change seen (contents k) ((cs.map part).map (·.contents k)) = _
        rw [List.map_map]
        rfl
      have hlength : ∀ c ∈ cs, (part c).tags.length = (whole c).tags.items.length := fun c hc =>
        (h.leaves c hc).1.1.trans ((whole c).tags.length_items (h.valid c hc).1).symm
      have hle : ∀ c ∈ cs, (whole c).tags.items.length ≤ (whole c).index.items.length := by
        intro c hc
        rw [(whole c).tags.length_items (h.valid c hc).1,
          (whole c).index.length_items (h.valid c hc).2.1]
        exact (h.valid c hc).2.2.1
      have htags : ((cs.map part).flatMap fun p => p.tags.items.take p.tags.length) =
          cs.flatMap fun c => (whole c).tags.items := by
        rw [List.flatMap_map]
        apply List.flatMap_congr
        intro c hc
        rw [hlength c hc, (h.leaves c hc).1.2 (hread c hc).1, List.take_length]
      have hindex : ∀ ss : List (Fin n → Nat), List.zipWith (fun p s =>
          List.zipWith (fun tag i => i + s tag) (p.tags.items.take p.tags.length)
            (p.index.items.take p.tags.length)) (cs.map part) ss =
          List.zipWith (fun c s => List.zipWith (fun tag i => i + s tag) (whole c).tags.items
            ((whole c).index.items.take (whole c).tags.items.length)) cs ss := by
        intro ss
        rw [List.zipWith_map_left]
        apply zipWith_congr_left
        intro c hc s
        rw [hlength c hc, (h.leaves c hc).1.2 (hread c hc).1, List.take_length,
          (h.leaves c hc).2.1.2 (hread c hc).2]
      have hlengths : ((cs.map part).map fun p k => length (contents k) (p.contents k)) =
          cs.map fun c k => ((whole c).contents k |>.rows (contents k)
            (seen (contents k) (cs.map fun c => (part c).contents k))).length := by
        rw [List.map_map]
        apply List.map_congr_left
        intro c hc
        funext k
        rw [length_rows _ _ ((hcontents k).valid c hc)]
        exact ((hcontents k).leaves c hc).length_eq
      have hstays : ∀ c ∈ cs, Gathering.Stays appendEach (fun rows k => (rows k).length) shiftItem
          chosen ((whole c).tags.items.zip (whole c).index.items) fun k =>
            (whole c).contents k |>.rows (contents k)
              (seen (contents k) (cs.map fun c => (part c).contents k)) := by
        intro c hc
        apply chosen_stays
        intro item hitem
        rw [length_rows _ _ ((hcontents item.1).valid c hc)]
        exact (h.valid c hc).2.2.2.1 item hitem
      have hgather := gather_each cs (fun c => (whole c).tags.items.zip (whole c).index.items) _
        hstays
      have hsame : ∀ c ∈ cs, ∀ s : Fin n → Nat, (whole c).tags.items.length =
          (List.zipWith (fun tag i => i + s tag) (whole c).tags.items
            ((whole c).index.items.take (whole c).tags.items.length)).length := by
        intro c hc s
        rw [List.length_zipWith, List.length_take, Nat.min_eq_left (hle c hc), Nat.min_self]
      have hstarts : cs.length ≤ (Gathering.starts (cs.map fun c k =>
          ((whole c).contents k |>.rows (contents k)
            (seen (contents k) (cs.map fun c => (part c).contents k))).length)).length := by
        unfold Gathering.starts
        rw [length_cumsum, List.length_cons, List.length_dropLast, List.length_map]
        omega
      rw [if_pos rfl]
      refine h.of_rows ?_ ?_
      · change List.length _ = (List.map _ (List.zip _ _)).length
        rw [List.length_map, List.length_zip, htags, hindex, hlengths, flatMap_eq_shifted _ hstarts,
          length_shifted hsame, Nat.min_self]
      · change (List.zip _ _).map (chosen fun k =>
          (joined (contents k) ((cs.map part).map (·.contents k))).rows) = _
        have hjoined : (fun k => (joined (contents k) ((cs.map part).map (·.contents k))).rows) =
            fun k => cs.flatMap fun c => (whole c).contents k |>.rows (contents k)
              (seen (contents k) (cs.map fun c => (part c).contents k)) := by
          funext k
          rw [List.map_map]
          exact hrows k
        rw [htags, hindex, hlengths, flatMap_eq_shifted _ hstarts, zip_shifted hsame, hjoined,
          hseen]
        rw [rebased_map] at hgather
        refine Eq.trans ?_ hgather
        congr 3
        funext c s
        exact zip_shiftItem s _ _

end Kinds

/-! ### Joined chunks -/

/-- Joining parts gives the rows of the wholes where all was read. -/
theorem joins_all (f : Form) : JoinsAll (α := α) f (joined f) := by
  induction f with
  | numpy => exact fun _ _ _ _ h => joins_numpy h
  | record n names fields ih => exact fun _ _ _ _ h => joins_record ih h
  | listOffset content ih => exact fun _ _ _ _ h => joins_listOffset ih h
  | list content ih => exact fun _ _ _ _ h => joins_list ih h
  | regular size content ih => exact fun _ _ _ _ h => joins_regular ih h
  | byteMasked validWhen content ih => exact fun _ _ _ _ h => joins_byteMasked ih h
  | bitMasked validWhen content ih => exact fun _ _ _ _ h => joins_bitMasked ih h
  | unmasked content ih => exact fun _ _ _ _ h => joins_unmasked ih h
  | indexed option content ih => exact fun _ _ _ _ h => joins_indexed ih h
  | union n contents ih => exact fun _ _ _ _ h => joins_union ih h

end Layout

end Graphed.Blocks

