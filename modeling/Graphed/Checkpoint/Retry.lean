import Graphed.Execution.Plan
import Mathlib.Algebra.Ring.Int.Defs
import Mathlib.Data.List.Basic

/-!
# Retrying in smaller chunks

A partition that failed is split and its pieces are processed in entry order; a piece that fails is
split again, until it has one entry or no more than the smallest size. The partials of the pieces
are combined. Only an `Exception` is met by a split: an interrupt goes through.
-/

namespace Graphed

variable {V : Type}

/-! ### Splitting a range -/

/-- A plain range of the tree `p` reads. -/
def Partition.sub (p : Partition) (lo hi : Int) : Partition :=
  ⟨p.uri, p.tree, lo, hi, none, none, none⟩

/-- Split a partition's entry range into at most `n` contiguous sub-partitions. -/
def Partition.split (p : Partition) (n : Int) : List Partition :=
  let total := p.nEntries
  if total ≤ 1 then [p]
  else
    let n := (max 2 (min n total)).toNat
    let size := total / n
    let bounds :=
      (List.range n).map (fun i : Nat => p.entryStart + i * size) ++ [p.entryStop]
    (List.range n).filterMap fun i =>
      let lo := bounds.getD i 0
      let hi := bounds.getD (i + 1) 0
      if lo < hi then some (p.sub lo hi) else none

/-- Non-empty ranges, in order and disjoint, from `lo` up to `hi`. -/
def Tiles : Int → List Partition → Int → Prop
  | lo, [], hi => lo = hi
  | lo, q :: rest, hi => q.entryStart = lo ∧ lo < q.entryStop ∧ Tiles q.entryStop rest hi

theorem tiles_le {lo hi : Int} {ranges : List Partition} (h : Tiles lo ranges hi) : lo ≤ hi := by
  induction ranges generalizing lo with
  | nil => exact le_of_eq h
  | cons q rest ih => exact le_trans (le_of_lt h.2.1) (ih h.2.2)

theorem tiles_append {lo mid hi : Int} {xs ys : List Partition} (hxs : Tiles lo xs mid)
    (hys : Tiles mid ys hi) : Tiles lo (xs ++ ys) hi := by
  induction xs generalizing lo with
  | nil =>
      have heq : lo = mid := hxs
      rwa [heq]
  | cons q rest ih => exact ⟨hxs.1, hxs.2.1, ih hxs.2.2⟩

theorem tiles_mem {lo hi : Int} {ranges : List Partition} (h : Tiles lo ranges hi) {q : Partition}
    (hq : q ∈ ranges) : lo ≤ q.entryStart ∧ q.entryStart < q.entryStop ∧ q.entryStop ≤ hi := by
  induction ranges generalizing lo with
  | nil => cases hq
  | cons s rest ih =>
      obtain ⟨hstart, hlt, hrest⟩ := h
      cases hq with
      | head => exact ⟨le_of_eq hstart.symm, hstart ▸ hlt, tiles_le hrest⟩
      | tail _ hq =>
          have hin := ih hrest hq
          exact ⟨le_trans (le_of_lt hlt) hin.1, hin.2⟩

/-- Among two ranges or more, each is smaller than the whole. -/
theorem tiles_lt {lo hi : Int} {ranges : List Partition} (h : Tiles lo ranges hi)
    (hlen : 1 < ranges.length) {q : Partition} (hq : q ∈ ranges) :
    q.entryStop - q.entryStart < hi - lo := by
  have split : ∃ first second rest, ranges = first :: second :: rest := by
    cases ranges with
    | nil => exact absurd hlen (by decide)
    | cons first ranges =>
        cases ranges with
        | nil => exact absurd hlen (Nat.lt_irrefl 1)
        | cons second rest => exact ⟨first, second, rest, rfl⟩
  obtain ⟨first, second, rest, rfl⟩ := split
  obtain ⟨hstart, hlt, hsecond, hlt', hrest⟩ := h
  have hle := tiles_le hrest
  cases hq with
  | head => omega
  | tail _ hq =>
      have htail : Tiles first.entryStop (second :: rest) hi := ⟨hsecond, hlt', hrest⟩
      have hin := tiles_mem htail hq
      omega

theorem tiles_cuts (p : Partition) (cut : Nat → Int) (n : Nat)
    (hcut : ∀ i < n, cut i < cut (i + 1)) :
    Tiles (cut 0) ((List.range n).map fun i => p.sub (cut i) (cut (i + 1))) (cut n) := by
  induction n with
  | zero => exact rfl
  | succ n ih =>
      rw [List.range_succ, List.map_append]
      apply tiles_append (ih fun i hi => hcut i (by omega))
      exact ⟨rfl, hcut n (by omega), rfl⟩

/-! ### The cuts -/

namespace Partition

/-- How many pieces a range of two entries or more is split into. -/
def pieces (p : Partition) (n : Int) : Nat := (max 2 (min n p.nEntries)).toNat

def cut (p : Partition) (n : Int) (i : Nat) : Int :=
  if i = p.pieces n then p.entryStop else p.entryStart + i * (p.nEntries / p.pieces n)

theorem pieces_le {p : Partition} {n : Int} (hp : 1 < p.nEntries) :
    2 ≤ p.pieces n ∧ (p.pieces n : Int) ≤ p.nEntries := by
  unfold pieces
  omega

theorem cut_lt {p : Partition} {n : Int} (hp : 1 < p.nEntries) {i : Nat} (hi : i < p.pieces n) :
    p.cut n i < p.cut n (i + 1) := by
  obtain ⟨htwo, hle⟩ := pieces_le (n := n) hp
  have hpos : (0 : Int) < p.pieces n := by omega
  have hsize : 1 ≤ p.nEntries / p.pieces n := (Int.le_ediv_iff_mul_le hpos).mpr (by omega)
  have hmul : (p.pieces n : Int) * (p.nEntries / p.pieces n) ≤ p.nEntries :=
    Int.mul_ediv_self_le (ne_of_gt hpos)
  have hentries : p.nEntries = p.entryStop - p.entryStart := by
    unfold nEntries at hp ⊢
    omega
  unfold cut
  rw [if_neg (ne_of_lt hi)]
  by_cases hlast : i + 1 = p.pieces n
  · rw [if_pos hlast]
    have hstep : (i : Int) * (p.nEntries / p.pieces n) + p.nEntries / p.pieces n =
        p.pieces n * (p.nEntries / p.pieces n) := by
      have hcast : (p.pieces n : Int) = i + 1 := by omega
      calc
        (i : Int) * (p.nEntries / p.pieces n) + p.nEntries / p.pieces n =
            (i + 1) * (p.nEntries / p.pieces n) := (add_one_mul _ _).symm
        _ = p.pieces n * (p.nEntries / p.pieces n) := by rw [← hcast]
    omega
  · rw [if_neg hlast]
    push_cast
    rw [add_mul]
    omega

theorem split_eq {p : Partition} {n : Int} (hp : 1 < p.nEntries) :
    p.split n =
      (List.range (p.pieces n)).map fun i => p.sub (p.cut n i) (p.cut n (i + 1)) := by
  unfold split
  rw [if_neg (not_le.mpr hp)]
  rw [← List.filterMap_eq_map]
  apply List.filterMap_congr
  intro i hi
  have hlt : i < p.pieces n := List.mem_range.mp hi
  have hbound : ∀ j ≤ p.pieces n,
      ((List.range (p.pieces n)).map (fun j : Nat =>
        p.entryStart + j * (p.nEntries / p.pieces n)) ++ [p.entryStop]).getD j 0 = p.cut n j := by
    intro j hj
    rw [List.getD_eq_getElem?_getD]
    unfold cut
    by_cases hend : j = p.pieces n
    · rw [if_pos hend, List.getElem?_append_right (by simp [hend])]
      simp [hend]
    · have hbelow : j < p.pieces n := by omega
      rw [if_neg hend, List.getElem?_append_left (by simpa using hbelow)]
      simp [hbelow]
  have hlo := hbound i (le_of_lt hlt)
  have hhi := hbound (i + 1) hlt
  have hcut := cut_lt (n := n) hp hlt
  unfold pieces at hlo hhi
  simp only [hlo, hhi]
  exact if_pos hcut

theorem split_tiles {p : Partition} {n : Int} (hp : 1 < p.nEntries) :
    Tiles p.entryStart (p.split n) p.entryStop := by
  obtain ⟨htwo, -⟩ := pieces_le (n := n) hp
  have hfirst : p.cut n 0 = p.entryStart := by
    unfold cut
    rw [if_neg (by omega)]
    omega
  have hlast : p.cut n (p.pieces n) = p.entryStop := if_pos rfl
  rw [split_eq hp]
  have htiles := tiles_cuts p (p.cut n) (p.pieces n) fun i hi => cut_lt hp hi
  rwa [hfirst, hlast] at htiles

theorem split_sub {p q : Partition} {n : Int} (hp : 1 < p.nEntries) (hq : q ∈ p.split n) :
    q = p.sub q.entryStart q.entryStop := by
  rw [split_eq hp] at hq
  obtain ⟨i, -, rfl⟩ := List.mem_map.mp hq
  exact rfl

theorem split_length {p : Partition} {n : Int} :
    (p.split n).length ≤ 1 ↔ p.nEntries ≤ 1 := by
  by_cases hp : 1 < p.nEntries
  · obtain ⟨htwo, -⟩ := pieces_le (n := n) hp
    rw [split_eq hp, List.length_map, List.length_range]
    omega
  · unfold split
    rw [if_pos (not_lt.mp hp)]
    exact ⟨fun _ => not_lt.mp hp, fun _ => le_refl 1⟩

/-- The pieces get smaller, whatever the number asked for. -/
theorem split_nEntries_lt {p q : Partition} {n : Int} (hlen : 1 < (p.split n).length)
    (hq : q ∈ p.split n) : q.nEntries.toNat < p.nEntries.toNat := by
  have hp : 1 < p.nEntries := not_le.mp fun h => absurd (split_length.mpr h) (not_le.mpr hlen)
  have hlt := tiles_lt (split_tiles hp) hlen hq
  have hin := tiles_mem (split_tiles hp) hq
  unfold nEntries at hp ⊢
  omega

end Partition

/-! ### The recovery -/

/-- Split into `splits` pieces, down to `minSize` entries. -/
structure RetrySmallerChunk where
  splits : Int
  minSize : Int

/-- What a recovery did: the ranges it attempted, in order, and what came of it. -/
structure Recovery (V : Type) where
  attempted : List Partition
  outcome : Except Raised V

/-- The loop over the pieces: it ends at the first that raises. -/
def gather : List (Recovery V) → Recovery (List V)
  | [] => ⟨[], .ok []⟩
  | ⟨attempted, .error e⟩ :: _ => ⟨attempted, .error e⟩
  | ⟨attempted, .ok v⟩ :: rest =>
      ⟨attempted ++ (gather rest).attempted, (gather rest).outcome.map (v :: ·)⟩

/-- `functools.reduce` without a start. -/
def reducePartials (combine : V → V → V) : List V → Except Raised V
  | [] =>
      .error (.exception ⟨"TypeError", "reduce() of empty iterable with no initial value", none,
        none⟩)
  | v :: rest => .ok (rest.foldl combine v)

namespace RetrySmallerChunk

def processSplit (r : RetrySmallerChunk) (process : Partition → Except Raised V)
    (combine : V → V → V) (p : Partition) (error : Raised) : Recovery V :=
  if _h : (p.split r.splits).length ≤ 1 ∨ p.nEntries ≤ r.minSize then ⟨[], .error error⟩
  else
    let run := gather <| (p.split r.splits).attach.map fun sub =>
      match process sub.1 with
      | .ok v => ⟨[sub.1], .ok v⟩
      | .error e =>
          if e.isException then
            let below := r.processSplit process combine sub.1 e
            ⟨sub.1 :: below.attempted, below.outcome⟩
          else ⟨[sub.1], .error e⟩
    ⟨run.attempted, run.outcome.bind (reducePartials combine)⟩
termination_by p.nEntries.toNat
decreasing_by exact Partition.split_nEntries_lt (not_le.mp fun h => _h (.inl h)) sub.2

def recover (r : RetrySmallerChunk) (p : Partition) (error : Raised)
    (process : Partition → Except Raised V) (combine : V → V → V) : Recovery V :=
  r.processSplit process combine p error

/-- One piece: processed, and split again where it raises an `Exception`. -/
def attempt (r : RetrySmallerChunk) (process : Partition → Except Raised V)
    (combine : V → V → V) (sub : Partition) : Recovery V :=
  match process sub with
  | .ok v => ⟨[sub], .ok v⟩
  | .error e =>
      if e.isException then
        let below := r.processSplit process combine sub e
        ⟨sub :: below.attempted, below.outcome⟩
      else ⟨[sub], .error e⟩

/-- A range that is not split further. -/
def Unsplittable (r : RetrySmallerChunk) (p : Partition) : Prop :=
  p.nEntries ≤ 1 ∨ p.nEntries ≤ r.minSize

variable {r : RetrySmallerChunk} {process : Partition → Except Raised V} {combine : V → V → V}
  {p : Partition} {error : Raised}

theorem attempt_ok {v : V} (h : process p = .ok v) :
    r.attempt process combine p = ⟨[p], .ok v⟩ := by
  unfold attempt
  rw [h]

theorem attempt_exception {e : Raised} (h : process p = .error e) (he : e.isException = true) :
    r.attempt process combine p =
      ⟨p :: (r.processSplit process combine p e).attempted,
        (r.processSplit process combine p e).outcome⟩ := by
  unfold attempt
  simp only [h, if_pos he]

theorem attempt_interrupt {e : Raised} (h : process p = .error e) (he : ¬e.isException = true) :
    r.attempt process combine p = ⟨[p], .error e⟩ := by
  unfold attempt
  simp only [h, if_neg he]

theorem processSplit_unsplittable (h : r.Unsplittable p) :
    r.processSplit process combine p error = ⟨[], .error error⟩ := by
  unfold processSplit
  exact dif_pos (h.imp Partition.split_length.mpr id)

theorem processSplit_splittable (h : ¬r.Unsplittable p) :
    r.processSplit process combine p error =
      ⟨(gather ((p.split r.splits).map (r.attempt process combine))).attempted,
        (gather ((p.split r.splits).map (r.attempt process combine))).outcome.bind
          (reducePartials combine)⟩ := by
  have hsplit : ¬((p.split r.splits).length ≤ 1 ∨ p.nEntries ≤ r.minSize) :=
    fun hor => h (hor.imp Partition.split_length.mp id)
  have hmap : (p.split r.splits).attach.map (fun sub => r.attempt process combine sub.1) =
      (p.split r.splits).map (r.attempt process combine) := List.attach_map_val
  rw [processSplit, dif_neg hsplit, ← hmap]
  rfl

end RetrySmallerChunk

/-! ### The ranges a recovery attempted -/

/-- The ranges `process` returned on. -/
def returned (process : Partition → Except Raised V) (ranges : List Partition) : List Partition :=
  ranges.filter fun q => (process q).isOk

/-- What it returned on them, in order. -/
def partials (process : Partition → Except Raised V) (ranges : List Partition) : List V :=
  ranges.filterMap fun q => (process q).toOption

section Combine

variable {combine : V → V → V} (hassoc : ∀ a b c, combine (combine a b) c = combine a (combine b c))

include hassoc in
theorem foldl_combine (v w : V) (rest : List V) :
    rest.foldl combine (combine v w) = combine v (rest.foldl combine w) := by
  induction rest generalizing w with
  | nil => rfl
  | cons u rest ih => rw [List.foldl_cons, List.foldl_cons, hassoc, ih]

theorem reducePartials_error {xs : List V} {e : Raised}
    (h : reducePartials combine xs = .error e) : xs = [] := by
  cases xs with
  | nil => rfl
  | cons x rest => cases h

theorem reducePartials_append {xs ys : List V} {v : V} (hxs : reducePartials combine xs = .ok v) :
    reducePartials combine (xs ++ ys) = reducePartials combine (v :: ys) := by
  cases xs with
  | nil => cases hxs
  | cons x rest =>
      obtain rfl := Except.ok.inj hxs
      simp only [List.cons_append, reducePartials, List.foldl_append]

include hassoc in
theorem reducePartials_cons {xs ys : List V} (v : V)
    (h : reducePartials combine xs = reducePartials combine ys) :
    reducePartials combine (v :: xs) = reducePartials combine (v :: ys) := by
  cases xs with
  | nil =>
      cases ys with
      | nil => rfl
      | cons y ys => cases h
  | cons x xs =>
      cases ys with
      | nil => cases h
      | cons y ys =>
          have heq : xs.foldl combine x = ys.foldl combine y := Except.ok.inj h
          simp only [reducePartials, List.foldl_cons]
          rw [foldl_combine hassoc, foldl_combine hassoc, heq]

end Combine

/-- A range whose failure ends the recovery, with its own error. -/
def Ends (r : RetrySmallerChunk) (process : Partition → Except Raised V) (q : Partition)
    (e : Raised) : Prop :=
  process q = .error e ∧ (r.Unsplittable q ∨ e.isException = false)

/-- What the attempts on the ranges of `p` from `lo` to `hi` come to: `partials` is what they
gave. -/
structure Accounts {W : Type} (r : RetrySmallerChunk) (process : Partition → Except Raised V)
    (p : Partition) (lo hi : Int) (run : Recovery W) (Gives : W → Prop) : Prop where
  inside : ∀ q ∈ run.attempted, q = p.sub q.entryStart q.entryStop ∧ lo ≤ q.entryStart ∧
    q.entryStart < q.entryStop ∧ q.entryStop ≤ hi
  returns : ∀ w, run.outcome = .ok w → Tiles lo (returned process run.attempted) hi ∧
    (∀ q ∈ run.attempted, ∀ e, ¬Ends r process q e) ∧ Gives w
  raises : ∀ e, run.outcome = .error e → ∃ q, run.attempted.getLast? = some q ∧ Ends r process q e

section Accounts

variable {r : RetrySmallerChunk} {process : Partition → Except Raised V} {combine : V → V → V}
  {p : Partition}

theorem returned_append (xs ys : List Partition) :
    returned process (xs ++ ys) = returned process xs ++ returned process ys :=
  List.filter_append ..

theorem partials_append (xs ys : List Partition) :
    partials process (xs ++ ys) = partials process xs ++ partials process ys :=
  List.filterMap_append

theorem returned_cons_ok {q : Partition} (qs : List Partition) {v : V} (h : process q = .ok v) :
    returned process (q :: qs) = q :: returned process qs ∧
      partials process (q :: qs) = v :: partials process qs :=
  ⟨List.filter_cons_of_pos (by rw [h]; rfl), List.filterMap_cons_some (by rw [h]; rfl)⟩

theorem returned_cons_error {q : Partition} (qs : List Partition) {e : Raised}
    (h : process q = .error e) :
    returned process (q :: qs) = returned process qs ∧
      partials process (q :: qs) = partials process qs :=
  ⟨List.filter_cons_of_neg (by rw [h]; exact Bool.false_ne_true),
    List.filterMap_cons_none (by rw [h]; rfl)⟩

theorem returned_eq_nil {ranges : List Partition} (h : partials process ranges = []) :
    returned process ranges = [] := by
  apply List.filter_eq_nil_iff.mpr
  intro q hq hok
  have hnone := List.filterMap_eq_nil_iff.mp h q hq
  cases hprocess : process q with
  | ok v =>
      rw [hprocess] at hnone
      cases hnone
  | error e =>
      rw [hprocess] at hok
      cases hok

/-- One piece and then the others. -/
theorem Accounts.cons {lo mid hi : Int} (hassoc : ∀ a b c, combine (combine a b) c =
    combine a (combine b c)) {run : Recovery V} {runs : List (Recovery V)} (hmid : lo < mid)
    (hle : mid ≤ hi)
    (hrun : Accounts r process p lo mid run fun v =>
      reducePartials combine (partials process run.attempted) = .ok v)
    (hruns : Accounts r process p mid hi (gather runs) fun vs =>
      reducePartials combine (partials process (gather runs).attempted) =
        reducePartials combine vs) :
    Accounts r process p lo hi (gather (run :: runs)) fun vs =>
      reducePartials combine (partials process (gather (run :: runs)).attempted) =
        reducePartials combine vs := by
  obtain ⟨attempted, outcome⟩ := run
  cases outcome with
  | error e =>
      constructor
      · intro q hq
        have hin := hrun.inside q hq
        exact ⟨hin.1, hin.2.1, hin.2.2.1, le_trans hin.2.2.2 hle⟩
      · intro vs hvs
        cases hvs
      · intro e' he'
        obtain rfl := Except.error.inj he'
        exact hrun.raises e rfl
  | ok v =>
      obtain ⟨htiles, hends, hgives⟩ := hrun.returns v rfl
      constructor
      · intro q hq
        cases List.mem_append.mp hq with
        | inl hq =>
            have hin := hrun.inside q hq
            exact ⟨hin.1, hin.2.1, hin.2.2.1, le_trans hin.2.2.2 hle⟩
        | inr hq =>
            have hin := hruns.inside q hq
            exact ⟨hin.1, le_trans (le_of_lt hmid) hin.2.1, hin.2.2⟩
      · intro vs hvs
        cases hrest : (gather runs).outcome with
        | error e =>
            simp [gather, hrest, Except.map] at hvs
        | ok ws =>
            obtain ⟨htiles', hends', hgives'⟩ := hruns.returns ws hrest
            have hcons : v :: ws = vs := by simpa [gather, hrest, Except.map] using hvs
            refine ⟨?_, ?_, ?_⟩
            · change Tiles lo (returned process (attempted ++ (gather runs).attempted)) hi
              rw [returned_append]
              exact tiles_append htiles htiles'
            · intro q hq
              exact (List.mem_append.mp hq).elim (hends q) (hends' q)
            · change reducePartials combine
                (partials process (attempted ++ (gather runs).attempted)) = _
              rw [partials_append, reducePartials_append hgives, ← hcons]
              exact reducePartials_cons hassoc v hgives'
      · intro e he
        have hrest : (gather runs).outcome = .error e := by
          cases hrest : (gather runs).outcome with
          | error e' => simpa [gather, hrest, Except.map] using he
          | ok ws => simp [gather, hrest, Except.map] at he
        obtain ⟨q, hlast, hq⟩ := hruns.raises e hrest
        refine ⟨q, ?_, hq⟩
        change (attempted ++ (gather runs).attempted).getLast? = some q
        rw [List.getLast?_append, hlast]
        rfl

theorem accounts_gather (hassoc : ∀ a b c, combine (combine a b) c = combine a (combine b c))
    {pieces : List Partition} {lo hi : Int} (htiles : Tiles lo pieces hi)
    (hpiece : ∀ sub ∈ pieces, Accounts r process p sub.entryStart sub.entryStop
      (r.attempt process combine sub) fun v =>
        reducePartials combine (partials process (r.attempt process combine sub).attempted) =
          .ok v) :
    Accounts r process p lo hi (gather (pieces.map (r.attempt process combine))) fun vs =>
      reducePartials combine
        (partials process (gather (pieces.map (r.attempt process combine))).attempted) =
          reducePartials combine vs := by
  induction pieces generalizing lo with
  | nil =>
      constructor
      · intro q hq
        cases hq
      · intro vs hvs
        obtain rfl := Except.ok.inj hvs
        refine ⟨htiles, ?_, rfl⟩
        intro q hq
        cases hq
      · intro e he
        cases he
  | cons sub rest ih =>
      obtain ⟨hstart, hlt, hrest⟩ := htiles
      have hsub := hpiece sub List.mem_cons_self
      rw [hstart] at hsub
      exact Accounts.cons hassoc hlt (tiles_le hrest) hsub
        (ih hrest fun q hq => hpiece q (List.mem_cons_of_mem _ hq))

/-- Splitting a range whose pieces are accounted for. -/
theorem accounts_processSplit
    (hassoc : ∀ a b c, combine (combine a b) c = combine a (combine b c)) {q : Partition}
    (hq : ¬r.Unsplittable q) (error : Raised)
    (hpiece : ∀ sub ∈ q.split r.splits, Accounts r process p sub.entryStart sub.entryStop
      (r.attempt process combine sub) fun v =>
        reducePartials combine (partials process (r.attempt process combine sub).attempted) =
          .ok v) :
    Accounts r process p q.entryStart q.entryStop (r.processSplit process combine q error) fun v =>
      reducePartials combine
        (partials process (r.processSplit process combine q error).attempted) = .ok v := by
  have hentries : 1 < q.nEntries := not_le.mp fun h => hq (.inl h)
  have hrun := accounts_gather hassoc (Partition.split_tiles (n := r.splits) hentries) hpiece
  rw [RetrySmallerChunk.processSplit_splittable hq]
  generalize gather ((q.split r.splits).map (r.attempt process combine)) = run at hrun
  obtain ⟨attempted, outcome⟩ := run
  refine ⟨hrun.inside, ?_, ?_⟩
  · intro v hv
    cases outcome with
    | error e => cases hv
    | ok vs =>
        obtain ⟨htiles, hends, hgives⟩ := hrun.returns vs rfl
        exact ⟨htiles, hends, hgives.trans hv⟩
  · intro e he
    cases outcome with
    | error e' =>
        obtain rfl := Except.error.inj he
        exact hrun.raises e' rfl
    | ok vs =>
        -- the pieces tile a range that is not empty, so there is something to reduce
        obtain ⟨htiles, hends, hgives⟩ := hrun.returns vs rfl
        have herror : reducePartials combine (partials process attempted) = .error e :=
          hgives.trans he
        rw [returned_eq_nil (reducePartials_error herror)] at htiles
        have hempty : q.entryStart = q.entryStop := htiles
        unfold Partition.nEntries at hentries
        omega

/-- A piece `process` returns on. -/
theorem accounts_ok {sub : Partition} (hsub : sub = p.sub sub.entryStart sub.entryStop)
    (hlt : sub.entryStart < sub.entryStop) {v : V} (hprocess : process sub = .ok v) :
    Accounts r process p sub.entryStart sub.entryStop ⟨[sub], .ok v⟩ fun w =>
      reducePartials combine (partials process [sub]) = .ok w := by
  refine ⟨?_, ?_, ?_⟩
  · intro q hq
    rw [List.mem_singleton.mp hq]
    exact ⟨hsub, le_refl _, hlt, le_refl _⟩
  · intro w hw
    obtain ⟨hreturned, hpartials⟩ := returned_cons_ok [] hprocess
    refine ⟨?_, ?_, ?_⟩
    · rw [hreturned]
      exact ⟨rfl, hlt, rfl⟩
    · intro q hq e hends
      rw [List.mem_singleton.mp hq, Ends, hprocess] at hends
      cases hends.1
    · rw [hpartials]
      exact hw
  · intro e he
    cases he

/-- A piece whose failure ends the recovery. -/
theorem accounts_ends {sub : Partition} (hsub : sub = p.sub sub.entryStart sub.entryStop)
    (hlt : sub.entryStart < sub.entryStop) {e : Raised} (hends : Ends r process sub e)
    (Gives : V → Prop) :
    Accounts r process p sub.entryStart sub.entryStop ⟨[sub], .error e⟩ Gives := by
  refine ⟨?_, ?_, ?_⟩
  · intro q hq
    rw [List.mem_singleton.mp hq]
    exact ⟨hsub, le_refl _, hlt, le_refl _⟩
  · intro w hw
    cases hw
  · intro e' he'
    obtain rfl := Except.error.inj he'
    exact ⟨sub, rfl, hends⟩

/-- A piece that fails and is split again. -/
theorem accounts_again {sub : Partition} (hsub : sub = p.sub sub.entryStart sub.entryStop)
    (hlt : sub.entryStart < sub.entryStop) {e : Raised} (hprocess : process sub = .error e)
    (hends : ¬Ends r process sub e) {below : Recovery V}
    (hbelow : Accounts r process p sub.entryStart sub.entryStop below fun v =>
      reducePartials combine (partials process below.attempted) = .ok v) :
    Accounts r process p sub.entryStart sub.entryStop
      ⟨sub :: below.attempted, below.outcome⟩ fun v =>
        reducePartials combine (partials process (sub :: below.attempted)) = .ok v := by
  obtain ⟨hreturned, hpartials⟩ := returned_cons_error below.attempted hprocess
  refine ⟨?_, ?_, ?_⟩
  · intro q hq
    cases hq with
    | head => exact ⟨hsub, le_refl _, hlt, le_refl _⟩
    | tail _ hq => exact hbelow.inside q hq
  · intro w hw
    obtain ⟨htiles, hothers, hgives⟩ := hbelow.returns w hw
    refine ⟨?_, ?_, ?_⟩
    · rwa [hreturned]
    · intro q hq e' he'
      cases hq with
      | head =>
          obtain rfl : e = e' := Except.error.inj (hprocess.symm.trans he'.1)
          exact hends he'
      | tail _ hq => exact hothers q hq e' he'
    · rwa [hpartials]
  · intro e' he'
    obtain ⟨q, hlast, hq⟩ := hbelow.raises e' he'
    refine ⟨q, ?_, hq⟩
    rw [List.getLast?_cons, hlast]
    rfl

theorem accounts_attempt
    (hassoc : ∀ a b c, combine (combine a b) c = combine a (combine b c)) {sub : Partition}
    (hsub : sub = p.sub sub.entryStart sub.entryStop) (hlt : sub.entryStart < sub.entryStop) :
    Accounts r process p sub.entryStart sub.entryStop (r.attempt process combine sub) fun v =>
      reducePartials combine (partials process (r.attempt process combine sub).attempted) =
        .ok v := by
  induction hsize : sub.nEntries.toNat using Nat.strong_induction_on generalizing sub with
  | _ size ih =>
  cases hprocess : process sub with
  | ok v =>
      rw [RetrySmallerChunk.attempt_ok hprocess]
      exact accounts_ok hsub hlt hprocess
  | error e =>
      by_cases hexception : e.isException = true
      · rw [RetrySmallerChunk.attempt_exception hprocess hexception]
        by_cases hsplit : r.Unsplittable sub
        · rw [RetrySmallerChunk.processSplit_unsplittable hsplit]
          exact accounts_ends hsub hlt ⟨hprocess, .inl hsplit⟩ _
        · have hentries : 1 < sub.nEntries := not_le.mp fun h => hsplit (.inl h)
          have hnot : ¬Ends r process sub e := fun h =>
            h.2.elim hsplit (by rw [hexception]; exact Bool.noConfusion)
          apply accounts_again hsub hlt hprocess hnot
          apply accounts_processSplit hassoc hsplit
          intro q hq
          have hlen : 1 < (sub.split r.splits).length :=
            not_le.mp fun h => absurd (Partition.split_length.mp h) (not_le.mpr hentries)
          have hsmaller := Partition.split_nEntries_lt hlen hq
          have hplain : q = p.sub q.entryStart q.entryStop := by
            have h := Partition.split_sub hentries hq
            rw [hsub] at h
            exact h
          exact ih _ (hsize ▸ hsmaller) hplain
            (tiles_mem (Partition.split_tiles hentries) hq).2.1 rfl
      · rw [RetrySmallerChunk.attempt_interrupt hprocess hexception]
        exact accounts_ends hsub hlt ⟨hprocess, .inr (Bool.eq_false_iff.mpr hexception)⟩ _

theorem accounts_recover
    (hassoc : ∀ a b c, combine (combine a b) c = combine a (combine b c))
    (hp : ¬r.Unsplittable p) (error : Raised) :
    Accounts r process p p.entryStart p.entryStop (r.recover p error process combine) fun v =>
      reducePartials combine (partials process (r.recover p error process combine).attempted) =
        .ok v := by
  have hentries : 1 < p.nEntries := not_le.mp fun h => hp (.inl h)
  apply accounts_processSplit hassoc hp
  intro sub hsub
  exact accounts_attempt hassoc (Partition.split_sub hentries hsub)
    (tiles_mem (Partition.split_tiles hentries) hsub).2.1

end Accounts

/-- **A recovery covers its chunk exactly once.** What it returns is the combine over ranges that
tile the chunk; it raises exactly when a range that ends it fails, with the error of the range it
attempted last, and no range it attempts leaves the chunk. -/
theorem recover_covers {combine : V → V → V}
    (hassoc : ∀ a b c, combine (combine a b) c = combine a (combine b c))
    (r : RetrySmallerChunk) (p : Partition) (error : Raised)
    (process : Partition → Except Raised V) :
    (∀ v, (r.recover p error process combine).outcome = .ok v →
      Tiles p.entryStart (returned process (r.recover p error process combine).attempted)
        p.entryStop ∧
      reducePartials combine (partials process (r.recover p error process combine).attempted) =
        .ok v) ∧
    ((∃ e, (r.recover p error process combine).outcome = .error e) ↔
      r.Unsplittable p ∨
        ∃ q ∈ (r.recover p error process combine).attempted, ∃ e, Ends r process q e) ∧
    (∀ e, (r.recover p error process combine).outcome = .error e →
      (r.Unsplittable p ∧ e = error) ∨
        ∃ q, (r.recover p error process combine).attempted.getLast? = some q ∧
          Ends r process q e) ∧
    ∀ q ∈ (r.recover p error process combine).attempted,
      q = p.sub q.entryStart q.entryStop ∧ p.entryStart ≤ q.entryStart ∧
        q.entryStart < q.entryStop ∧ q.entryStop ≤ p.entryStop := by
  by_cases hp : r.Unsplittable p
  · have hrun : r.recover p error process combine = ⟨[], .error error⟩ :=
      RetrySmallerChunk.processSplit_unsplittable hp
    rw [hrun]
    refine ⟨?_, ?_, ?_, ?_⟩
    · intro v hv
      cases hv
    · exact ⟨fun _ => .inl hp, fun _ => ⟨error, rfl⟩⟩
    · intro e he
      exact .inl ⟨hp, (Except.error.inj he).symm⟩
    · intro q hq
      cases hq
  · have hrun : Accounts r process p p.entryStart p.entryStop (r.recover p error process combine)
        fun v => reducePartials combine (partials process (r.recover p error process
          combine).attempted) = .ok v := accounts_recover hassoc hp error
    generalize r.recover p error process combine = run at hrun ⊢
    refine ⟨?_, ?_, ?_, hrun.inside⟩
    · intro v hv
      obtain ⟨htiles, -, hgives⟩ := hrun.returns v hv
      exact ⟨htiles, hgives⟩
    · constructor
      · intro ⟨e, he⟩
        obtain ⟨q, hlast, hq⟩ := hrun.raises e he
        exact .inr ⟨q, List.mem_of_getLast? hlast, e, hq⟩
      · intro h
        cases houtcome : run.outcome with
        | error e => exact ⟨e, rfl⟩
        | ok v =>
            obtain ⟨-, hnone, -⟩ := hrun.returns v houtcome
            obtain ⟨q, hq, e, hends⟩ := h.resolve_left hp
            exact absurd hends (hnone q hq e)
    · intro e he
      exact .inr (hrun.raises e he)

section Four

def fourEntries : Partition := ⟨"f.root", "Events", 0, 4, none, none, none⟩

/-- Sums one entry at a time; a longer range raises `e`. -/
def oneByOne (e : Raised) (q : Partition) : Except Raised Int :=
  if q.nEntries ≤ 1 then .ok q.entryStart else .error e

theorem recover_covers_four :
    (∃ e, ((⟨2, 1⟩ : RetrySmallerChunk).recover fourEntries (valueError "too big")
        (oneByOne (valueError "too big")) (· + ·)).outcome = .error e) ↔
      (⟨2, 1⟩ : RetrySmallerChunk).Unsplittable fourEntries ∨
        ∃ q ∈ ((⟨2, 1⟩ : RetrySmallerChunk).recover fourEntries (valueError "too big")
          (oneByOne (valueError "too big")) (· + ·)).attempted,
          ∃ e, Ends ⟨2, 1⟩ (oneByOne (valueError "too big")) q e :=
  (recover_covers Int.add_assoc ⟨2, 1⟩ fourEntries (valueError "too big")
    (oneByOne (valueError "too big"))).2.1

/-- Every range of one entry returns, and the recovery still raises: the interrupt of a range that
could be split goes through. -/
theorem interrupt_not_split :
    ((⟨2, 1⟩ : RetrySmallerChunk).recover fourEntries (valueError "too big")
        (oneByOne .interrupt) (· + ·)).outcome = .error .interrupt ∧
      ¬(⟨2, 1⟩ : RetrySmallerChunk).Unsplittable fourEntries ∧
      ∀ q : Partition, (⟨2, 1⟩ : RetrySmallerChunk).Unsplittable q →
        ∃ v, oneByOne .interrupt q = .ok v := by
  have hfour : ¬(⟨2, 1⟩ : RetrySmallerChunk).Unsplittable fourEntries := by
    unfold RetrySmallerChunk.Unsplittable
    decide
  refine ⟨?_, hfour, ?_⟩
  · have hfirst : (⟨2, 1⟩ : RetrySmallerChunk).attempt (oneByOne .interrupt) (· + ·)
        (fourEntries.sub 0 2) = ⟨[fourEntries.sub 0 2], .error .interrupt⟩ := rfl
    have hsplit : fourEntries.split 2 = [fourEntries.sub 0 2, fourEntries.sub 2 4] := by
      decide
    unfold RetrySmallerChunk.recover
    rw [RetrySmallerChunk.processSplit_splittable hfour, hsplit, List.map_cons, hfirst]
    rfl
  · intro q hq
    exact ⟨q.entryStart, if_pos (hq.elim id id)⟩

end Four

end Graphed
