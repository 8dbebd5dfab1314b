import Graphed.Execution.Plan
import Graphed.Execution.Requests
import Graphed.Library.Attempts
import Graphed.Library.Equijoin
import Graphed.Library.SortSearch

/-!
# Matching rows by key

Both backends join two blocks by pairs of row positions, a missing side at -1. The numpy backend
sorts the keys of one side and searches them for those of the other; the awkward backend collects
the positions of each key. The pairs are those of the relational join, in two orders.
-/

namespace Graphed

open Equijoin SortSearch

/-- How a join treats the rows that match none. -/
inductive How where
  | inner
  | left
  | right
  | outer
  | positional
deriving DecidableEq

/-- `how in ("left", "outer")`. -/
def How.keepsBuild : How → Bool
  | .left | .outer => true
  | _ => false

/-- `how in ("right", "outer")`. -/
def How.keepsProbe : How → Bool
  | .right | .outer => true
  | _ => false

/-! ### The numpy backend -/

namespace Numpy

/-- An array at one position, a negative one from the end. -/
def item {α : Type} (xs : List α) (i : Int) : Except Raised α :=
  let k := if i < 0 then i + xs.length else i
  match if k < 0 then none else xs[k.toNat]? with
  | some x => .ok x
  | none => .error (.exception ⟨"IndexError", "index " ++ toString i ++
      " is out of bounds for axis 0 with size " ++ toString xs.length, none, none⟩)

/-- `xs[idx]`. -/
def fancy {α : Type} (xs : List α) (idx : List Int) : Except Raised (List α) := idx.mapM (item xs)

/-- `np.repeat`. -/
def repeated {α : Type} (xs : List α) (counts : List Int) : Except Raised (List α) :=
  if counts.any fun c => decide (c < 0) then
    .error (valueError "repeats may not contain negative values.")
  else .ok (repeats xs counts)

/-- `np.arange`. -/
def arange (n : Int) : List Int := (List.range n.toNat).map Int.ofNat

/-- `np.flatnonzero`. -/
def flatnonzero (xs : List Bool) : List Int :=
  (xs.zipIdx.filter Prod.fst).map fun x => (x.2 : Int)

section

variable (S : SortSearch) {β γ κ : Type} [LinearOrder β] [LinearOrder γ] [LinearOrder κ]

/-- Pair the rows of two blocks by their keys, which a search casts to a common type. -/
def matchIndices (castBuild : β → κ) (castProbe : γ → κ) (bkey : List β) (pkey : List γ)
    (how : How) : Except Raised (List Int × List Int) := do
  let order := (S.argsort bkey).map Int.ofNat
  let skey ← fancy bkey order
  let lo := pkey.map fun k => (S.searchLeft (skey.map castBuild) (castProbe k) : Int)
  let hi := pkey.map fun k => (S.searchRight (skey.map castBuild) (castProbe k) : Int)
  let counts := List.zipWith (· - ·) hi lo
  let total := counts.sum
  let starts ← repeated lo counts
  let groupBase ← repeated (List.zipWith (· - ·) (Gathering.cumsum counts) counts) counts
  let buildIdx ← fancy order
    (List.zipWith (· + ·) starts (List.zipWith (· - ·) (arange total) groupBase))
  let probeIdx ← repeated (arange pkey.length) counts
  let spk := (S.sort pkey).map castProbe
  let ub := if how.keepsBuild then
      flatnonzero (bkey.map fun k =>
        S.searchRight spk (castBuild k) == S.searchLeft spk (castBuild k))
    else []
  let up := if how.keepsProbe then flatnonzero (counts.map (· == 0)) else []
  .ok (buildIdx ++ ub ++ List.replicate up.length (-1),
    probeIdx ++ List.replicate ub.length (-1) ++ up)

end

end Numpy

/-! ### The awkward backend -/

namespace Awkward

section

variable {κ : Type} [DecidableEq κ]

/-- `pmap[kv].append(j)`. -/
def appendAt (pmap : List (κ × List Int)) (kv : κ) (j : Int) : List (κ × List Int) :=
  match pmap with
  | [] => [(kv, [j])]
  | entry :: pmap =>
      if entry.1 = kv then (kv, entry.2 ++ [j]) :: pmap else entry :: appendAt pmap kv j

/-- What a match has written so far, and the probe rows it has paired. -/
structure Matching where
  bOut : List Int
  pOut : List Int
  matched : List Int

def Matching.pair (s : Matching) (i j : Int) : Matching :=
  ⟨s.bOut ++ [i], s.pOut ++ [j], s.matched ++ [j]⟩

/-- One build row. -/
def matchBuild (pmap : List (κ × List Int)) (how : How) (s : Matching) (row : κ × Nat) :
    Matching :=
  match (pmap.lookup row.1).getD [] with
  | [] => if how.keepsBuild then ⟨s.bOut ++ [(row.2 : Int)], s.pOut ++ [-1], s.matched⟩ else s
  | ms => ms.foldl (fun s j => s.pair row.2 j) s

/-- One probe row, once every build row is through. -/
def matchProbe (s : Matching) (j : Nat) : Matching :=
  if s.matched.contains (j : Int) then s
  else ⟨s.bOut ++ [-1], s.pOut ++ [(j : Int)], s.matched⟩

/-- Pair the rows of two blocks by their keys. -/
def matchIndices (bkeys pkeys : List κ) (how : How) : List Int × List Int :=
  let pmap := pkeys.zipIdx.foldl (fun pmap row => appendAt pmap row.1 row.2) []
  let s := bkeys.zipIdx.foldl (matchBuild pmap how) ⟨[], [], []⟩
  let s := if how.keepsProbe then (List.range pkeys.length).foldl matchProbe s else s
  (s.bOut, s.pOut)

end

end Awkward

/-! ### Pairs of positions -/

/-- A position, or -1 for a missing side. -/
def sentinel {κ : Type} : Option (κ × Nat) → Int
  | some row => row.2
  | none => -1

@[simp] theorem sentinel_some {κ : Type} (row : κ × Nat) : sentinel (some row) = row.2 := rfl

@[simp] theorem sentinel_none {κ : Type} : sentinel (none : Option (κ × Nat)) = -1 := rfl

/-- The aligned positions of some pairs of rows. -/
def aligned {β γ : Type} (pairs : List (Option (β × Nat) × Option (γ × Nat))) :
    List Int × List Int :=
  (pairs.map fun p => sentinel p.1, pairs.map fun p => sentinel p.2)

/-- Rows with one key. -/
def sameKey {κ : Type} [DecidableEq κ] (l r : κ × Nat) : Bool := decide (l.1 = r.1)

section Positions

/-- Rows with their positions, by the positions. -/
theorem zipIdx_eq_map_range {κ : Type} (xs : List κ) (v : κ) :
    xs.zipIdx = (List.range xs.length).map fun i => (xs.getD i v, i) := by
  apply List.ext_getElem (by simp)
  intro i hi hi'
  have hlt : i < xs.length := by simpa using hi
  simp [List.getElem?_eq_getElem hlt]

/-- The positions of a key. -/
theorem filter_positions {κ : Type} [DecidableEq κ] (xs : List κ) (v : κ) :
    (List.range xs.length).filter (fun i => xs.getD i v = v) =
      (xs.zipIdx.filter fun row => row.1 = v).map Prod.snd := by
  rw [zipIdx_eq_map_range xs v, List.filter_map, List.map_map]
  exact (List.map_id _).symm

theorem flatnonzero_map {β : Type} (xs : List β) (p : β → Bool) :
    Numpy.flatnonzero (xs.map p) =
      (xs.zipIdx.filter fun row => p row.1).map fun row => (row.2 : Int) := by
  unfold Numpy.flatnonzero
  rw [List.zipIdx_map, List.filter_map, List.map_map]
  rfl

end Positions

/-! ### The search's pairs -/

namespace Numpy

theorem item_natCast {α : Type} (xs : List α) {i : Nat} {x : α} (h : xs[i]? = some x) :
    item xs i = .ok x := by
  unfold item
  have hneg : ¬((i : Int) < 0) := by omega
  simp only [if_neg hneg, Int.toNat_natCast, h]

/-- An array at positions it has. -/
theorem fancy_positions {α : Type} (xs : List α) {is : List Nat} (h : ∀ i ∈ is, i < xs.length) :
    ∃ ys, fancy xs (is.map Int.ofNat) = .ok ys ∧ ys.map some = is.map (xs[·]?) := by
  induction is with
  | nil => exact ⟨[], rfl, rfl⟩
  | cons i is ih =>
      obtain ⟨ys, hys, hsome⟩ := ih fun j hj => h j (List.mem_cons_of_mem _ hj)
      have hlt := h i List.mem_cons_self
      have hx := List.getElem?_eq_getElem hlt
      refine ⟨xs[i] :: ys, ?_, ?_⟩
      · exact Attempts.mapM_cons_eq_ok_iff.mpr ⟨_, ys, item_natCast xs hx, hys, rfl⟩
      · rw [List.map_cons, List.map_cons, hsome, hx]

theorem fancy_argsort (S : SortSearch) {β : Type} [LinearOrder β] (xs : List β) :
    ∃ skey, fancy xs ((S.argsort xs).map Int.ofNat) = .ok skey ∧
      ∀ {κ : Type} (cast : β → κ) (v : κ),
        skey.map cast = (S.argsort xs).map fun i => (xs.map cast).getD i v := by
  obtain ⟨skey, hskey, hsome⟩ := fancy_positions xs fun i hi =>
    List.mem_range.mp ((S.argsort_perm xs).mem_iff.mp hi)
  refine ⟨skey, hskey, fun cast v => ?_⟩
  calc skey.map cast
    _ = (skey.map some).map fun x => (x.map cast).getD v := by
        rw [List.map_map]
        rfl
    _ = (S.argsort xs).map fun i => (xs.map cast).getD i v := by
        rw [hsome, List.map_map]
        apply List.map_congr_left
        intro i _
        rw [Function.comp_apply, List.getD_eq_getElem?_getD, List.getElem?_map]

section Pairs

variable {β γ κ : Type} [DecidableEq κ]

/-- The rows with a key, with their positions. -/
def rowsAt (ks : List κ) (v : κ) : List (κ × Nat) := ks.zipIdx.filter fun row => row.1 = v

theorem matched_builds (bk : List κ) (cast : γ → κ) (pkey : List γ) :
    ((pkey.map cast).zipIdx.flatMap fun r => (bk.zipIdx.filter (sameKey · r)).map fun l =>
      ((some l, some r) : Option (κ × Nat) × Option (κ × Nat))).map (fun p => sentinel p.1) =
        pkey.flatMap fun k => (rowsAt bk (cast k)).map fun row => (row.2 : Int) := by
  rw [List.map_flatMap, List.zipIdx_map, List.flatMap_map]
  conv_rhs => rw [← List.zipIdx_map_fst 0 pkey, List.flatMap_map]
  apply List.flatMap_congr
  intro r _
  rw [List.map_map]
  rfl

theorem matched_probes (bk : List κ) (cast : γ → κ) (pkey : List γ) :
    ((pkey.map cast).zipIdx.flatMap fun r => (bk.zipIdx.filter (sameKey · r)).map fun l =>
      ((some l, some r) : Option (κ × Nat) × Option (κ × Nat))).map (fun p => sentinel p.2) =
        pkey.zipIdx.flatMap fun q =>
          List.replicate (rowsAt bk (cast q.1)).length (q.2 : Int) := by
  rw [List.map_flatMap, List.zipIdx_map, List.flatMap_map]
  apply List.flatMap_congr
  intro r _
  rw [List.map_map]
  exact List.map_const'

theorem unmatched_builds (cast : β → κ) (bkey : List β) (pk : List κ) :
    (unmatchedLeft sameKey (bkey.map cast).zipIdx pk.zipIdx).map (fun p => sentinel p.1) =
      flatnonzero (bkey.map fun k => !pk.any fun x => decide (cast k = x)) := by
  have hany : ∀ l : κ × Nat, pk.zipIdx.any (sameKey l) = pk.any fun x => decide (l.1 = x) := by
    intro l
    conv_rhs => rw [← List.zipIdx_map_fst 0 pk, List.any_map]
    rfl
  rw [flatnonzero_map, unmatchedLeft, List.zipIdx_map, List.filter_map, List.map_map, List.map_map]
  simp only [Function.comp_def, hany]
  rfl

theorem unmatched_probes (bk : List κ) (cast : γ → κ) (pkey : List γ) :
    (unmatchedRight sameKey bk.zipIdx (pkey.map cast).zipIdx).map (fun p => sentinel p.2) =
      flatnonzero ((pkey.map fun k => ((rowsAt bk (cast k)).length : Int)).map (· == 0)) := by
  have hany : ∀ r : κ × Nat, (!bk.zipIdx.any (sameKey · r)) =
      (((rowsAt bk r.1).length : Int) == 0) := by
    intro r
    rw [Bool.eq_iff_iff, beq_iff_eq, Int.natCast_eq_zero, List.length_eq_zero_iff, rowsAt,
      List.filter_eq_nil_iff, Bool.not_eq_true', List.any_eq_false]
    rfl
  rw [List.map_map, flatnonzero_map, unmatchedRight, List.zipIdx_map, List.filter_map,
    List.map_map, List.map_map]
  simp only [Function.comp_def, hany]
  rfl

end Pairs

theorem unmatched_sentinel {κ : Type} (m : κ × Nat → κ × Nat → Bool) (L R : List (κ × Nat)) :
    (unmatchedLeft m L R).map (fun p => sentinel p.2) =
        List.replicate ((unmatchedLeft m L R).map fun p => sentinel p.1).length (-1) ∧
      (unmatchedRight m L R).map (fun p => sentinel p.1) =
        List.replicate ((unmatchedRight m L R).map fun p => sentinel p.2).length (-1) := by
  unfold unmatchedLeft unmatchedRight
  simp only [List.map_map, List.length_map]
  exact ⟨List.map_const', List.map_const'⟩

section Search

variable (S : SortSearch) {β γ κ : Type} [LinearOrder β] [LinearOrder γ] [LinearOrder κ]
  {castBuild : β → κ} {castProbe : γ → κ} {bkey : List β} {pkey : List γ}

/-- A cast keeps values apart and in order. -/
def Keeps {β κ : Type} [LinearOrder β] [LinearOrder κ] (cast : β → κ) (xs : List β) : Prop :=
  ∀ x ∈ xs, ∀ y ∈ xs, x < y → cast x < cast y

theorem Keeps.le {cast : β → κ} {xs : List β} (h : Keeps cast xs) {x y : β} (hx : x ∈ xs)
    (hy : y ∈ xs) (hle : x ≤ y) : cast x ≤ cast y :=
  hle.eq_or_lt.elim (fun heq => heq ▸ le_refl _) fun hlt => (h x hx y hy hlt).le

theorem Keeps.inj {cast : β → κ} {xs : List β} (h : Keeps cast xs) {x y : β} (hx : x ∈ xs)
    (hy : y ∈ xs) (heq : cast x = cast y) : x = y := by
  rcases lt_trichotomy x y with hlt | rfl | hlt
  · exact absurd heq (h x hx y hy hlt).ne
  · rfl
  · exact absurd heq (h y hy x hx hlt).ne'

/-- The keys in sorted order stay sorted under a cast that keeps them. -/
theorem argsort_sorted (h : Keeps castBuild bkey) (v : κ) :
    ((S.argsort bkey).map fun i => (bkey.map castBuild).getD i v).Pairwise (· ≤ ·) := by
  rw [List.pairwise_map]
  apply (S.argsort_stable bkey).imp_of_mem
  intro i j hi hj hstable
  have hi' := List.mem_range.mp ((S.argsort_perm bkey).mem_iff.mp hi)
  have hj' := List.mem_range.mp ((S.argsort_perm bkey).mem_iff.mp hj)
  have hx := List.getElem?_eq_getElem hi'
  have hy := List.getElem?_eq_getElem hj'
  rw [List.getD_eq_getElem?_getD, List.getD_eq_getElem?_getD, List.getElem?_map,
    List.getElem?_map, hx, hy]
  have hle : bkey[i] ≤ bkey[j] := (hstable _ _ hx hy).elim le_of_lt fun heq => heq.1.le
  exact h.le (List.getElem_mem hi') (List.getElem_mem hj') hle

/-- The run of a key in sorted order is its positions. -/
theorem run_eq_positions (h : Keeps castBuild bkey) (v : κ) :
    (S.argsort bkey).filter (fun i => (bkey.map castBuild).getD i v = v) =
      ((bkey.map castBuild).zipIdx.filter fun row => row.1 = v).map Prod.snd := by
  rw [← filter_positions, List.length_map]
  apply S.argsort_filter
  intro i j x y hi hj hx hy
  have hcast : ∀ {k : Nat} {z : β}, bkey[k]? = some z →
      decide ((bkey.map castBuild).getD k v = v) = true → castBuild z = v := by
    intro k z hz hk
    have hv := of_decide_eq_true hk
    rwa [List.getD_eq_getElem?_getD, List.getElem?_map, hz] at hv
  exact h.inj (List.mem_of_getElem? hx) (List.mem_of_getElem? hy)
    ((hcast hx hi).trans (hcast hy hj).symm)

/-- What a search finds for a key: where its run starts, and how long it is. -/
theorem search_run (h : Keeps castBuild bkey) {skey : List β} (v : κ)
    (hskey : skey.map castBuild = (S.argsort bkey).map fun i => (bkey.map castBuild).getD i v) :
    S.searchRight (skey.map castBuild) v =
        S.searchLeft (skey.map castBuild) v + (rowsAt (bkey.map castBuild) v).length ∧
      S.searchRight (skey.map castBuild) v ≤ (S.argsort bkey).length ∧
      ((S.argsort bkey).drop (S.searchLeft (skey.map castBuild) v)).take
        (rowsAt (bkey.map castBuild) v).length = (rowsAt (bkey.map castBuild) v).map Prod.snd := by
  have hsorted := argsort_sorted S h v
  rw [hskey]
  have hlength := (S.searchRight_spec v hsorted).1
  rw [List.length_map] at hlength
  have hrun := (run_eq_filter _ v _ hsorted).trans (run_eq_positions S h v)
  rw [← S.searchLeft_eq hsorted, ← S.searchRight_eq hsorted] at hrun
  have hle : S.searchLeft ((S.argsort bkey).map fun i => (bkey.map castBuild).getD i v) v ≤
      S.searchRight ((S.argsort bkey).map fun i => (bkey.map castBuild).getD i v) v := by
    rw [S.searchLeft_eq hsorted, S.searchRight_eq hsorted]
    apply List.countP_mono_left
    intro x _ hx
    exact decide_eq_true (le_of_lt (of_decide_eq_true hx))
  have hcount := congrArg List.length hrun
  rw [List.length_take, List.length_drop, List.length_map, Nat.min_eq_left (by omega)] at hcount
  refine ⟨?_, hlength, ?_⟩
  · rw [rowsAt, ← hcount]
    omega
  · rw [rowsAt, ← hcount]
    exact hrun

/-- The positions the runs of some keys cover are those of the keys. -/
theorem fancy_runs {ι α : Type} (xs : List α) (start count : ι → Nat) (is : List ι)
    (hle : ∀ i ∈ is, start i + count i ≤ xs.length) :
    fancy xs (is.flatMap fun i => (List.range (count i)).map fun t : Nat =>
      ((start i + t : Nat) : Int)) =
        .ok (is.flatMap fun i => (xs.drop (start i)).take (count i)) := by
  have hpositions : (is.flatMap fun i => (List.range (count i)).map fun t : Nat =>
      ((start i + t : Nat) : Int)) =
        (is.flatMap fun i => (List.range (count i)).map (start i + ·)).map Int.ofNat := by
    rw [List.map_flatMap]
    apply List.flatMap_congr
    intro i _
    rw [List.map_map]
    rfl
  have hlt : ∀ k ∈ is.flatMap fun i => (List.range (count i)).map (start i + ·),
      k < xs.length := by
    intro k hk
    obtain ⟨i, hi, hki⟩ := List.mem_flatMap.mp hk
    obtain ⟨t, ht, rfl⟩ := List.mem_map.mp hki
    have hcount := List.mem_range.mp ht
    have hlength := hle i hi
    omega
  obtain ⟨ys, hys, hsome⟩ := fancy_positions xs hlt
  have hruns : (is.flatMap fun i => (List.range (count i)).map (start i + ·)).map (xs[·]?) =
      (is.flatMap fun i => (xs.drop (start i)).take (count i)).map some := by
    rw [List.map_flatMap, List.map_flatMap]
    apply List.flatMap_congr
    intro i hi
    rw [List.map_map]
    have hlength := hle i hi
    apply List.ext_getElem
    · simp
      omega
    · intro t ht ht'
      have htc : t < count i := by simpa using ht
      have hin : start i + t < xs.length := by omega
      simp [List.getElem?_eq_getElem hin]
  rw [hpositions, hys]
  congr 1
  exact (Option.some_injective α).list_map (hsome.trans hruns)

/-- No key of the other side is equal where a search finds nothing. -/
theorem search_none (h : Keeps castProbe pkey) (v : κ) :
    (S.searchRight ((S.sort pkey).map castProbe) v ==
        S.searchLeft ((S.sort pkey).map castProbe) v) =
      !(pkey.map castProbe).any fun k => decide (v = k) := by
  have hsorted : ((S.sort pkey).map castProbe).Pairwise (· ≤ ·) := by
    rw [List.pairwise_map]
    apply (S.sort_sorted pkey).imp_of_mem
    intro x y hx hy hle
    exact h.le ((S.sort_perm pkey).mem_iff.mp hx) ((S.sort_perm pkey).mem_iff.mp hy) hle
  have hrun := congrArg List.length (run_eq_filter id v ((S.sort pkey).map castProbe)
    (by rwa [List.map_id]))
  rw [List.map_id, ← S.searchLeft_eq hsorted, ← S.searchRight_eq hsorted, List.length_take,
    List.length_drop] at hrun
  have hlength := (S.searchRight_spec v hsorted).1
  have hle : S.searchLeft ((S.sort pkey).map castProbe) v ≤
      S.searchRight ((S.sort pkey).map castProbe) v := by
    rw [S.searchLeft_eq hsorted, S.searchRight_eq hsorted]
    apply List.countP_mono_left
    intro x _ hx
    exact decide_eq_true (le_of_lt (of_decide_eq_true hx))
  rw [Nat.min_eq_left (by omega)] at hrun
  have hany : ((pkey.map castProbe).any fun k => decide (v = k)) = true ↔
      0 < (((S.sort pkey).map castProbe).filter fun i => decide (id i = v)).length := by
    rw [List.any_eq_true, List.length_pos_iff_exists_mem]
    constructor
    · rintro ⟨k, hk, heq⟩
      refine ⟨k, List.mem_filter.mpr ⟨?_, ?_⟩⟩
      · exact ((S.sort_perm pkey).map castProbe).mem_iff.mpr hk
      · exact decide_eq_true (of_decide_eq_true heq).symm
    · rintro ⟨k, hk⟩
      obtain ⟨hmem, heq⟩ := List.mem_filter.mp hk
      exact ⟨k, ((S.sort_perm pkey).map castProbe).mem_iff.mp hmem,
        decide_eq_true (of_decide_eq_true heq).symm⟩
  rw [Bool.eq_iff_iff, beq_iff_eq, Bool.not_eq_true', Bool.eq_false_iff, ne_eq, hany]
  omega

/-! ### The pairs -/

/-- The relational pairs of two blocks by their cast keys, the probe rows outermost. -/
def searchPairs (castBuild : β → κ) (castProbe : γ → κ) (bkey : List β) (pkey : List γ)
    (how : How) : List (Option (κ × Nat) × Option (κ × Nat)) :=
  rightMajor sameKey how.keepsBuild how.keepsProbe (bkey.map castBuild).zipIdx
    (pkey.map castProbe).zipIdx

/-- **The search join.** The sorted search pairs the rows of equal keys, each probe row's matches in
order, then the unmatched rows that are kept. -/
theorem matchIndices_eq (hb : Keeps castBuild bkey) (hp : Keeps castProbe pkey) (how : How) :
    matchIndices S castBuild castProbe bkey pkey how =
      .ok (aligned (searchPairs castBuild castProbe bkey pkey how)) := by
  obtain ⟨skey, hskey, hcast⟩ := fancy_argsort S bkey
  set lo := fun k : γ => S.searchLeft (skey.map castBuild) (castProbe k) with hlo
  set count := fun k : γ => (rowsAt (bkey.map castBuild) (castProbe k)).length with hcount
  have hrun := fun k : γ => search_run S hb (castProbe k) (hcast castBuild (castProbe k))
  have hcounts : List.zipWith (· - ·)
      (pkey.map fun k => (S.searchRight (skey.map castBuild) (castProbe k) : Int))
      (pkey.map fun k => (S.searchLeft (skey.map castBuild) (castProbe k) : Int)) =
        pkey.map fun k => (count k : Int) := by
    rw [List.zipWith_map_left, List.zipWith_map_right, List.zipWith_self]
    apply List.map_congr_left
    intro k _
    rw [(hrun k).1]
    push_cast
    ring
  have hrepeated : ∀ {α : Type} (xs : List α), repeated xs (pkey.map fun k => (count k : Int)) =
      .ok (repeats xs (pkey.map fun k => (count k : Int))) := by
    intro α xs
    unfold repeated
    rw [if_neg]
    rw [List.any_map, List.any_eq_true]
    rintro ⟨k, -, hk⟩
    have hneg : (count k : Int) < 0 := of_decide_eq_true hk
    omega
  have hbuild : fancy ((S.argsort bkey).map Int.ofNat)
      (runPositions (pkey.map fun k => (lo k : Int)) (pkey.map fun k => (count k : Int))) =
        .ok (pkey.flatMap fun k =>
          (rowsAt (bkey.map castBuild) (castProbe k)).map fun row => (row.2 : Int)) := by
    rw [runPositions_map, fancy_runs]
    · congr 1
      apply List.flatMap_congr
      intro k _
      rw [← List.map_drop, ← List.map_take, (hrun k).2.2, List.map_map]
      rfl
    · intro k _
      rw [List.length_map, ← (hrun k).1]
      exact (hrun k).2.1
  have hprobe : repeats (arange pkey.length) (pkey.map fun k => (count k : Int)) =
      pkey.zipIdx.flatMap fun q => List.replicate (count q.1) (q.2 : Int) := by
    have hkeys : (pkey.map fun k => (count k : Int)) =
        pkey.zipIdx.map fun q => (count q.1 : Int) := by
      conv_lhs => rw [← List.zipIdx_map_fst 0 pkey, List.map_map]
      rfl
    have hpositions : arange pkey.length = pkey.zipIdx.map fun q => (q.2 : Int) := by
      rw [arange, Int.toNat_natCast, List.range_eq_range', ← List.zipIdx_map_snd 0 pkey,
        List.map_map]
      rfl
    rw [hkeys, hpositions, repeats_map]
  refine Attempts.bind_eq_ok_iff.mpr ⟨skey, hskey, ?_⟩
  simp only [hcounts]
  refine Attempts.bind_eq_ok_iff.mpr ⟨_, hrepeated _, ?_⟩
  refine Attempts.bind_eq_ok_iff.mpr ⟨_, hrepeated _, ?_⟩
  refine Attempts.bind_eq_ok_iff.mpr ⟨_, hbuild, ?_⟩
  refine Attempts.bind_eq_ok_iff.mpr ⟨_, hrepeated _, ?_⟩
  simp only [search_none S hp, hprobe]
  rw [← unmatched_builds, ← unmatched_probes, aligned, searchPairs, rightMajor, List.map_append,
    List.map_append, List.map_append, List.map_append, matched_builds, matched_probes]
  obtain ⟨hleft, hright⟩ := unmatched_sentinel sameKey (bkey.map castBuild).zipIdx
    (pkey.map castProbe).zipIdx
  cases how.keepsBuild <;> cases how.keepsProbe <;> simp [hleft, hright, hcount]

end Search

end Numpy

/-! ### The dictionary's pairs -/

namespace Awkward

section Dictionary

variable {κ : Type} [DecidableEq κ]

theorem lookup_entry (entry : κ × List Int) (pmap : List (κ × List Int)) (v : κ) :
    (entry :: pmap).lookup v = if entry.1 = v then some entry.2 else pmap.lookup v := by
  by_cases h : entry.1 = v
  · rw [if_pos h, ← h, List.lookup_cons_self]
  · rw [if_neg h, List.lookup_cons, beq_eq_false_iff_ne.mpr (Ne.symm h)]

theorem lookup_appendAt (pmap : List (κ × List Int)) (kv v : κ) (j : Int) :
    ((appendAt pmap kv j).lookup v).getD [] =
      (pmap.lookup v).getD [] ++ if kv = v then [j] else [] := by
  induction pmap with
  | nil =>
      rw [appendAt, lookup_entry]
      by_cases h : kv = v
      · rw [if_pos h, if_pos h]
        rfl
      · rw [if_neg h, if_neg h]
        rfl
  | cons entry pmap ih =>
      rw [appendAt]
      by_cases hentry : entry.1 = kv
      · rw [if_pos hentry, lookup_entry, lookup_entry, hentry]
        by_cases h : kv = v
        · rw [if_pos h, if_pos h, if_pos h]
          rfl
        · rw [if_neg h, if_neg h, if_neg h, List.append_nil]
      · rw [if_neg hentry, lookup_entry, lookup_entry]
        by_cases h : entry.1 = v
        · have hkv : ¬kv = v := fun heq => hentry (h.trans heq.symm)
          rw [if_pos h, if_pos h, if_neg hkv, List.append_nil]
        · rw [if_neg h, if_neg h, ih]

/-- The dictionary holds the positions of each key. -/
theorem lookup_foldl_appendAt (rows : List (κ × Nat)) (pmap : List (κ × List Int)) (v : κ) :
    ((rows.foldl (fun pmap row => appendAt pmap row.1 row.2) pmap).lookup v).getD [] =
      (pmap.lookup v).getD [] ++ (rows.filter fun row => row.1 = v).map fun row =>
        (row.2 : Int) := by
  induction rows generalizing pmap with
  | nil => simp
  | cons row rows ih =>
      rw [List.foldl_cons, ih, lookup_appendAt, List.filter_cons, List.append_assoc]
      by_cases h : row.1 = v
      · simp [h]
      · simp [h]

theorem foldl_pair (s : Matching) (i : Int) (ms : List Int) :
    ms.foldl (fun s j => s.pair i j) s =
      ⟨s.bOut ++ List.replicate ms.length i, s.pOut ++ ms, s.matched ++ ms⟩ := by
  induction ms generalizing s with
  | nil => simp
  | cons m ms ih =>
      rw [List.foldl_cons, ih]
      simp [Matching.pair, List.replicate_succ]

/-- What a build row adds: its pairs, and the probe rows it matched. -/
theorem matchBuild_eq {pmap : List (κ × List Int)} {R : List (κ × Nat)}
    (hpmap : ∀ v, (pmap.lookup v).getD [] =
      (R.filter fun row => row.1 = v).map fun row => (row.2 : Int))
    (how : How) (s : Matching) (l : κ × Nat) :
    matchBuild pmap how s l =
      ⟨s.bOut ++ (partners sameKey how.keepsBuild R l).map fun _ => (l.2 : Int),
        s.pOut ++ (partners sameKey how.keepsBuild R l).map sentinel,
        s.matched ++ (R.filter (sameKey l)).map fun row => (row.2 : Int)⟩ := by
  have hsame : (R.filter fun row => row.1 = l.1) = R.filter (sameKey l) := by
    apply List.filter_congr
    intro row _
    exact decide_eq_decide.mpr eq_comm
  have hms := hpmap l.1
  rw [hsame] at hms
  unfold matchBuild partners
  cases hany : R.any (sameKey l) with
  | false =>
      have hnone : R.filter (sameKey l) = [] := by
        rw [List.filter_eq_nil_iff]
        intro row hrow
        simpa using (List.any_eq_false.mp hany) row hrow
      rw [hnone] at hms
      rw [hms, hnone]
      cases how.keepsBuild <;> simp
  | true =>
      obtain ⟨row, hrow, hm⟩ := List.any_eq_true.mp hany
      obtain ⟨m, ms, hcons⟩ := List.exists_cons_of_ne_nil
        (List.ne_nil_of_mem (List.mem_filter.mpr ⟨hrow, hm⟩))
      rw [hms, if_pos rfl, List.map_map, List.map_map]
      have hfold : (match (R.filter (sameKey l)).map fun row => (row.2 : Int) with
          | [] => if how.keepsBuild then
              (⟨s.bOut ++ [(l.2 : Int)], s.pOut ++ [-1], s.matched⟩ : Matching) else s
          | ms => ms.foldl (fun s j => s.pair l.2 j) s) =
            ((R.filter (sameKey l)).map fun row => (row.2 : Int)).foldl
              (fun s j => s.pair l.2 j) s := by
        rw [hcons]
        rfl
      rw [hfold, foldl_pair]
      congr 2
      rw [List.length_map]
      exact List.map_const'.symm

theorem foldl_matchBuild {pmap : List (κ × List Int)} {R : List (κ × Nat)}
    (hpmap : ∀ v, (pmap.lookup v).getD [] =
      (R.filter fun row => row.1 = v).map fun row => (row.2 : Int))
    (how : How) (s : Matching) (L : List (κ × Nat)) :
    L.foldl (matchBuild pmap how) s =
      ⟨s.bOut ++ L.flatMap (fun l =>
          (partners sameKey how.keepsBuild R l).map fun _ => (l.2 : Int)),
        s.pOut ++ L.flatMap (fun l => (partners sameKey how.keepsBuild R l).map sentinel),
        s.matched ++ L.flatMap fun l => (R.filter (sameKey l)).map fun row => (row.2 : Int)⟩ := by
  induction L generalizing s with
  | nil => simp
  | cons l L ih =>
      rw [List.foldl_cons, ih, matchBuild_eq hpmap]
      simp only [List.flatMap_cons, List.append_assoc]

theorem foldl_matchProbe (s : Matching) (js : List Nat) :
    js.foldl matchProbe s =
      ⟨s.bOut ++ (js.filter fun j : Nat => !s.matched.contains (j : Int)).map (fun _ => (-1 : Int)),
        s.pOut ++ (js.filter fun j : Nat => !s.matched.contains (j : Int)).map Int.ofNat,
        s.matched⟩ := by
  induction js generalizing s with
  | nil => simp
  | cons j js ih =>
      rw [List.foldl_cons, ih, List.filter_cons]
      unfold matchProbe
      cases s.matched.contains (j : Int) <;> simp

/-- The probe rows no build row was paired with. -/
theorem filter_matched (L : List (κ × Nat)) (pkeys : List κ) :
    ((List.range pkeys.length).filter fun j : Nat =>
      !(L.flatMap fun l => (pkeys.zipIdx.filter (sameKey l)).map fun row =>
        (row.2 : Int)).contains (j : Int)) =
      (pkeys.zipIdx.filter fun r => !L.any (sameKey · r)).map Prod.snd := by
  rw [List.range_eq_range', ← List.zipIdx_map_snd 0 pkeys, List.filter_map]
  congr 1
  apply List.filter_congr
  intro r hr
  rw [Function.comp_apply, Bool.eq_iff_iff, Bool.not_eq_true', Bool.not_eq_true',
    Bool.eq_false_iff, Bool.eq_false_iff, ne_eq, ne_eq, not_iff_not, List.contains_iff_mem,
    List.mem_flatMap, List.any_eq_true]
  apply exists_congr
  intro l
  apply and_congr_right
  intro _
  constructor
  · intro h
    obtain ⟨row, hrow, heq⟩ := List.mem_map.mp h
    obtain ⟨hmem, hm⟩ := List.mem_filter.mp hrow
    have hposition : row.2 = r.2 := Int.ofNat_inj.mp heq
    have hkey := List.mem_zipIdx_iff_getElem?.mp hmem
    rw [hposition, List.mem_zipIdx_iff_getElem?.mp hr, Option.some.injEq] at hkey
    have hrow : row = r := Prod.ext hkey.symm hposition
    rwa [hrow] at hm
  · intro h
    exact List.mem_map.mpr ⟨r, List.mem_filter.mpr ⟨hr, h⟩, rfl⟩

/-- **The dictionary join.** The dictionary pairs each build row with the probe rows of its key in
order, then the probe rows that are kept. -/
theorem matchIndices_eq (bkeys pkeys : List κ) (how : How) :
    matchIndices bkeys pkeys how =
      aligned (leftMajor sameKey how.keepsBuild how.keepsProbe bkeys.zipIdx pkeys.zipIdx) := by
  have hpmap : ∀ v, ((pkeys.zipIdx.foldl (fun pmap row => appendAt pmap row.1 row.2)
      ([] : List (κ × List Int))).lookup v).getD [] =
        (pkeys.zipIdx.filter fun row => row.1 = v).map fun row => (row.2 : Int) := by
    intro v
    rw [lookup_foldl_appendAt]
    rfl
  have hrows : ∀ (f : Option (κ × Nat) × Option (κ × Nat) → Int),
      (bkeys.zipIdx.flatMap fun l => (partners sameKey how.keepsBuild pkeys.zipIdx l).map fun r =>
        (some l, r)).map f = bkeys.zipIdx.flatMap fun l =>
          (partners sameKey how.keepsBuild pkeys.zipIdx l).map fun r => f (some l, r) := by
    intro f
    rw [List.map_flatMap]
    apply List.flatMap_congr
    intro l _
    rw [List.map_map]
    rfl
  have hprobes := filter_matched bkeys.zipIdx pkeys
  unfold matchIndices aligned leftMajor
  simp only [foldl_matchBuild hpmap, List.nil_append, List.map_append, hrows]
  cases how.keepsProbe with
  | false => simp
  | true =>
      rw [if_pos rfl, if_pos rfl, foldl_matchProbe, hprobes]
      simp [unmatchedRight, Function.comp_def]

end Dictionary

end Awkward

/-! ### Both kernels -/

section Kernels

variable {κ : Type} [DecidableEq κ]

/-- A pair of positions joins two rows with one key, or keeps a row without a match. -/
def Joins (bkeys pkeys : List κ) (how : How) (p : Int × Int) : Prop :=
  (∃ (i j : Nat) (k : κ), bkeys[i]? = some k ∧ pkeys[j]? = some k ∧ p = (↑i, ↑j)) ∨
  (how.keepsBuild ∧ ∃ (i : Nat) (k : κ), bkeys[i]? = some k ∧ k ∉ pkeys ∧ p = (↑i, -1)) ∨
  (how.keepsProbe ∧ ∃ (j : Nat) (k : κ), pkeys[j]? = some k ∧ k ∉ bkeys ∧ p = (-1, ↑j))

/-- The positions of a pair of rows. -/
def positions (p : Option (κ × Nat) × Option (κ × Nat)) : Int × Int := (sentinel p.1, sentinel p.2)

theorem unmatched_iff {ks : List κ} {k : κ} :
    (∀ r ∈ ks.zipIdx, decide (k = r.1) = false) ↔ k ∉ ks := by
  constructor
  · intro h hk
    rw [← List.zipIdx_map_fst 0 ks] at hk
    obtain ⟨r, hr, heq⟩ := List.mem_map.mp hk
    exact of_decide_eq_false (h r hr) heq.symm
  · intro h r hr
    refine decide_eq_false fun heq => h ?_
    rw [heq]
    exact List.mem_of_getElem? (List.mem_zipIdx_iff_getElem?.mp hr)

/-- The positions of the relational pairs. -/
theorem mem_positions {bkeys pkeys : List κ} {how : How} {p : Int × Int} :
    p ∈ (rightMajor sameKey how.keepsBuild how.keepsProbe bkeys.zipIdx pkeys.zipIdx).map positions ↔
      Joins bkeys pkeys how p := by
  have hsym : ∀ (l r : κ × Nat), sameKey l r = decide (r.1 = l.1) := fun l r =>
    decide_eq_decide.mpr eq_comm
  rw [List.mem_map]
  constructor
  · rintro ⟨pair, hmem, rfl⟩
    rcases mem_rightMajor.mp hmem with
      ⟨l, hl, r, hr, hm, rfl⟩ | ⟨hkeep, l, hl, hnone, rfl⟩ | ⟨hkeep, r, hr, hnone, rfl⟩
    · refine Or.inl ⟨l.2, r.2, l.1, List.mem_zipIdx_iff_getElem?.mp hl, ?_, rfl⟩
      rw [of_decide_eq_true hm]
      exact List.mem_zipIdx_iff_getElem?.mp hr
    · exact Or.inr (Or.inl ⟨hkeep, l.2, l.1, List.mem_zipIdx_iff_getElem?.mp hl,
        unmatched_iff.mp hnone, rfl⟩)
    · simp only [hsym] at hnone
      exact Or.inr (Or.inr ⟨hkeep, r.2, r.1, List.mem_zipIdx_iff_getElem?.mp hr,
        unmatched_iff.mp hnone, rfl⟩)
  · rintro (⟨i, j, k, hi, hj, rfl⟩ | ⟨hkeep, i, k, hi, hnone, rfl⟩ | ⟨hkeep, j, k, hj, hnone, rfl⟩)
    · exact ⟨(some (k, i), some (k, j)), mem_rightMajor.mpr (Or.inl ⟨(k, i),
        List.mem_zipIdx_iff_getElem?.mpr hi, (k, j), List.mem_zipIdx_iff_getElem?.mpr hj,
        decide_eq_true rfl, rfl⟩), rfl⟩
    · exact ⟨(some (k, i), none), mem_rightMajor.mpr (Or.inr (Or.inl ⟨hkeep, (k, i),
        List.mem_zipIdx_iff_getElem?.mpr hi, unmatched_iff.mpr hnone, rfl⟩)), rfl⟩
    · refine ⟨(none, some (k, j)), mem_rightMajor.mpr (Or.inr (Or.inr ⟨hkeep, (k, j),
        List.mem_zipIdx_iff_getElem?.mpr hj, ?_, rfl⟩)), rfl⟩
      simp only [hsym]
      exact unmatched_iff.mpr hnone

theorem sentinel_inj {κ : Type} {ks : List κ} {a b : Option (κ × Nat)}
    (ha : ∀ row ∈ a, row ∈ ks.zipIdx) (hb : ∀ row ∈ b, row ∈ ks.zipIdx) (h : sentinel a = sentinel b) : a = b := by
  cases a with
  | none =>
      cases b with
      | none => rfl
      | some row =>
          rw [sentinel_none, sentinel_some] at h
          omega
  | some row =>
      cases b with
      | none =>
          rw [sentinel_none, sentinel_some] at h
          omega
      | some row' =>
          rw [sentinel_some, sentinel_some, Int.natCast_inj] at h
          have hrow := List.mem_zipIdx_iff_getElem?.mp (ha row rfl)
          rw [h, List.mem_zipIdx_iff_getElem?.mp (hb row' rfl), Option.some.injEq] at hrow
          rw [Prod.ext hrow.symm h]

theorem rows_of_mem {bkeys pkeys : List κ} {how : How} {p : Option (κ × Nat) × Option (κ × Nat)}
    (hp : p ∈ rightMajor sameKey how.keepsBuild how.keepsProbe bkeys.zipIdx pkeys.zipIdx) :
    (∀ row ∈ p.1, row ∈ bkeys.zipIdx) ∧ ∀ row ∈ p.2, row ∈ pkeys.zipIdx := by
  rcases mem_rightMajor.mp hp with
    ⟨l, hl, r, hr, -, rfl⟩ | ⟨-, l, hl, -, rfl⟩ | ⟨-, r, hr, -, rfl⟩
  · exact ⟨fun row hrow => Option.some.inj hrow ▸ hl, fun row hrow => Option.some.inj hrow ▸ hr⟩
  · exact ⟨fun row hrow => Option.some.inj hrow ▸ hl,
      fun row hrow => absurd hrow (Option.not_mem_none row)⟩
  · exact ⟨fun row hrow => absurd hrow (Option.not_mem_none row),
      fun row hrow => Option.some.inj hrow ▸ hr⟩

theorem nodup_zipIdx {α : Type} (xs : List α) : xs.zipIdx.Nodup := by
  refine List.Nodup.of_map Prod.snd ?_
  rw [List.zipIdx_map_snd]
  exact List.nodup_range'

theorem nodup_positions (bkeys pkeys : List κ) (how : How) :
    ((rightMajor sameKey how.keepsBuild how.keepsProbe bkeys.zipIdx pkeys.zipIdx).map
      positions).Nodup := by
  refine (nodup_rightMajor (nodup_zipIdx bkeys) (nodup_zipIdx pkeys)).map_on ?_
  intro p hp q hq h
  exact Prod.ext
    (sentinel_inj (rows_of_mem hp).1 (rows_of_mem hq).1 (congrArg Prod.fst h))
    (sentinel_inj (rows_of_mem hp).2 (rows_of_mem hq).2 (congrArg Prod.snd h))

/-- The dictionary's build positions ascend, where no probe row is kept. -/
theorem sorted_builds (bkeys pkeys : List κ) (keepLeft : Bool) :
    ((leftMajor sameKey keepLeft false bkeys.zipIdx pkeys.zipIdx).map fun p =>
      sentinel p.1).Pairwise (· ≤ ·) := by
  have hascending : bkeys.zipIdx.Pairwise fun l l' => l.2 < l'.2 := by
    have h : (bkeys.zipIdx.map Prod.snd).Pairwise (· < ·) := by
      rw [List.zipIdx_map_snd]
      exact List.pairwise_lt_range'
    rwa [List.pairwise_map] at h
  rw [leftMajor, if_neg Bool.false_ne_true, List.append_nil, List.map_flatMap,
    List.pairwise_flatMap]
  constructor
  · intro l _
    rw [List.map_map, List.pairwise_map]
    exact List.pairwise_of_forall fun _ _ => le_refl _
  · apply hascending.imp
    intro l l' hlt x hx y hy
    obtain ⟨p, hp, rfl⟩ := List.mem_map.mp hx
    obtain ⟨q, hq, rfl⟩ := List.mem_map.mp hy
    obtain ⟨-, -, rfl⟩ := List.mem_map.mp hp
    obtain ⟨-, -, rfl⟩ := List.mem_map.mp hq
    exact Int.ofNat_le.mpr hlt.le

end Kernels

end Graphed
