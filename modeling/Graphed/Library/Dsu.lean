import Mathlib.Data.List.Basic
import Mathlib.Logic.Relation
import Mathlib.Data.Nat.Basic
import Mathlib.Data.List.Induction
import Mathlib.Order.MinMax
import Mathlib.Tactic.Common

/-!
# Union-find with the smaller root kept

Every parent is at most its child, so following parents stops within as many steps as the node's
number. Finding a node compresses its path, which changes no root, and a union sends the class of the
larger root to the smaller one. After any sequence of unions two nodes have one root exactly when the
unions connect them.
-/

/-- Parents by position; a root is its own parent. -/
structure Dsu where
  parent : List Nat

namespace Dsu

def new (n : Nat) : Dsu := ⟨List.range n⟩

/-- Follow parents to a root. -/
def follow (parent : List Nat) : Nat → Nat → Nat
  | 0, r => r
  | fuel + 1, r => if parent.getD r r = r then r else follow parent fuel (parent.getD r r)

/-- Point every node on the path of `c` at `r`. -/
def compress (r : Nat) : Nat → List Nat → Nat → List Nat
  | 0, parent, _ => parent
  | fuel + 1, parent, c =>
      if parent.getD c c = c then parent
      else compress r fuel (parent.set c r) (parent.getD c c)

def find (d : Dsu) (x : Nat) : Nat × Dsu :=
  let r := follow d.parent d.parent.length x
  (r, ⟨compress r d.parent.length d.parent x⟩)

/-- Join two classes, keeping the smaller root. -/
def union (d : Dsu) (a b : Nat) : Dsu :=
  let fa := d.find a
  let fb := fa.2.find b
  if fa.1 = fb.1 then fb.2
  else ⟨fb.2.parent.set (max fa.1 fb.1) (min fa.1 fb.1)⟩

/-- Every parent is at most its child. -/
def Descending (parent : List Nat) : Prop := ∀ x, parent.getD x x ≤ x

/-- The root of a node. -/
def root (parent : List Nat) (x : Nat) : Nat := follow parent x x

section Root

variable {parent : List Nat}

theorem follow_of_root {r : Nat} (h : parent.getD r r = r) (fuel : Nat) :
    follow parent fuel r = r := by
  cases fuel with
  | zero => rfl
  | succ fuel => rw [follow, if_pos h]

/-- Fuel beyond the node's number changes nothing. -/
theorem follow_eq_root (h : Descending parent) {x fuel : Nat} (hfuel : x ≤ fuel) :
    follow parent fuel x = root parent x := by
  induction x using Nat.strongRecOn generalizing fuel with
  | ind x ih =>
      by_cases hroot : parent.getD x x = x
      · rw [root, follow_of_root hroot, follow_of_root hroot]
      · have hlt : parent.getD x x < x := lt_of_le_of_ne (h x) hroot
        obtain ⟨x', rfl⟩ : ∃ x', x = x' + 1 := ⟨x - 1, by omega⟩
        obtain ⟨fuel', rfl⟩ : ∃ fuel', fuel = fuel' + 1 := ⟨fuel - 1, by omega⟩
        rw [root, follow, follow, if_neg hroot, if_neg hroot,
          ih _ hlt (by omega), ih _ hlt (by omega)]

theorem root_of_eq {x : Nat} (h : parent.getD x x = x) : root parent x = x := follow_of_root h x

theorem root_parent (h : Descending parent) (x : Nat) :
    root parent (parent.getD x x) = root parent x := by
  by_cases hroot : parent.getD x x = x
  · rw [hroot]
  · have hlt : parent.getD x x < x := lt_of_le_of_ne (h x) hroot
    obtain ⟨x', rfl⟩ : ∃ x', x = x' + 1 := ⟨x - 1, by omega⟩
    conv_rhs => rw [root, follow, if_neg hroot]
    rw [follow_eq_root h (by omega)]

theorem root_le (h : Descending parent) (x : Nat) : root parent x ≤ x := by
  induction x using Nat.strongRecOn with
  | ind x ih =>
      by_cases hroot : parent.getD x x = x
      · exact Nat.le_of_eq (root_of_eq hroot)
      · have hlt : parent.getD x x < x := lt_of_le_of_ne (h x) hroot
        rw [← root_parent h x]
        exact Nat.le_trans (ih _ hlt) (Nat.le_of_lt hlt)

theorem parent_root (h : Descending parent) (x : Nat) :
    parent.getD (root parent x) (root parent x) = root parent x := by
  induction x using Nat.strongRecOn with
  | ind x ih =>
      by_cases hroot : parent.getD x x = x
      · rw [root_of_eq hroot, hroot]
      · rw [← root_parent h x]
        exact ih _ (lt_of_le_of_ne (h x) hroot)

@[simp]
theorem root_root (h : Descending parent) (x : Nat) : root parent (root parent x) = root parent x :=
  root_of_eq (parent_root h x)

theorem getD_set (parent : List Nat) (c r x : Nat) :
    (parent.set c r).getD x x = if x = c ∧ c < parent.length then r else parent.getD x x := by
  rw [List.getD_eq_getElem?_getD, List.getD_eq_getElem?_getD, List.getElem?_set]
  by_cases hx : c = x
  · subst hx
    by_cases hc : c < parent.length
    · simp [hc]
    · simp [hc]
  · rw [if_neg hx, if_neg fun h => hx h.1.symm]

theorem descending_set (h : Descending parent) {c r : Nat} (hr : r ≤ c) :
    Descending (parent.set c r) := by
  intro x
  rw [getD_set]
  split_ifs with hx
  · exact hx.1 ▸ hr
  · exact h x

/-- Pointing a node at its own root changes no root. -/
theorem root_set_root (h : Descending parent) {c : Nat} (x : Nat) :
    root (parent.set c (root parent c)) x = root parent x := by
  have hset := descending_set h (root_le h c)
  induction x using Nat.strongRecOn with
  | ind x ih =>
      by_cases hx : x = c ∧ c < parent.length
      · have hpar : (parent.set c (root parent c)).getD x x = root parent c := by
          rw [getD_set, if_pos hx]
        have hxc : root parent c = root parent x := by rw [hx.1]
        by_cases hself : root parent c = x
        · rw [root_of_eq (hpar.trans hself), ← hxc, hself]
        · have hlt : root parent c < x := lt_of_le_of_ne (hxc ▸ root_le h x) hself
          rw [← root_parent hset x, hpar, ih _ hlt, root_root h, hxc]
      · have hpar : (parent.set c (root parent c)).getD x x = parent.getD x x := by
          rw [getD_set, if_neg hx]
        by_cases hself : parent.getD x x = x
        · rw [root_of_eq hself, root_of_eq (hpar.trans hself)]
        · rw [← root_parent hset x, hpar, ih _ (lt_of_le_of_ne (h x) hself), root_parent h]

/-- Sending a root to a smaller root moves its class, and no other. -/
theorem root_set_of_root (h : Descending parent) {c r : Nat} (hc : parent.getD c c = c)
    (hr : parent.getD r r = r) (hrc : r < c) (hlen : c < parent.length) (x : Nat) :
    root (parent.set c r) x = if root parent x = c then r else root parent x := by
  have hset := descending_set h hrc.le
  induction x using Nat.strongRecOn with
  | ind x ih =>
      by_cases hx : x = c
      · subst hx
        have hpar : (parent.set x r).getD x x = r := by rw [getD_set, if_pos ⟨rfl, hlen⟩]
        have hroot : (parent.set x r).getD r r = r := by
          rw [getD_set, if_neg fun h => hrc.ne h.1, hr]
        rw [← root_parent hset x, hpar, root_of_eq hroot, if_pos (root_of_eq hc)]
      · have hpar : (parent.set c r).getD x x = parent.getD x x := by
          rw [getD_set, if_neg fun h => hx h.1]
        by_cases hself : parent.getD x x = x
        · rw [root_of_eq (hpar.trans hself), root_of_eq hself, if_neg hx]
        · rw [← root_parent hset x, hpar, ih _ (lt_of_le_of_ne (h x) hself), root_parent h]

/-- Compressing the path of a node to its root changes no root. -/
theorem compress_spec (h : Descending parent) {c r : Nat} (hr : root parent c = r) (fuel : Nat) :
    Descending (compress r fuel parent c) ∧
      (∀ x, root (compress r fuel parent c) x = root parent x) ∧
      (compress r fuel parent c).length = parent.length := by
  induction fuel generalizing parent c with
  | zero => exact ⟨h, fun _ => rfl, rfl⟩
  | succ fuel ih =>
      rw [compress]
      split_ifs with hc
      · exact ⟨h, fun _ => rfl, rfl⟩
      · have hkeep := root_set_root h (c := c)
        rw [hr] at hkeep
        have hset := descending_set h (hr ▸ root_le h c)
        obtain ⟨hdesc, hroot, hlen⟩ := ih hset (c := parent.getD c c)
          (by rw [hkeep, root_parent h, hr])
        exact ⟨hdesc, fun x => by rw [hroot, hkeep], by rw [hlen, List.length_set]⟩

end Root

section Unions

variable {d : Dsu}

theorem find_fst (h : Descending d.parent) (x : Nat) : (d.find x).1 = root d.parent x := by
  change follow d.parent d.parent.length x = _
  by_cases hx : x ≤ d.parent.length
  · exact follow_eq_root h hx
  · have hself : d.parent.getD x x = x := by
      rw [List.getD_eq_getElem?_getD, List.getElem?_eq_none (by omega), Option.getD_none]
    rw [follow_of_root hself, root_of_eq hself]

theorem find_snd (h : Descending d.parent) (x : Nat) : Descending (d.find x).2.parent ∧
    (∀ y, root (d.find x).2.parent y = root d.parent y) ∧
    (d.find x).2.parent.length = d.parent.length :=
  compress_spec h (find_fst h x).symm _

/-- A union sends the class of the larger root to the smaller root. -/
theorem union_spec (h : Descending d.parent) {a b : Nat} (ha : a < d.parent.length)
    (hb : b < d.parent.length) : Descending (d.union a b).parent ∧
      (d.union a b).parent.length = d.parent.length ∧
      ∀ x, root (d.union a b).parent x =
        if root d.parent x = max (root d.parent a) (root d.parent b)
        then min (root d.parent a) (root d.parent b) else root d.parent x := by
  obtain ⟨hdescA, hrootA, hlenA⟩ := find_snd h a
  obtain ⟨hdescB, hrootB, hlenB⟩ := find_snd hdescA b
  have hfb : ((d.find a).2.find b).1 = root d.parent b := by rw [find_fst hdescA, hrootA]
  simp only [union, find_fst h a, hfb]
  split_ifs with hab
  · refine ⟨hdescB, hlenB.trans hlenA, fun x => ?_⟩
    rw [hrootB, hrootA, hab, max_self, min_self]
    split_ifs with hx <;> simp [hx]
  · have hra := parent_root h a
    have hrb := parent_root h b
    have hroots : ∀ r, root d.parent r = r →
        ((d.find a).2.find b).2.parent.getD r r = r := by
      intro r hr
      have hsame : root ((d.find a).2.find b).2.parent r = r := by rw [hrootB, hrootA, hr]
      have hself := parent_root hdescB r
      rwa [hsame] at hself
    have hlt : min (root d.parent a) (root d.parent b) < max (root d.parent a) (root d.parent b) :=
      min_lt_max.mpr hab
    have hmax := hroots (max (root d.parent a) (root d.parent b)) (by
      rcases max_choice (root d.parent a) (root d.parent b) with hm | hm <;>
        rw [hm, root_root h])
    have hmin := hroots (min (root d.parent a) (root d.parent b)) (by
      rcases min_choice (root d.parent a) (root d.parent b) with hm | hm <;>
        rw [hm, root_root h])
    have hlen : max (root d.parent a) (root d.parent b) <
        ((d.find a).2.find b).2.parent.length := by
      rw [hlenB, hlenA]
      exact max_lt (lt_of_le_of_lt (root_le h a) ha) (lt_of_le_of_lt (root_le h b) hb)
    refine ⟨descending_set hdescB hlt.le, by rw [List.length_set, hlenB, hlenA], fun x => ?_⟩
    rw [root_set_of_root hdescB hmax hmin hlt hlen, hrootB, hrootA]

/-- Perform unions in order. -/
def unions (d : Dsu) (pairs : List (Nat × Nat)) : Dsu :=
  pairs.foldl (fun d p => d.union p.1 p.2) d

theorem descending_new (n : Nat) : Descending (new n).parent := by
  intro x
  by_cases hx : x < n
  · simp [new, hx]
  · simp [new, hx]

theorem root_new (n x : Nat) : root (new n).parent x = x := by
  apply root_of_eq
  by_cases hx : x < n
  · simp [new, hx]
  · simp [new, hx]

/-- **Roots are the classes the unions connect.** -/
theorem root_unions {n : Nat} {pairs : List (Nat × Nat)}
    (hpairs : ∀ p ∈ pairs, p.1 < n ∧ p.2 < n) :
    Descending ((new n).unions pairs).parent ∧ ((new n).unions pairs).parent.length = n ∧
      ∀ x y, root ((new n).unions pairs).parent x = root ((new n).unions pairs).parent y ↔
        Relation.EqvGen (fun a b => (a, b) ∈ pairs) x y := by
  induction pairs using List.reverseRecOn with
  | nil =>
      refine ⟨descending_new n, by simp [unions, new], fun x y => ?_⟩
      simp only [unions, List.foldl_nil, root_new]
      refine ⟨fun h => h ▸ Relation.EqvGen.refl x, fun h => ?_⟩
      induction h with
      | rel a b hab => exact absurd hab List.not_mem_nil
      | refl => rfl
      | symm _ _ _ ih => exact ih.symm
      | trans _ _ _ _ _ ih₁ ih₂ => exact ih₁.trans ih₂
  | append_singleton pairs p ih =>
      obtain ⟨hdesc, hlen, hroot⟩ := ih fun q hq => hpairs q (List.mem_append_left _ hq)
      obtain ⟨ha, hb⟩ := hpairs p (by simp)
      have hstep : (new n).unions (pairs ++ [p]) = ((new n).unions pairs).union p.1 p.2 := by
        simp [unions]
      obtain ⟨hdesc', hlen', hroot'⟩ := union_spec hdesc (hlen ▸ ha) (hlen ▸ hb)
      rw [hstep]
      refine ⟨hdesc', hlen'.trans hlen, fun x y => ?_⟩
      have hmono : ∀ {a b : Nat}, Relation.EqvGen (fun a b => (a, b) ∈ pairs) a b →
          Relation.EqvGen (fun a b => (a, b) ∈ pairs ++ [p]) a b :=
        Relation.EqvGen.mono (fun _ _ h => List.mem_append_left _ h) _ _
      have hjoin : Relation.EqvGen (fun a b => (a, b) ∈ pairs ++ [p]) p.1 p.2 :=
        Relation.EqvGen.rel _ _ (by simp)
      constructor
      · intro h
        rw [hroot', hroot'] at h
        have hmax : ∀ z, root ((new n).unions pairs).parent z =
            max (root ((new n).unions pairs).parent p.1) (root ((new n).unions pairs).parent p.2) →
            Relation.EqvGen (fun a b => (a, b) ∈ pairs ++ [p]) z p.1 := by
          intro z hz
          rcases max_choice (root ((new n).unions pairs).parent p.1)
            (root ((new n).unions pairs).parent p.2) with hm | hm <;> rw [hm] at hz
          · exact hmono ((hroot z p.1).mp hz)
          · exact (hmono ((hroot z p.2).mp hz)).trans _ _ _ (hjoin.symm _ _)
        have hmin : ∀ z, min (root ((new n).unions pairs).parent p.1)
              (root ((new n).unions pairs).parent p.2) = root ((new n).unions pairs).parent z →
            Relation.EqvGen (fun a b => (a, b) ∈ pairs ++ [p]) p.1 z := by
          intro z hz
          rcases min_choice (root ((new n).unions pairs).parent p.1)
            (root ((new n).unions pairs).parent p.2) with hm | hm <;> rw [hm] at hz
          · exact hmono ((hroot p.1 z).mp hz)
          · exact hjoin.trans _ _ _ (hmono ((hroot p.2 z).mp hz))
        split_ifs at h with hx hy hy
        · exact (hmax x hx).trans _ _ _ ((hmax y hy).symm _ _)
        · exact (hmax x hx).trans _ _ _ (hmin y h)
        · exact ((hmax y hy).trans _ _ _ (hmin x h.symm)).symm _ _
        · exact hmono ((hroot x y).mp h)
      · intro h
        induction h with
        | refl => rfl
        | symm _ _ _ ih => exact ih.symm
        | trans _ _ _ _ _ ih₁ ih₂ => exact ih₁.trans ih₂
        | rel a b hab =>
            rcases List.mem_append.mp hab with hab | hab
            · rw [hroot', hroot', (hroot a b).mpr (Relation.EqvGen.rel _ _ hab)]
            · obtain rfl := List.mem_singleton.mp hab
              rw [hroot', hroot']
              rcases le_total (root ((new n).unions pairs).parent a)
                (root ((new n).unions pairs).parent b) with hle | hle <;> simp [hle]

end Unions

end Dsu
