import Graphed.Library.Descent
import Graphed.Systematics.Expand

/-!
# Event contexts

A Session's event contexts by serial: a context is derived from an earlier one by one link. Handles
on one ancestry chain unify to the most derived of them; other handles are refused.
-/

namespace Graphed

open Attempts Descent

/-- A recorded array: its node and the context it was read through. -/
structure HandledArray (N : Type) where
  node : N
  handle : Option Nat

/-- An `Array` or a `Varied`. -/
abbrev HandledValue (N : Type) := Broadcast (HandledArray N) (Option Nat)

abbrev LineageLink (N : Type) := Link (HandledArray N) (Option Nat)

/-- The contexts of a Session: what each was derived from and how, `none` at a root. -/
structure ContextTree (N : Type) where
  derived : List (Option (Nat × LineageLink N))
  parent_lt : ∀ (c p : Nat) (link : LineageLink N), derived[c]? = some (some (p, link)) → p < c

namespace ContextTree

variable {N : Type} (tree : ContextTree N)

def derivation (c : Nat) : Option (Nat × LineageLink N) := tree.derived[c]?.join

def parentOf (c : Nat) : Option Nat := (tree.derivation c).map Prod.fst

def linkOf (c : Nat) : Option (LineageLink N) := (tree.derivation c).map Prod.snd

/-- A context and its parents, at most `fuel` of them. -/
def ancestryFrom : Nat → Nat → List Nat
  | 0, c => [c]
  | fuel + 1, c =>
      match tree.parentOf c with
      | none => [c]
      | some p => c :: ancestryFrom fuel p

/-- The parent chain of a context, itself first. -/
def ancestry (c : Nat) : List Nat := tree.ancestryFrom c c

def isAncestor (ancestor ctx : Nat) : Bool := (tree.ancestry ctx).contains ancestor

/-- The links from just below `ancestor` down to `ctx`. -/
def linksBelow (ctx ancestor : Nat) : List (LineageLink N) :=
  (((tree.ancestry ctx).takeWhile (· != ancestor)).filterMap tree.linkOf).reverse

/-- The first context above a run of `vary` links that `ctx` descends from. -/
def rowSpaceFrom (ctx : Nat) : Nat → Nat → Option Nat
  | 0, _ => none
  | fuel + 1, node =>
      match tree.derivation node with
      | some (parent, .vary) =>
          if parent == ctx || tree.isAncestor parent ctx then some parent
          else rowSpaceFrom ctx fuel parent
      | _ => none

def rowSpaceAbove (handle ctx : Nat) : Option Nat := tree.rowSpaceFrom ctx handle handle

/-- The most derived of some handles, or two of them on divergent branches. -/
def unifyContexts (handles : List (Option Nat)) : Except (Nat × Nat) (Option Nat) :=
  match handles.filterMap id with
  | [] => .ok none
  | best :: rest => (deepest tree.isAncestor best rest).map some

/-! ### Ancestry -/

theorem parentOf_lt {c p : Nat} (h : tree.parentOf c = some p) : p < c := by
  obtain ⟨⟨p', link⟩, hderived, rfl⟩ := Option.map_eq_some_iff.mp h
  refine tree.parent_lt c p' link ?_
  rwa [derivation, Option.join_eq_some_iff] at hderived

theorem ancestryFrom_eq {fuel c : Nat} (h : c ≤ fuel) :
    tree.ancestryFrom fuel c = tree.ancestry c := by
  induction fuel using Nat.strongRecOn generalizing c with
  | ind fuel ih =>
      rcases Nat.eq_or_lt_of_le h with rfl | hlt
      · rfl
      · obtain ⟨fuel, rfl⟩ := Nat.exists_eq_succ_of_ne_zero (Nat.ne_zero_of_lt hlt)
        cases c with
        | zero =>
            have hroot : tree.parentOf 0 = none := by
              cases hp : tree.parentOf 0 with
              | none => rfl
              | some p => exact absurd (tree.parentOf_lt hp) (Nat.not_lt_zero p)
            simp only [ancestry, ancestryFrom, hroot]
        | succ c =>
            simp only [ancestry, ancestryFrom]
            cases hp : tree.parentOf (c + 1) with
            | none => rfl
            | some p =>
                have hpc := tree.parentOf_lt hp
                simp only
                rw [ih fuel (Nat.lt_succ_self fuel) (by omega), ih c (by omega) (by omega)]

/-- A context, then the ancestry of its parent. -/
theorem ancestry_eq (c : Nat) : tree.ancestry c = c :: match tree.parentOf c with
    | none => []
    | some p => tree.ancestry p := by
  cases c with
  | zero =>
      cases hp : tree.parentOf 0 with
      | none => rfl
      | some p => exact absurd (tree.parentOf_lt hp) (Nat.not_lt_zero p)
  | succ c =>
      rw [ancestry, ancestryFrom]
      cases hp : tree.parentOf (c + 1) with
      | none => rfl
      | some p =>
          have hpc := tree.parentOf_lt hp
          simp only
          rw [tree.ancestryFrom_eq (by omega)]

theorem mem_ancestry_self (c : Nat) : c ∈ tree.ancestry c := by
  rw [ancestry_eq]
  exact List.mem_cons_self

theorem isAncestor_iff {a c : Nat} : tree.isAncestor a c = true ↔ a ∈ tree.ancestry c := by
  rw [isAncestor, List.contains_iff_mem]

/-- The ancestry of an ancestor ends the ancestry. -/
theorem ancestry_suffix {a c : Nat} (h : a ∈ tree.ancestry c) :
    tree.ancestry a <:+ tree.ancestry c := by
  induction c using Nat.strongRecOn with
  | ind c ih =>
      rw [ancestry_eq] at h
      rcases List.mem_cons.mp h with rfl | h
      · exact List.suffix_rfl
      · rw [tree.ancestry_eq c]
        cases hp : tree.parentOf c with
        | none => rw [hp] at h; exact absurd h List.not_mem_nil
        | some p =>
            rw [hp] at h
            exact (ih p (tree.parentOf_lt hp) h).trans (List.suffix_cons c _)

theorem le_of_mem_ancestry {a c : Nat} (h : a ∈ tree.ancestry c) : a ≤ c := by
  induction c using Nat.strongRecOn with
  | ind c ih =>
      rw [ancestry_eq] at h
      rcases List.mem_cons.mp h with rfl | h
      · exact Nat.le_refl _
      · cases hp : tree.parentOf c with
        | none => rw [hp] at h; exact absurd h List.not_mem_nil
        | some p =>
            rw [hp] at h
            have hpc := tree.parentOf_lt hp
            have hap := ih p hpc h
            omega

/-- **Ancestry is an order of descent.** -/
theorem order_isAncestor : Order tree.isAncestor where
  refl a := tree.isAncestor_iff.mpr (tree.mem_ancestry_self a)
  trans := by
    intro a b c hab hbc
    rw [isAncestor_iff] at hab hbc ⊢
    exact (tree.ancestry_suffix hbc).subset hab
  antisymm := by
    intro a b hab hba
    rw [isAncestor_iff] at hab hba
    exact Nat.le_antisymm (tree.le_of_mem_ancestry hab) (tree.le_of_mem_ancestry hba)
  linear := by
    intro a b c hac hbc
    rw [isAncestor_iff] at hac hbc
    simp only [isAncestor_iff]
    rcases List.suffix_or_suffix_of_suffix (tree.ancestry_suffix hac) (tree.ancestry_suffix hbc)
      with h | h
    · exact Or.inl (h.subset (tree.mem_ancestry_self a))
    · exact Or.inr (h.subset (tree.mem_ancestry_self b))

/-! ### Links -/

theorem linksBelow_self (c : Nat) : tree.linksBelow c c = [] := by
  rw [linksBelow, ancestry_eq, List.takeWhile_cons, bne_self_eq_false]
  rfl

theorem linksBelow_of_derivation {c p a : Nat} {link : LineageLink N}
    (h : tree.derivation c = some (p, link)) (hne : c ≠ a) :
    tree.linksBelow c a = tree.linksBelow p a ++ [link] := by
  have hparent : tree.parentOf c = some p := by rw [parentOf, h, Option.map_some]
  have hlink : tree.linkOf c = some link := by rw [linkOf, h, Option.map_some]
  rw [linksBelow, ancestry_eq, hparent, List.takeWhile_cons, if_pos (by simpa using hne),
    List.filterMap_cons, hlink, List.reverse_cons]
  rfl

/-- The links of a descent, through a context between. -/
theorem linksBelow_append {a b c : Nat} (hab : tree.isAncestor a b = true)
    (hbc : tree.isAncestor b c = true) :
    tree.linksBelow c a = tree.linksBelow b a ++ tree.linksBelow c b := by
  induction c using Nat.strongRecOn with
  | ind c ih =>
      by_cases hcb : c = b
      · subst hcb
        rw [linksBelow_self, List.append_nil]
      · have hca : c ≠ a := by
          rintro rfl
          exact hcb (tree.order_isAncestor.antisymm hab hbc)
        have hmem := tree.isAncestor_iff.mp hbc
        rw [ancestry_eq] at hmem
        rcases List.mem_cons.mp hmem with rfl | hmem
        · exact absurd rfl hcb
        · cases hd : tree.derivation c with
          | none =>
              rw [parentOf, hd] at hmem
              exact absurd hmem List.not_mem_nil
          | some pair =>
              have hparent : tree.parentOf c = some pair.1 := by rw [parentOf, hd, Option.map_some]
              rw [hparent] at hmem
              rw [tree.linksBelow_of_derivation hd hca, tree.linksBelow_of_derivation hd hcb,
                ih pair.1 (tree.parentOf_lt hparent) (tree.isAncestor_iff.mpr hmem),
                List.append_assoc]

/-! ### Unification -/

/-- Handles on one ancestry chain, a missing one being on every chain. -/
def OnOneChain (handles : List (Option Nat)) : Prop :=
  ∀ a b, some a ∈ handles → some b ∈ handles →
    tree.isAncestor a b = true ∨ tree.isAncestor b a = true

/-- What a list of handles unifies to. -/
def UnifiesTo (handles : List (Option Nat)) (answer : Option Nat) : Prop :=
  answer ∈ none :: handles ∧
    ∀ a, some a ∈ handles → ∃ m, answer = some m ∧ tree.isAncestor a m = true

theorem mem_present {handles : List (Option Nat)} {a : Nat} :
    a ∈ handles.filterMap id ↔ some a ∈ handles := by
  simp

/-- **The answer of a unification.** -/
theorem unifyContexts_eq_ok_iff {handles : List (Option Nat)} {answer : Option Nat} :
    tree.unifyContexts handles = .ok answer ↔ tree.UnifiesTo handles answer := by
  unfold unifyContexts UnifiesTo
  cases hpresent : handles.filterMap id with
  | nil =>
      have hnone : ∀ a, some a ∉ handles := by
        intro a ha
        rw [← mem_present, hpresent] at ha
        exact absurd ha List.not_mem_nil
      simp only [Except.ok.injEq]
      constructor
      · rintro rfl
        exact ⟨List.mem_cons_self, fun a ha => absurd ha (hnone a)⟩
      · rintro ⟨hmem, -⟩
        cases answer with
        | none => rfl
        | some m => exact absurd ((List.mem_cons.mp hmem).resolve_left (by simp)) (hnone m)
  | cons best rest =>
      have hmem : ∀ a, some a ∈ handles ↔ a ∈ best :: rest := by
        intro a
        rw [← hpresent, mem_present]
      simp only [map_eq_ok_iff, deepest_eq_ok_iff tree.order_isAncestor, IsDeepest]
      constructor
      · rintro ⟨m, ⟨hm, hall⟩, rfl⟩
        refine ⟨List.mem_cons_of_mem _ ((hmem m).mpr hm), fun a ha => ⟨m, rfl, ?_⟩⟩
        exact hall a ((hmem a).mp ha)
      · rintro ⟨hanswer, hall⟩
        obtain ⟨m, rfl, -⟩ := hall best ((hmem best).mpr List.mem_cons_self)
        refine ⟨m, ⟨?_, fun a ha => ?_⟩, rfl⟩
        · exact (hmem m).mp ((List.mem_cons.mp hanswer).resolve_left (by simp))
        · obtain ⟨m', hm', ha'⟩ := hall a ((hmem a).mpr ha)
          rwa [Option.some.inj hm']

/-- **Handles unify exactly when they are on one chain.** -/
theorem exists_unifiesTo_iff {handles : List (Option Nat)} :
    (∃ answer, tree.UnifiesTo handles answer) ↔ tree.OnOneChain handles := by
  constructor
  · rintro ⟨answer, -, hall⟩ a b ha hb
    obtain ⟨m, rfl, ham⟩ := hall a ha
    obtain ⟨m', hm', hbm⟩ := hall b hb
    rw [← Option.some.inj hm'] at hbm
    exact tree.order_isAncestor.linear ham hbm
  · intro hchain
    cases hpresent : handles.filterMap id with
    | nil =>
        refine ⟨none, List.mem_cons_self, fun a ha => ?_⟩
        rw [← mem_present, hpresent] at ha
        exact absurd ha List.not_mem_nil
    | cons best rest =>
        have hmem : ∀ a, a ∈ best :: rest ↔ some a ∈ handles := by
          intro a
          rw [← hpresent, mem_present]
        have hpresent' : OneChain tree.isAncestor (best :: rest) := fun a ha b hb =>
          hchain a b ((hmem a).mp ha) ((hmem b).mp hb)
        obtain ⟨m, hm, hall⟩ := exists_isDeepest tree.order_isAncestor hpresent'
        refine ⟨some m, List.mem_cons_of_mem _ ((hmem m).mp hm), fun a ha => ⟨m, rfl, ?_⟩⟩
        exact hall a ((hmem a).mpr ha)

/-- A refusal names two handles of the list on divergent branches. -/
theorem unifyContexts_eq_error {handles : List (Option Nat)} {a b : Nat}
    (h : tree.unifyContexts handles = .error (a, b)) : some a ∈ handles ∧ some b ∈ handles ∧
      tree.isAncestor a b = false ∧ tree.isAncestor b a = false := by
  unfold unifyContexts at h
  cases hpresent : handles.filterMap id with
  | nil =>
      rw [hpresent] at h
      cases h
  | cons best rest =>
      rw [hpresent] at h
      cases hscan : deepest tree.isAncestor best rest with
      | ok m =>
          simp only [hscan, Except.map] at h
          cases h
      | error pair =>
          simp only [hscan, Except.map, Except.error.injEq] at h
          subst h
          obtain ⟨ha, hb, hab⟩ := deepest_eq_error hscan
          rw [← hpresent, mem_present] at ha hb
          exact ⟨ha, hb, hab⟩

theorem UnifiesTo.unique {handles : List (Option Nat)} {x y : Option Nat}
    (hx : tree.UnifiesTo handles x) (hy : tree.UnifiesTo handles y) : x = y := by
  have h := (tree.unifyContexts_eq_ok_iff.mpr hx).symm.trans (tree.unifyContexts_eq_ok_iff.mpr hy)
  exact Except.ok.inj h

/-- The order of the handles does not matter. -/
theorem unifiesTo_perm {handles handles' : List (Option Nat)} (h : handles.Perm handles')
    {answer : Option Nat} : tree.UnifiesTo handles answer ↔ tree.UnifiesTo handles' answer := by
  simp only [UnifiesTo, List.mem_cons, h.mem_iff]

/-- Nor does their grouping: unify each group, then the answers. -/
theorem unifiesTo_flatten {groups : List (List (Option Nat))} {answer : Option Nat} :
    tree.UnifiesTo groups.flatten answer ↔ ∃ answers,
      List.Forall₂ tree.UnifiesTo groups answers ∧ tree.UnifiesTo answers answer := by
  constructor
  · rintro ⟨hmem, hall⟩
    have hgroup : ∀ group ∈ groups, ∃ x, tree.UnifiesTo group x := by
      intro group hgroup
      refine tree.exists_unifiesTo_iff.mpr fun a b ha hb => ?_
      obtain ⟨m, rfl, ham⟩ := hall a (List.mem_flatten.mpr ⟨group, hgroup, ha⟩)
      obtain ⟨m', hm', hbm⟩ := hall b (List.mem_flatten.mpr ⟨group, hgroup, hb⟩)
      rw [← Option.some.inj hm'] at hbm
      exact tree.order_isAncestor.linear ham hbm
    have hanswers : ∃ answers, List.Forall₂ tree.UnifiesTo groups answers := by
      clear hmem hall
      induction groups with
      | nil => exact ⟨[], List.Forall₂.nil⟩
      | cons group groups ih =>
          obtain ⟨x, hx⟩ := hgroup group List.mem_cons_self
          obtain ⟨xs, hxs⟩ := ih fun g hg => hgroup g (List.mem_cons_of_mem group hg)
          exact ⟨x :: xs, List.Forall₂.cons hx hxs⟩
    obtain ⟨answers, hanswers⟩ := hanswers
    refine ⟨answers, hanswers, ?_, fun a ha => ?_⟩
    · cases answer with
      | none => exact List.mem_cons_self
      | some m =>
          have hm := (List.mem_cons.mp hmem).resolve_left (by simp)
          obtain ⟨group, hgroup, hm⟩ := List.mem_flatten.mp hm
          obtain ⟨x, hx, hunify⟩ := exists_of_forall₂ hanswers hgroup
          -- the group of the deepest handle unifies to it
          obtain ⟨m', rfl, hle⟩ := hunify.2 m hm
          have hm' := (List.mem_cons.mp hunify.1).resolve_left (by simp)
          obtain ⟨n, hn, hle'⟩ := hall m' (List.mem_flatten.mpr ⟨group, hgroup, hm'⟩)
          rw [← Option.some.inj hn] at hle'
          rw [tree.order_isAncestor.antisymm hle hle']
          exact List.mem_cons_of_mem none hx
    · obtain ⟨group, hgroup, hunify⟩ := exists_of_forall₂ hanswers.flip ha
      exact hall a (List.mem_flatten.mpr
        ⟨group, hgroup, (List.mem_cons.mp hunify.1).resolve_left (by simp)⟩)
  · rintro ⟨answers, hanswers, hmem, hall⟩
    refine ⟨?_, fun a ha => ?_⟩
    · cases answer with
      | none => exact List.mem_cons_self
      | some m =>
          obtain ⟨group, hgroup, hunify⟩ := exists_of_forall₂ hanswers.flip
            ((List.mem_cons.mp hmem).resolve_left (by simp))
          exact List.mem_cons_of_mem none (List.mem_flatten.mpr
            ⟨group, hgroup, (List.mem_cons.mp hunify.1).resolve_left (by simp)⟩)
    · obtain ⟨group, hgroup, ha⟩ := List.mem_flatten.mp ha
      obtain ⟨x, hx, hunify⟩ := exists_of_forall₂ hanswers hgroup
      obtain ⟨m, rfl, ham⟩ := hunify.2 a ha
      obtain ⟨n, rfl, hmn⟩ := hall m hx
      exact ⟨n, rfl, tree.order_isAncestor.trans ham hmn⟩

end ContextTree

end Graphed
