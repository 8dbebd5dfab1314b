import Mathlib.Data.List.Forall2

/-!
# Attempts

A computation that returns or refuses, and the same computation seen through a map of its values: a
list of attempts returns when each does, and two attempts that return together make a third return.
Two attempts end alike when they refuse for one reason or return related values.
-/

namespace Attempts

variable {ε ε₁ ε₂ σ α β γ : Type}

theorem bind_eq_ok_iff {x : Except ε α} {f : α → Except ε β} {b : β} :
    x >>= f = .ok b ↔ ∃ a, x = .ok a ∧ f a = .ok b := by
  cases x with
  | error e =>
      constructor
      · intro h
        cases h
      · rintro ⟨a, h, -⟩
        cases h
  | ok a =>
      constructor
      · exact fun h => ⟨a, rfl, h⟩
      · rintro ⟨a', h, hf⟩
        cases h
        exact hf

theorem map_eq_ok_iff {x : Except ε α} {f : α → β} {b : β} :
    x.map f = .ok b ↔ ∃ a, x = .ok a ∧ f a = b := by
  cases x with
  | error e => simp [Except.map]
  | ok a => simp [Except.map]

theorem mapM_cons_eq_ok_iff {f : σ → Except ε α} {x : σ} {xs : List σ} {ys : List α} :
    (x :: xs).mapM f = .ok ys ↔ ∃ a as, f x = .ok a ∧ xs.mapM f = .ok as ∧ ys = a :: as := by
  rw [List.mapM_cons, bind_eq_ok_iff]
  constructor
  · rintro ⟨a, ha, hrest⟩
    obtain ⟨as, has, hys⟩ := bind_eq_ok_iff.mp hrest
    cases hys
    exact ⟨a, as, ha, has, rfl⟩
  · rintro ⟨a, as, ha, has, rfl⟩
    exact ⟨a, ha, bind_eq_ok_iff.mpr ⟨as, has, rfl⟩⟩

theorem mapM_congr {f g : σ → Except ε α} {xs : List σ} (h : ∀ x ∈ xs, f x = g x) :
    xs.mapM f = xs.mapM g := by
  induction xs with
  | nil => rfl
  | cons x xs ih =>
      rw [List.mapM_cons, List.mapM_cons, h x List.mem_cons_self,
        ih fun y hy => h y (List.mem_cons_of_mem _ hy)]

/-- Attempts that all return. -/
theorem mapM_of_ok {f : σ → Except ε α} {g : σ → α} {xs : List σ}
    (h : ∀ x ∈ xs, f x = .ok (g x)) : xs.mapM f = .ok (xs.map g) := by
  induction xs with
  | nil => rfl
  | cons x xs ih =>
      exact mapM_cons_eq_ok_iff.mpr ⟨g x, xs.map g, h x List.mem_cons_self,
        ih fun y hy => h y (List.mem_cons_of_mem _ hy), rfl⟩

theorem mapM_map {f : σ → Except ε α} {g : β → σ} {xs : List β} :
    (xs.map g).mapM f = xs.mapM fun x => f (g x) := by
  induction xs with
  | nil => rfl
  | cons x xs ih => rw [List.map_cons, List.mapM_cons, List.mapM_cons, ih]

/-- Attempts that return, seen through a map, return. -/
theorem mapM_ok_map {f : σ → Except ε α} {g : σ → Except ε₁ β} {u : α → β}
    (h : ∀ s a, f s = .ok a → g s = .ok (u a)) {xs : List σ} {ys : List α}
    (hf : xs.mapM f = .ok ys) : xs.mapM g = .ok (ys.map u) := by
  induction xs generalizing ys with
  | nil =>
      cases hf
      rfl
  | cons x xs ih =>
      obtain ⟨a, as, ha, has, rfl⟩ := mapM_cons_eq_ok_iff.mp hf
      exact mapM_cons_eq_ok_iff.mpr ⟨u a, as.map u, h x a ha, ih has, rfl⟩

/-- Where two attempts that return make a third return, so do their lists. -/
theorem exists_mapM_ok {f : σ → Except ε α} {g : σ → Except ε₁ β} {k : σ → Except ε₂ γ}
    (h : ∀ s b c, g s = .ok b → k s = .ok c → ∃ a, f s = .ok a) {xs : List σ} {bs : List β}
    {cs : List γ} (hg : xs.mapM g = .ok bs) (hk : xs.mapM k = .ok cs) :
    ∃ as, xs.mapM f = .ok as := by
  induction xs generalizing bs cs with
  | nil => exact ⟨[], rfl⟩
  | cons x xs ih =>
      obtain ⟨b, bs, hb, hbs, -⟩ := mapM_cons_eq_ok_iff.mp hg
      obtain ⟨c, cs, hc, hcs, -⟩ := mapM_cons_eq_ok_iff.mp hk
      obtain ⟨a, ha⟩ := h x b c hb hc
      obtain ⟨as, has⟩ := ih hbs hcs
      exact ⟨a :: as, mapM_cons_eq_ok_iff.mpr ⟨a, as, ha, has, rfl⟩⟩

/-- Whatever is in one list is related to something in the other. -/
theorem exists_of_forall₂ {X Y : Type} {R : X → Y → Prop} {xs : List X} {ys : List Y}
    (h : List.Forall₂ R xs ys) {x : X} (hx : x ∈ xs) : ∃ y ∈ ys, R x y := by
  induction h with
  | nil => exact absurd hx List.not_mem_nil
  | @cons a b xs ys hab _ ih =>
      obtain rfl | hx := List.mem_cons.mp hx
      · exact ⟨b, List.mem_cons_self, hab⟩
      · obtain ⟨y, hy, hxy⟩ := ih hx
        exact ⟨y, List.mem_cons_of_mem _ hy, hxy⟩

/-! ### Attempts that end alike -/

/-- Both refuse for one reason, or what they return is related. -/
inductive Alike (R : α → β → Prop) : Except ε α → Except ε β → Prop
  | ok {a : α} {b : β} (h : R a b) : Alike R (.ok a) (.ok b)
  | error (e : ε) : Alike R (.error e) (.error e)

namespace Alike

variable {R : α → β → Prop}

theorem of_eq {x : Except ε α} {R : α → α → Prop} (h : ∀ a, x = .ok a → R a a) : Alike R x x := by
  cases x with
  | error e => exact error e
  | ok a => exact ok (h a rfl)

theorem eq {x y : Except ε α} (h : Alike Eq x y) : x = y := by
  cases h with
  | ok h => rw [h]
  | error e => rfl

theorem mono {S : α → β → Prop} {x : Except ε α} {y : Except ε β} (h : Alike R x y)
    (himp : ∀ a b, x = .ok a → y = .ok b → R a b → S a b) : Alike S x y := by
  cases h with
  | ok h => exact ok (himp _ _ rfl rfl h)
  | error e => exact error e

theorem exists_right {x : Except ε α} {y : Except ε β} (h : Alike R x y) {a : α}
    (hx : x = .ok a) : ∃ b, y = .ok b ∧ R a b := by
  cases h with
  | ok h =>
      obtain rfl := Except.ok.inj hx
      exact ⟨_, rfl, h⟩
  | error e => cases hx

theorem bind {S : γ → σ → Prop} {x : Except ε α} {y : Except ε β} {f : α → Except ε γ}
    {g : β → Except ε σ} (h : Alike R x y) (hfg : ∀ a b, R a b → Alike S (f a) (g b)) :
    Alike S (x >>= f) (y >>= g) := by
  cases h with
  | ok h => exact hfg _ _ h
  | error e => exact error e

theorem map {S : γ → σ → Prop} {x : Except ε α} {y : Except ε β} {f : α → γ} {g : β → σ}
    (h : Alike R x y) (hfg : ∀ a b, R a b → S (f a) (g b)) : Alike S (x.map f) (y.map g) := by
  cases h with
  | ok h => exact ok (hfg _ _ h)
  | error e => exact error e

/-- Attempts one after the other, each alike. -/
theorem mapM {X Y : Type} {S : X → Y → Prop} {f : X → Except ε α} {g : Y → Except ε β}
    {xs : List X} {ys : List Y} (h : List.Forall₂ S xs ys)
    (hfg : ∀ x y, S x y → Alike R (f x) (g y)) :
    Alike (List.Forall₂ R) (xs.mapM f) (ys.mapM g) := by
  induction h with
  | nil => exact ok List.Forall₂.nil
  | cons hxy _ ih =>
      rw [List.mapM_cons, List.mapM_cons]
      apply (hfg _ _ hxy).bind
      intro a b hab
      apply ih.bind
      intro as bs habs
      exact ok (List.Forall₂.cons hab habs)

/-- Two folds that take related steps end alike. -/
theorem foldlM {X Y : Type} {S : X → Y → Prop} {f : α → X → Except ε α} {g : β → Y → Except ε β}
    {xs : List X} {ys : List Y} (h : List.Forall₂ S xs ys)
    (hfg : ∀ x y, S x y → ∀ a b, R a b → Alike R (f a x) (g b y)) {a : α} {b : β} (hab : R a b) :
    Alike R (xs.foldlM f a) (ys.foldlM g b) := by
  induction h generalizing a b with
  | nil => exact ok hab
  | cons hxy _ ih =>
      rw [List.foldlM_cons, List.foldlM_cons]
      exact (hfg _ _ hxy a b hab).bind fun a' b' hab' => ih hab'

end Alike

end Attempts
