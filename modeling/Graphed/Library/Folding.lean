/-!
# Reductions that may raise

An operation that may raise and is associative on the values it gives, with an identity: however a
list of computations is bracketed, with the identity anywhere, the same values come out. What is
raised may differ.
-/

namespace Graphed

variable {ε V W : Type}

/-- Two computations that return the same values. -/
def Agree (x y : Except ε V) : Prop := ∀ v, x = .ok v ↔ y = .ok v

namespace Agree

theorem refl (x : Except ε V) : Agree x x := fun _ => Iff.rfl

theorem symm {x y : Except ε V} (h : Agree x y) : Agree y x := fun v => (h v).symm

theorem trans {x y z : Except ε V} (h : Agree x y) (h' : Agree y z) : Agree x z :=
  fun v => (h v).trans (h' v)

end Agree

theorem ok_of_bind {x : Except ε V} {f : V → Except ε W} {w : W} :
    (x >>= f) = .ok w ↔ ∃ v, x = .ok v ∧ f v = .ok w := by
  cases x with
  | error e =>
      constructor
      · intro h
        cases h
      · rintro ⟨v, h, -⟩
        cases h
  | ok v =>
      constructor
      · exact fun h => ⟨v, rfl, h⟩
      · rintro ⟨_, h, hw⟩
        obtain rfl := Except.ok.inj h
        exact hw

theorem Agree.bind {x y : Except ε V} {f g : V → Except ε W} (h : Agree x y)
    (hfg : ∀ v, x = .ok v → Agree (f v) (g v)) : Agree (x >>= f) (y >>= g) := by
  intro w
  simp only [ok_of_bind]
  apply exists_congr
  intro v
  rw [h v]
  apply and_congr_right
  intro hy
  exact hfg v ((h v).mpr hy) w

/-- The operation keeps the good values, and on them it is associative and `one` its identity. -/
structure Laws (good : V → Prop) (op : V → V → Except ε V) (one : V) : Prop where
  one_good : good one
  closed : ∀ {a b c}, good a → good b → op a b = .ok c → good c
  left : ∀ {a}, good a → op one a = .ok a
  right : ∀ {a}, good a → op a one = .ok a
  assoc : ∀ {a b c}, good a → good b → good c →
    Agree (op a b >>= fun x => op x c) (op b c >>= fun x => op a x)

/-- Reduce what computations give, from the right. -/
def reduceAll (op : V → V → Except ε V) (one : V) : List (Except ε V) → Except ε V
  | [] => .ok one
  | x :: xs => do
      let a ← x
      let b ← reduceAll op one xs
      op a b

section Laws

variable {good : V → Prop} {op : V → V → Except ε V} {one : V} {xs ys : List (Except ε V)}

theorem reduceAll_good (h : Laws good op one) (hxs : ∀ x ∈ xs, ∀ v, x = .ok v → good v) {v : V}
    (hv : reduceAll op one xs = .ok v) : good v := by
  induction xs generalizing v with
  | nil =>
      obtain rfl := Except.ok.inj hv
      exact h.one_good
  | cons x xs ih =>
      obtain ⟨a, ha, hv⟩ := ok_of_bind.mp hv
      obtain ⟨b, hb, hv⟩ := ok_of_bind.mp hv
      exact h.closed (hxs x List.mem_cons_self a ha)
        (ih (fun y hy => hxs y (List.mem_cons_of_mem _ hy)) hb) hv

theorem reduceAll_singleton (h : Laws good op one) {x : Except ε V}
    (hx : ∀ v, x = .ok v → good v) : Agree (reduceAll op one [x]) x := by
  intro v
  change (x >>= fun a => op a one) = .ok v ↔ _
  rw [ok_of_bind]
  constructor
  · rintro ⟨a, rfl, ha⟩
    rw [h.right (hx a rfl)] at ha
    rw [ha]
  · rintro rfl
    exact ⟨v, rfl, h.right (hx v rfl)⟩

/-- **Reducing is a homomorphism**, by induction on the first list. -/
theorem reduceAll_append (h : Laws good op one) (hxs : ∀ x ∈ xs, ∀ v, x = .ok v → good v)
    (hys : ∀ y ∈ ys, ∀ v, y = .ok v → good v) :
    Agree (reduceAll op one (xs ++ ys))
      (reduceAll op one xs >>= fun a => reduceAll op one ys >>= fun b => op a b) := by
  induction xs with
  | nil =>
      intro v
      change reduceAll op one ys = .ok v ↔ (reduceAll op one ys >>= fun b => op one b) = .ok v
      rw [ok_of_bind]
      constructor
      · intro hv
        exact ⟨v, hv, h.left (reduceAll_good h hys hv)⟩
      · rintro ⟨b, hb, hv⟩
        rw [h.left (reduceAll_good h hys hb)] at hv
        rw [hb, hv]
  | cons x xs ih =>
      have hrest := ih fun y hy => hxs y (List.mem_cons_of_mem _ hy)
      intro v
      simp only [reduceAll, List.cons_append, bind_assoc]
      simp only [ok_of_bind]
      apply exists_congr
      intro a
      apply and_congr_right
      intro ha
      have hgood := hxs x List.mem_cons_self a ha
      constructor
      · rintro ⟨c, hc, hv⟩
        obtain ⟨b, hb, hc⟩ := ok_of_bind.mp ((hrest c).mp hc)
        obtain ⟨y, hy, hc⟩ := ok_of_bind.mp hc
        have hassoc := h.assoc hgood
          (reduceAll_good h (fun z hz => hxs z (List.mem_cons_of_mem _ hz)) hb)
          (reduceAll_good h hys hy) v
        obtain ⟨m, hm, hv⟩ := ok_of_bind.mp (hassoc.mpr (ok_of_bind.mpr ⟨c, hc, hv⟩))
        exact ⟨b, hb, m, hm, y, hy, hv⟩
      · rintro ⟨b, hb, m, hm, y, hy, hv⟩
        have hassoc := h.assoc hgood
          (reduceAll_good h (fun z hz => hxs z (List.mem_cons_of_mem _ hz)) hb)
          (reduceAll_good h hys hy) v
        obtain ⟨c, hc, hv⟩ := ok_of_bind.mp (hassoc.mp (ok_of_bind.mpr ⟨m, hm, hv⟩))
        refine ⟨c, (hrest c).mpr ?_, hv⟩
        exact ok_of_bind.mpr ⟨b, hb, ok_of_bind.mpr ⟨y, hy, hc⟩⟩

end Laws

/-! ### Folds that refuse

A fold whose step refuses what would not be fine beside all it has taken. -/

section Guarded

variable {σ β : Type} (step : σ → β → Except ε σ) (holds : σ → List β → Prop)
  (fine : List β → Prop)

/-- The fold succeeds just when all of it is fine, by induction on what is left. -/
theorem foldlM_guarded (hcut : ∀ xs ys, fine (xs ++ ys) → fine xs)
    (hstep : ∀ s d x, holds s d → fine d →
      ((∃ s', step s x = .ok s') ↔ fine (d ++ [x])) ∧
        ∀ s', step s x = .ok s' → holds s' (d ++ [x]))
    {s : σ} {d : List β} (hs : holds s d) (hd : fine d) (xs : List β) :
    ((∃ s', xs.foldlM step s = .ok s') ↔ fine (d ++ xs)) ∧
      ∀ s', xs.foldlM step s = .ok s' → holds s' (d ++ xs) := by
  induction xs generalizing s d with
  | nil =>
      rw [List.append_nil]
      refine ⟨⟨fun _ => hd, fun _ => ⟨s, rfl⟩⟩, ?_⟩
      intro s' h
      obtain rfl := Except.ok.inj h
      exact hs
  | cons x xs ih =>
      obtain ⟨hiff, hholds⟩ := hstep s d x hs hd
      have happend : d ++ x :: xs = d ++ [x] ++ xs := by
        rw [List.append_assoc]
        rfl
      rw [List.foldlM_cons, happend]
      constructor
      · constructor
        · rintro ⟨s', hs'⟩
          obtain ⟨mid, hmid, hrest⟩ := ok_of_bind.mp hs'
          exact (ih (hholds mid hmid) (hiff.mp ⟨mid, hmid⟩)).1.mp ⟨s', hrest⟩
        · intro hfine
          obtain ⟨mid, hmid⟩ := hiff.mpr (hcut _ _ hfine)
          obtain ⟨s', hs'⟩ := (ih (hholds mid hmid) (hcut _ _ hfine)).1.mpr hfine
          exact ⟨s', ok_of_bind.mpr ⟨mid, hmid, hs'⟩⟩
      · intro s' hs'
        obtain ⟨mid, hmid, hrest⟩ := ok_of_bind.mp hs'
        exact (ih (hholds mid hmid) (hiff.mp ⟨mid, hmid⟩)).2 s' hrest

end Guarded

end Graphed
