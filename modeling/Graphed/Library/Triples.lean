import Graphed.Library.Effects
import Mathlib.Logic.Relation

/-!
# Pre- and postconditions of programs

A program may be stopped wherever it has come to, and in the middle of the query it is asking. A
triple says which queries a program may ask and how it may end; what every allowed query keeps then
holds wherever the program is stopped.
-/

namespace Effects

open Prog

variable {Q : Type} {A : Q → Type} {M σ ε α β : Type} {W : World Q A M σ}
variable {G : σ → Q → Prop} {P P' : σ → Prop} {R R' : Except ε α → σ → Prop}
variable {s s' s'' : σ}

/-! ### What others do -/

/-- Other parties may move the world from here to there. -/
abbrev Drifts (W : World Q A M σ) : σ → σ → Prop :=
  Relation.ReflTransGen fun s s' => ∃ m, W.moves s m s'

/-- No other party's move ends what a predicate says. -/
def Lasts (W : World Q A M σ) (P : σ → Prop) : Prop := ∀ s m s', P s → W.moves s m s' → P s'

theorem Lasts.drifts (hstable : Lasts W P) (hP : P s) (h : Drifts W s s') : P s' := by
  induction h with
  | refl => exact hP
  | tail _ hmove ih =>
      obtain ⟨m, hmove⟩ := hmove
      exact hstable _ m _ ih hmove

theorem Lasts.and (hP : Lasts W P) (hP' : Lasts W P') : Lasts W fun s => P s ∧ P' s := by
  intro s m s' h hmove
  exact ⟨hP s m s' h.1 hmove, hP' s m s' h.2 hmove⟩

theorem stable_const (p : Prop) : Lasts W fun _ => p := fun _ _ _ h _ => h

/-! ### Where a program may be -/

/-- Started with the world at the one state, the program may have come so far with the world at the
other. -/
inductive Arrives (W : World Q A M σ) : Prog Q A ε α → σ → Prog Q A ε α → σ → Prop
  | here {p : Prog Q A ε α} {s : σ} : Arrives W p s p s
  | ask {q : Q} {a : A q} {next : A q → Prog Q A ε α} {p : Prog Q A ε α} {s s' s'' : σ} :
      W.answers s q a s' → Arrives W (next a) s' p s'' → Arrives W (.ask q next) s p s''
  | move {m : M} {p p' : Prog Q A ε α} {s s' s'' : σ} :
      W.moves s m s' → Arrives W p s' p' s'' → Arrives W p s p' s''

/-- The program is stopped somewhere; in the middle of a query when `cut` says what that leaves. -/
def Stops (W : World Q A M σ) (cut : σ → Q → σ → Prop) (p : Prog Q A ε α) (s s' : σ) : Prop :=
  ∃ p' r, Arrives W p s p' r ∧ (s' = r ∨ ∃ q next, p' = .ask q next ∧ cut r q s')

theorem Drifts.arrives {p p' : Prog Q A ε α} (h : Drifts W s s') (harr : Arrives W p s' p' s'') :
    Arrives W p s p' s'' := by
  induction h using Relation.ReflTransGen.head_induction_on with
  | refl => exact harr
  | head hmove _ ih =>
      obtain ⟨m, hmove⟩ := hmove
      exact Arrives.move hmove ih

/-- A program that asks nothing stays where it is. -/
theorem Arrives.of_done {p p' : Prog Q A ε α} (hp : ∀ q next, p ≠ .ask q next)
    (h : Arrives W p s p' s') : p' = p ∧ Drifts W s s' := by
  induction h with
  | here => exact ⟨rfl, Relation.ReflTransGen.refl⟩
  | ask => exact absurd rfl (hp _ _)
  | move hmove _ ih => exact ⟨(ih hp).1, Relation.ReflTransGen.head ⟨_, hmove⟩ (ih hp).2⟩

theorem arrives_ask {q : Q} {next : A q → Prog Q A ε α} {p : Prog Q A ε α} :
    Arrives W (.ask q next) s p s'' ↔ (p = .ask q next ∧ Drifts W s s'') ∨
      ∃ r a s', Drifts W s r ∧ W.answers r q a s' ∧ Arrives W (next a) s' p s'' := by
  constructor
  · intro h
    generalize hp : Prog.ask q next = p₀ at h
    induction h with
    | here => exact Or.inl ⟨rfl, Relation.ReflTransGen.refl⟩
    | ask hanswer hrest =>
        obtain ⟨rfl, hnext⟩ := Prog.ask.inj hp
        obtain rfl := eq_of_heq hnext
        exact Or.inr ⟨_, _, _, Relation.ReflTransGen.refl, hanswer, hrest⟩
    | move hmove _ ih =>
        rcases ih hp with ⟨rfl, hdrift⟩ | ⟨r, a, s', hdrift, hanswer, hrest⟩
        · exact Or.inl ⟨rfl, Relation.ReflTransGen.head ⟨_, hmove⟩ hdrift⟩
        · exact Or.inr ⟨r, a, s', Relation.ReflTransGen.head ⟨_, hmove⟩ hdrift, hanswer, hrest⟩
  · rintro (⟨rfl, hdrift⟩ | ⟨r, a, s', hdrift, hanswer, hrest⟩)
    · exact hdrift.arrives Arrives.here
    · exact hdrift.arrives (Arrives.ask hanswer hrest)

/-- A bind is in its first program, or past it. -/
theorem Arrives.of_bind {p : Prog Q A ε α} {f : α → Prog Q A ε β} {p' : Prog Q A ε β}
    (h : Arrives W (p.bind f) s p' s') :
    (∃ p₀, Arrives W p s p₀ s' ∧ p' = p₀.bind f) ∨
      ∃ a r, Arrives W p s (.ret a) r ∧ Arrives W (f a) r p' s' := by
  induction p generalizing s with
  | ret a => exact Or.inr ⟨a, s, Arrives.here, h⟩
  | raise e =>
      obtain ⟨rfl, hdrift⟩ := h.of_done (fun _ _ => by simp [Prog.bind])
      exact Or.inl ⟨.raise e, hdrift.arrives Arrives.here, rfl⟩
  | ask q next ih =>
      rcases arrives_ask.mp h with ⟨rfl, hdrift⟩ | ⟨r, a, r', hdrift, hanswer, hrest⟩
      · exact Or.inl ⟨.ask q next, hdrift.arrives Arrives.here, rfl⟩
      · rcases ih a hrest with ⟨p₀, hfirst, rfl⟩ | ⟨b, r'', hfirst, hsecond⟩
        · exact Or.inl ⟨p₀, hdrift.arrives (Arrives.ask hanswer hfirst), rfl⟩
        · exact Or.inr ⟨b, r'', hdrift.arrives (Arrives.ask hanswer hfirst), hsecond⟩

/-- A program that reports its end is where the program itself is. -/
theorem Arrives.of_attempt {p : Prog Q A ε α} {p' : Prog Q A ε (Except ε α)}
    (h : Arrives W p.attempt s p' s') : ∃ p₀, Arrives W p s p₀ s' ∧ p' = p₀.attempt := by
  induction p generalizing s with
  | ret a =>
      obtain ⟨rfl, hdrift⟩ := h.of_done (fun _ _ => by simp [Prog.attempt])
      exact ⟨.ret a, hdrift.arrives Arrives.here, rfl⟩
  | raise e =>
      obtain ⟨rfl, hdrift⟩ := h.of_done (fun _ _ => by simp [Prog.attempt])
      exact ⟨.raise e, hdrift.arrives Arrives.here, rfl⟩
  | ask q next ih =>
      rcases arrives_ask.mp h with ⟨rfl, hdrift⟩ | ⟨r, a, r', hdrift, hanswer, hrest⟩
      · exact ⟨.ask q next, hdrift.arrives Arrives.here, rfl⟩
      · obtain ⟨p₀, hfirst, rfl⟩ := ih a hrest
        exact ⟨p₀, hdrift.arrives (Arrives.ask hanswer hfirst), rfl⟩

/-- A world that answers the same, and moves at least so much. -/
theorem Runs.arrives {p : Prog Q A ε α} {t : List (Event Q A M)} {a : α}
    (h : Runs W p s t (.ok a) s') : Arrives W p s (.ret a) s' := by
  generalize ho : (Except.ok a : Except ε α) = o at h
  induction h with
  | ret =>
      obtain rfl := Except.ok.inj ho
      exact Arrives.here
  | raise => exact absurd ho (by simp)
  | ask hanswer _ ih => exact Arrives.ask hanswer (ih ho)
  | move hmove _ ih => exact Arrives.move hmove (ih ho)

/-- The run in which a function answers and no other party moves. -/
def exec (step : σ → (q : Q) → A q × σ) : Prog Q A ε α → σ → Except ε α × σ
  | .ret a, s => (.ok a, s)
  | .raise e, s => (.error e, s)
  | .ask q next, s => exec step (next (step s q).1) (step s q).2

/-- The first queries of that run, and what is left of the program. -/
def execFor (step : σ → (q : Q) → A q × σ) : Nat → Prog Q A ε α → σ → Prog Q A ε α × σ
  | n + 1, .ask q next, s => execFor step n (next (step s q).1) (step s q).2
  | _, p, s => (p, s)

theorem arrives_execFor {step : σ → (q : Q) → A q × σ}
    (hstep : ∀ s q, W.answers s q (step s q).1 (step s q).2) (n : Nat) (p : Prog Q A ε α) (s : σ) :
    Arrives W p s (execFor step n p s).1 (execFor step n p s).2 := by
  induction n generalizing p s with
  | zero => cases p <;> exact Arrives.here
  | succ n ih =>
      cases p with
      | ask q next => exact Arrives.ask (hstep s q) (ih _ _)
      | _ => exact Arrives.here

theorem arrives_exec_end {step : σ → (q : Q) → A q × σ}
    (hstep : ∀ s q, W.answers s q (step s q).1 (step s q).2) (p : Prog Q A ε α) (s : σ) :
    Arrives W p s (.ofExcept (exec step p s).1) (exec step p s).2 := by
  induction p generalizing s with
  | ret a => exact Arrives.here
  | raise e => exact Arrives.here
  | ask q next ih => exact Arrives.ask (hstep s q) (ih _ _)

theorem arrives_exec {step : σ → (q : Q) → A q × σ}
    (hstep : ∀ s q, W.answers s q (step s q).1 (step s q).2) {p : Prog Q A ε α} {a : α}
    (h : exec step p s = (.ok a, s')) : Arrives W p s (.ret a) s' := by
  have hend := arrives_exec_end hstep p s
  rw [h] at hend
  exact hend

/-- Something holds of every query a program has in it, and of what it does with the answer. -/
def Everywhere (φ : (q : Q) → (A q → Prog Q A ε α) → Prop) : Prog Q A ε α → Prop
  | .ret _ => True
  | .raise _ => True
  | .ask q next => φ q next ∧ ∀ a, Everywhere φ (next a)

theorem everywhere_ofExcept {φ : (q : Q) → (A q → Prog Q A ε α) → Prop} (x : Except ε α) :
    Everywhere φ (.ofExcept x) := by
  cases x with
  | ok a => trivial
  | error e => trivial

theorem everywhere_bind {φ : (q : Q) → (A q → Prog Q A ε α) → Prop}
    {φ' : (q : Q) → (A q → Prog Q A ε β) → Prop} {p : Prog Q A ε α} {f : α → Prog Q A ε β}
    (hp : Everywhere φ p) (hφ : ∀ q next, φ q next → φ' q fun a => (next a).bind f)
    (hf : ∀ a, Everywhere φ' (f a)) : Everywhere φ' (p.bind f) := by
  induction p with
  | ret a => exact hf a
  | raise e => trivial
  | ask q next ih => exact ⟨hφ q next hp.1, fun a => ih a (hp.2 a)⟩

theorem Everywhere.arrives {φ : (q : Q) → (A q → Prog Q A ε α) → Prop} {p : Prog Q A ε α} {q : Q}
    {next : A q → Prog Q A ε α} (hp : Everywhere φ p) (h : Arrives W p s (.ask q next) s') :
    φ q next := by
  generalize hp' : Prog.ask q next = p' at h
  induction h with
  | here =>
      subst hp'
      exact hp.1
  | ask _ _ ih => exact ih (hp.2 _) hp'
  | move _ _ ih => exact ih hp hp'

/-! ### Triples -/

/-- From a world in `P` the program asks only what `G` allows, and ends in `R`. -/
def Triple (W : World Q A M σ) (G : σ → Q → Prop) (P : σ → Prop) (p : Prog Q A ε α)
    (R : Except ε α → σ → Prop) : Prop :=
  ∀ s, P s → ∀ p' s', Arrives W p s p' s' →
    match p' with
    | .ret a => R (.ok a) s'
    | .raise e => R (.error e) s'
    | .ask q _ => G s' q

theorem Triple.weaken {p : Prog Q A ε α} (h : Triple W G P p R) (hP : ∀ s, P' s → P s)
    (hR : ∀ o s, R o s → R' o s) : Triple W G P' p R' := by
  intro s hs p' s' harr
  have hp' := h s (hP s hs) p' s' harr
  cases p' with
  | ret a => exact hR _ _ hp'
  | raise e => exact hR _ _ hp'
  | ask q next => exact hp'

theorem triple_ret {a : α} (hstable : Lasts W (R (.ok a))) (h : ∀ s, P s → R (.ok a) s) :
    Triple W G P (.ret a) R := by
  intro s hs p' s' harr
  obtain ⟨rfl, hdrift⟩ := harr.of_done (fun _ _ => by simp)
  exact hstable.drifts (h s hs) hdrift

theorem triple_raise {e : ε} (hstable : Lasts W (R (.error e))) (h : ∀ s, P s → R (.error e) s) :
    Triple W G P (.raise e) R := by
  intro s hs p' s' harr
  obtain ⟨rfl, hdrift⟩ := harr.of_done (fun _ _ => by simp)
  exact hstable.drifts (h s hs) hdrift

theorem triple_ofExcept {x : Except ε α} (hstable : Lasts W (R x)) (h : ∀ s, P s → R x s) :
    Triple W G P (.ofExcept x) R := by
  cases x with
  | ok a => exact triple_ret hstable h
  | error e => exact triple_raise hstable h

theorem triple_ask {q : Q} {next : A q → Prog Q A ε α} {S : A q → σ → Prop}
    (hstable : Lasts W P) (hG : ∀ s, P s → G s q)
    (hanswer : ∀ s a s', P s → W.answers s q a s' → S a s')
    (hnext : ∀ a, Triple W G (S a) (next a) R) : Triple W G P (.ask q next) R := by
  intro s hs p' s' harr
  rcases arrives_ask.mp harr with ⟨rfl, hdrift⟩ | ⟨r, a, r', hdrift, hans, hrest⟩
  · exact hG s' (hstable.drifts hs hdrift)
  · exact hnext a r' (hanswer r a r' (hstable.drifts hs hdrift) hans) p' s' hrest

theorem triple_query {q : Q} {R : Except ε (A q) → σ → Prop} (hstable : Lasts W P)
    (hG : ∀ s, P s → G s q) (hR : ∀ a, Lasts W (R (.ok a)))
    (hanswer : ∀ s a s', P s → W.answers s q a s' → R (.ok a) s') :
    Triple W G P (Prog.query q) R :=
  triple_ask hstable hG hanswer fun a => triple_ret (hR a) fun _ h => h

theorem triple_bind {p : Prog Q A ε α} {f : α → Prog Q A ε β} {S : Except ε β → σ → Prop}
    (hp : Triple W G P p R) (hf : ∀ a, Triple W G (R (.ok a)) (f a) S)
    (herr : ∀ e s, R (.error e) s → S (.error e) s) : Triple W G P (p.bind f) S := by
  intro s hs p' s' harr
  rcases harr.of_bind with ⟨p₀, hfirst, rfl⟩ | ⟨a, r, hfirst, hsecond⟩
  · have hp₀ := hp s hs p₀ s' hfirst
    cases p₀ with
    | ret a => exact hf a s' hp₀ _ _ Arrives.here
    | raise e => exact herr e s' hp₀
    | ask q next => exact hp₀
  · exact hf a r (hp s hs _ r hfirst) p' s' hsecond

theorem triple_attempt {p : Prog Q A ε α} {S : Except ε (Except ε α) → σ → Prop}
    (h : Triple W G P p fun o => S (.ok o)) : Triple W G P p.attempt S := by
  intro s hs p' s' harr
  obtain ⟨p₀, hfirst, rfl⟩ := harr.of_attempt
  have hp₀ := h s hs p₀ s' hfirst
  cases p₀ with
  | ret a => exact hp₀
  | raise e => exact hp₀
  | ask q next => exact hp₀

/-! ### What runs keep -/

/-- What every allowed query and every other party's move keeps holds wherever the program is. -/
theorem Triple.invariant {I : σ → Prop} {p p' : Prog Q A ε α} (h : Triple W G P p R)
    (hstable : Lasts W I) (hkeep : ∀ s q a s', I s → G s q → W.answers s q a s' → I s')
    (hP : P s) (hI : I s) (harr : Arrives W p s p' s') : I s' := by
  have hG : ∀ q next r, Arrives W p s (.ask q next) r → G r q := fun q next r harr =>
    h s hP _ r harr
  clear h hP
  induction harr with
  | here => exact hI
  | ask hanswer _ ih =>
      refine ih (hkeep _ _ _ _ hI (hG _ _ _ Arrives.here) hanswer) ?_
      intro q next r harr
      exact hG q next r (Arrives.ask hanswer harr)
  | move hmove _ ih =>
      refine ih (hstable _ _ _ hI hmove) ?_
      intro q next r harr
      exact hG q next r (Arrives.move hmove harr)

/-- So it does where the program is stopped, when a query cut short keeps it too. -/
theorem Triple.stops {I : σ → Prop} {cut : σ → Q → σ → Prop} {p : Prog Q A ε α}
    (h : Triple W G P p R) (hstable : Lasts W I)
    (hkeep : ∀ s q a s', I s → G s q → W.answers s q a s' → I s')
    (hcut : ∀ s q s', I s → G s q → cut s q s' → I s') (hP : P s) (hI : I s)
    (hstops : Stops W cut p s s') : I s' := by
  obtain ⟨p', r, harr, hend⟩ := hstops
  have hr := h.invariant hstable hkeep hP hI harr
  rcases hend with rfl | ⟨q, next, rfl, hqs⟩
  · exact hr
  · exact hcut r q s' hr (h s hP _ r harr) hqs

end Effects
