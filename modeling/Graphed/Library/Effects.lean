import Mathlib.Tactic.Common

/-!
# Programs that ask a world

A program asks queries of a world and returns or raises. Between any two queries other parties may
move the world. A run records what was asked and how others moved; it is taken apart along the
program: a bind is one run after the other, and a cleanup runs after its body whatever the body did.
-/

namespace Effects

inductive Prog (Q : Type) (A : Q → Type) (ε α : Type) where
  | ret (a : α)
  | raise (e : ε)
  | ask (q : Q) (next : A q → Prog Q A ε α)

variable {Q : Type} {A : Q → Type} {ε α β : Type}

namespace Prog

def bind : Prog Q A ε α → (α → Prog Q A ε β) → Prog Q A ε β
  | ret a, f => f a
  | raise e, _ => raise e
  | ask q next, f => ask q fun a => (next a).bind f

instance : Monad (Prog Q A ε) where
  pure := ret
  bind := bind

/-- Ask one query. -/
def query (q : Q) : Prog Q A ε (A q) := ask q ret

def ofExcept : Except ε α → Prog Q A ε α
  | .ok a => ret a
  | .error e => raise e

/-- The program with its end reported: what it returned or raised. -/
def attempt : Prog Q A ε α → Prog Q A ε (Except ε α)
  | ret a => ret (.ok a)
  | raise e => ret (.error e)
  | ask q next => ask q fun a => (next a).attempt

/-- Run `cleanup` after the program, whether it returned or raised. -/
def ensure : Prog Q A ε α → Prog Q A ε Unit → Prog Q A ε α
  | ret a, cleanup => cleanup.bind fun _ => ret a
  | raise e, cleanup => cleanup.bind fun _ => raise e
  | ask q next, cleanup => ask q fun a => (next a).ensure cleanup

theorem bind_def (p : Prog Q A ε α) (f : α → Prog Q A ε β) : p >>= f = p.bind f := rfl

theorem pure_def (a : α) : (pure a : Prog Q A ε α) = ret a := rfl

end Prog

/-- Which answers a query may get, and how other parties may move the world. -/
structure World (Q : Type) (A : Q → Type) (M σ : Type) where
  answers : σ → (q : Q) → A q → σ → Prop
  moves : σ → M → σ → Prop

/-- One line of a run's record. -/
inductive Event (Q : Type) (A : Q → Type) (M : Type) where
  | asked (q : Q) (a : A q)
  | moved (m : M)

variable {M σ : Type}

/-- The runs of a program: its record, how it ended, and the world it left. -/
inductive Runs (W : World Q A M σ) :
    Prog Q A ε α → σ → List (Event Q A M) → Except ε α → σ → Prop
  | ret {a : α} {s : σ} : Runs W (.ret a) s [] (.ok a) s
  | raise {e : ε} {s : σ} : Runs W (.raise e) s [] (.error e) s
  | ask {q : Q} {a : A q} {next : A q → Prog Q A ε α} {s s' s'' : σ} {t : List (Event Q A M)}
      {o : Except ε α} : W.answers s q a s' → Runs W (next a) s' t o s'' →
      Runs W (.ask q next) s (.asked q a :: t) o s''
  | move {m : M} {p : Prog Q A ε α} {s s' s'' : σ} {t : List (Event Q A M)} {o : Except ε α} :
      W.moves s m s' → Runs W p s' t o s'' → Runs W p s (.moved m :: t) o s''

variable {W : World Q A M σ} {s s' s'' : σ} {t : List (Event Q A M)}

/-- Other parties moved the world along the record. -/
inductive Moves (W : World Q A M σ) : σ → List (Event Q A M) → σ → Prop
  | done {s : σ} : Moves W s [] s
  | move {m : M} {s s' s'' : σ} {t : List (Event Q A M)} :
      W.moves s m s' → Moves W s' t s'' → Moves W s (.moved m :: t) s''

theorem Moves.runs (hmoves : Moves W s t s') {p : Prog Q A ε α} {t' : List (Event Q A M)}
    {o : Except ε α} (h : Runs W p s' t' o s'') : Runs W p s (t ++ t') o s'' := by
  induction hmoves with
  | done => exact h
  | move hmove _ ih => exact Runs.move hmove (ih h)

theorem Moves.trans {t' : List (Event Q A M)} (h : Moves W s t s') (h' : Moves W s' t' s'') :
    Moves W s (t ++ t') s'' := by
  induction h with
  | done => exact h'
  | move hmove _ ih => exact Moves.move hmove (ih h')

theorem runs_ret {a : α} {o : Except ε α} :
    Runs W (.ret a) s t o s' ↔ o = .ok a ∧ Moves W s t s' := by
  constructor
  · intro h
    generalize hp : Prog.ret a = p at h
    induction h with
    | ret =>
        obtain rfl := Prog.ret.inj hp
        exact ⟨rfl, Moves.done⟩
    | raise => exact absurd hp (by simp)
    | ask => exact absurd hp (by simp)
    | move hmove _ ih => exact ⟨(ih hp).1, Moves.move hmove (ih hp).2⟩
  · rintro ⟨rfl, hmoves⟩
    simpa using hmoves.runs Runs.ret

theorem runs_raise {e : ε} {o : Except ε α} :
    Runs W (.raise e) s t o s' ↔ o = .error e ∧ Moves W s t s' := by
  constructor
  · intro h
    generalize hp : Prog.raise e = p at h
    induction h with
    | raise =>
        obtain rfl := Prog.raise.inj hp
        exact ⟨rfl, Moves.done⟩
    | ret => exact absurd hp (by simp)
    | ask => exact absurd hp (by simp)
    | move hmove _ ih => exact ⟨(ih hp).1, Moves.move hmove (ih hp).2⟩
  · rintro ⟨rfl, hmoves⟩
    simpa using hmoves.runs Runs.raise

/-- A query is asked after some moves. -/
theorem runs_ask {q : Q} {next : A q → Prog Q A ε α} {o : Except ε α} :
    Runs W (.ask q next) s t o s' ↔ ∃ t₁ s₁ a s₂ t₂, Moves W s t₁ s₁ ∧ W.answers s₁ q a s₂ ∧
      Runs W (next a) s₂ t₂ o s' ∧ t = t₁ ++ .asked q a :: t₂ := by
  constructor
  · intro h
    generalize hp : Prog.ask q next = p at h
    induction h with
    | ret => exact absurd hp (by simp)
    | raise => exact absurd hp (by simp)
    | ask hanswer hrun =>
        obtain ⟨rfl, hnext⟩ := Prog.ask.inj hp
        obtain rfl := eq_of_heq hnext
        exact ⟨[], _, _, _, _, Moves.done, hanswer, hrun, rfl⟩
    | move hmove _ ih =>
        obtain ⟨t₁, s₁, a, s₂, t₂, hmoves, hanswer, hrun, rfl⟩ := ih hp
        exact ⟨_, s₁, a, s₂, t₂, Moves.move hmove hmoves, hanswer, hrun, rfl⟩
  · rintro ⟨t₁, s₁, a, s₂, t₂, hmoves, hanswer, hrun, rfl⟩
    exact hmoves.runs (Runs.ask hanswer hrun)

/-- Others may still move the world when a program has ended. -/
theorem Runs.moves {p : Prog Q A ε α} {o : Except ε α} {t' : List (Event Q A M)}
    (h : Runs W p s t o s') (hmoves : Moves W s' t' s'') : Runs W p s (t ++ t') o s'' := by
  induction h with
  | ret => exact runs_ret.mpr ⟨rfl, hmoves⟩
  | raise => exact runs_raise.mpr ⟨rfl, hmoves⟩
  | ask hanswer _ ih => exact Runs.ask hanswer (ih hmoves)
  | move hmove _ ih => exact Runs.move hmove (ih hmoves)

/-- A bind is the first program's run, and the second's unless the first raised. -/
theorem runs_bind {p : Prog Q A ε α} {f : α → Prog Q A ε β} {o : Except ε β} :
    Runs W (p.bind f) s t o s' ↔
      (∃ a t₁ s₁ t₂, Runs W p s t₁ (.ok a) s₁ ∧ Runs W (f a) s₁ t₂ o s' ∧ t = t₁ ++ t₂) ∨
      ∃ e, o = .error e ∧ Runs W p s t (.error e) s' := by
  constructor
  · intro h
    induction p generalizing s t with
    | ret a => exact Or.inl ⟨a, [], s, t, Runs.ret, h, rfl⟩
    | raise e =>
        obtain ⟨rfl, hmoves⟩ := runs_raise.mp h
        exact Or.inr ⟨e, rfl, runs_raise.mpr ⟨rfl, hmoves⟩⟩
    | ask q next ih =>
        obtain ⟨t₁, s₁, a, s₂, t₂, hmoves, hanswer, hrun, rfl⟩ := runs_ask.mp h
        rcases ih a hrun with ⟨b, u₁, r₁, u₂, hfirst, hsecond, rfl⟩ | ⟨e, rfl, hfirst⟩
        · refine Or.inl ⟨b, t₁ ++ .asked q a :: u₁, r₁, u₂, ?_, hsecond, by simp⟩
          exact hmoves.runs (Runs.ask hanswer hfirst)
        · exact Or.inr ⟨e, rfl, hmoves.runs (Runs.ask hanswer hfirst)⟩
  · rintro (⟨a, t₁, s₁, t₂, hfirst, hsecond, rfl⟩ | ⟨e, rfl, hfirst⟩)
    · generalize ho : (Except.ok a : Except ε α) = o' at hfirst
      induction hfirst with
      | ret =>
          obtain rfl := Except.ok.inj ho
          exact hsecond
      | raise => exact absurd ho (by simp)
      | ask hanswer _ ih => exact Runs.ask hanswer (ih hsecond ho)
      | move hmove _ ih => exact Runs.move hmove (ih hsecond ho)
    · generalize ho : (Except.error e : Except ε α) = o' at hfirst
      induction hfirst with
      | ret => exact absurd ho (by simp)
      | raise =>
          obtain rfl := Except.error.inj ho
          exact Runs.raise
      | ask hanswer _ ih => exact Runs.ask hanswer (ih ho)
      | move hmove _ ih => exact Runs.move hmove (ih ho)

theorem runs_query {q : Q} {o : Except ε (A q)} :
    Runs W (Prog.query q) s t o s' ↔ ∃ t₁ s₁ a s₂ t₂, Moves W s t₁ s₁ ∧ W.answers s₁ q a s₂ ∧
      Moves W s₂ t₂ s' ∧ o = .ok a ∧ t = t₁ ++ .asked q a :: t₂ := by
  unfold Prog.query
  simp only [runs_ask, runs_ret]
  constructor
  · rintro ⟨t₁, s₁, a, s₂, t₂, hmoves, hanswer, ⟨rfl, hrest⟩, rfl⟩
    exact ⟨t₁, s₁, a, s₂, t₂, hmoves, hanswer, hrest, rfl, rfl⟩
  · rintro ⟨t₁, s₁, a, s₂, t₂, hmoves, hanswer, hrest, rfl, rfl⟩
    exact ⟨t₁, s₁, a, s₂, t₂, hmoves, hanswer, ⟨rfl, hrest⟩, rfl⟩

/-- How a program ends whose cleanup ended with `c`. -/
def ended (o : Except ε α) : Except ε Unit → Except ε α
  | .ok () => o
  | .error e => .error e

/-- A cleanup runs after its body, whatever the body did. -/
theorem runs_ensure {cleanup : Prog Q A ε Unit} {p : Prog Q A ε α} {o : Except ε α} :
    Runs W (p.ensure cleanup) s t o s' ↔ ∃ o₁ t₁ s₁ c t₂, Runs W p s t₁ o₁ s₁ ∧
      Runs W cleanup s₁ t₂ c s' ∧ o = ended o₁ c ∧ t = t₁ ++ t₂ := by
  constructor
  · intro h
    induction p generalizing s t with
    | ret a =>
        rcases runs_bind.mp h with ⟨u, t₁, s₁, t₂, hclean, hrest, rfl⟩ | ⟨e, rfl, hclean⟩
        · obtain ⟨rfl, hmoves⟩ := runs_ret.mp hrest
          exact ⟨.ok a, [], s, .ok u, t₁ ++ t₂, Runs.ret, hclean.moves hmoves, rfl, rfl⟩
        · exact ⟨.ok a, [], s, .error e, t, Runs.ret, hclean, rfl, rfl⟩
    | raise e =>
        rcases runs_bind.mp h with ⟨u, t₁, s₁, t₂, hclean, hrest, rfl⟩ | ⟨e', rfl, hclean⟩
        · obtain ⟨rfl, hmoves⟩ := runs_raise.mp hrest
          exact ⟨.error e, [], s, .ok u, t₁ ++ t₂, Runs.raise, hclean.moves hmoves, rfl, rfl⟩
        · exact ⟨.error e, [], s, .error e', t, Runs.raise, hclean, rfl, rfl⟩
    | ask q next ih =>
        obtain ⟨t₁, s₁, a, s₂, t₂, hmoves, hanswer, hrun, rfl⟩ := runs_ask.mp h
        obtain ⟨o₁, u₁, r₁, c, u₂, hbody, hclean, rfl, rfl⟩ := ih a hrun
        exact ⟨o₁, t₁ ++ .asked q a :: u₁, r₁, c, u₂, hmoves.runs (Runs.ask hanswer hbody),
          hclean, rfl, by simp⟩
  · rintro ⟨o₁, t₁, s₁, c, t₂, hbody, hclean, rfl, rfl⟩
    induction hbody with
    | ret =>
        cases c with
        | ok u =>
            exact runs_bind.mpr (Or.inl ⟨u, t₂, s', [], hclean, Runs.ret, t₂.append_nil.symm⟩)
        | error e => exact runs_bind.mpr (Or.inr ⟨e, rfl, hclean⟩)
    | raise =>
        cases c with
        | ok u =>
            exact runs_bind.mpr (Or.inl ⟨u, t₂, s', [], hclean, Runs.raise, t₂.append_nil.symm⟩)
        | error e => exact runs_bind.mpr (Or.inr ⟨e, rfl, hclean⟩)
    | ask hanswer _ ih => exact Runs.ask hanswer (ih hclean)
    | move hmove _ ih => exact Runs.move hmove (ih hclean)

/-! ### What a program asks

Without the moves of others, a run leaves the queries it asked and their answers. -/

/-- The program asks these queries, gets these answers, and ends so. -/
inductive Trace : Prog Q A ε α → List ((q : Q) × A q) → Except ε α → Prop
  | ret {a : α} : Trace (.ret a) [] (.ok a)
  | raise {e : ε} : Trace (.raise e) [] (.error e)
  | ask {q : Q} {a : A q} {next : A q → Prog Q A ε α} {l : List ((q : Q) × A q)}
      {o : Except ε α} : Trace (next a) l o → Trace (.ask q next) (⟨q, a⟩ :: l) o

/-- A program whose queries can be answered ends somehow. -/
theorem exists_trace [∀ q, Inhabited (A q)] (p : Prog Q A ε α) : ∃ l o, Trace p l o := by
  induction p with
  | ret a => exact ⟨[], .ok a, Trace.ret⟩
  | raise e => exact ⟨[], .error e, Trace.raise⟩
  | ask q next ih =>
      obtain ⟨l, o, hnext⟩ := ih default
      exact ⟨⟨q, default⟩ :: l, o, Trace.ask hnext⟩

/-- The queries of a record. -/
def asked : List (Event Q A M) → List ((q : Q) × A q)
  | [] => []
  | .asked q a :: t => ⟨q, a⟩ :: asked t
  | .moved _ :: t => asked t

theorem Moves.asked (h : Moves W s t s') : asked t = [] := by
  induction h with
  | done => rfl
  | move _ _ ih => exact ih

theorem Runs.trace {p : Prog Q A ε α} {o : Except ε α} (h : Runs W p s t o s') :
    Trace p (asked t) o := by
  induction h with
  | ret => exact Trace.ret
  | raise => exact Trace.raise
  | ask _ _ ih => exact Trace.ask ih
  | move _ _ ih => exact ih

theorem mem_asked {t : List (Event Q A M)} {q : Q} {a : A q} :
    (⟨q, a⟩ : (q : Q) × A q) ∈ asked t ↔ Event.asked q a ∈ t := by
  induction t with
  | nil => simp [asked]
  | cons e t ih =>
      cases e with
      | asked q' a' => simp [asked, ih]
      | moved m => simp [asked, ih]

variable {l : List ((q : Q) × A q)}

theorem trace_ret {a : α} {o : Except ε α} : Trace (.ret a : Prog Q A ε α) l o ↔
    l = [] ∧ o = .ok a := by
  constructor
  · intro h
    cases h with
    | ret => exact ⟨rfl, rfl⟩
  · rintro ⟨rfl, rfl⟩
    exact Trace.ret

theorem trace_raise {e : ε} {o : Except ε α} : Trace (.raise e : Prog Q A ε α) l o ↔
    l = [] ∧ o = .error e := by
  constructor
  · intro h
    cases h with
    | raise => exact ⟨rfl, rfl⟩
  · rintro ⟨rfl, rfl⟩
    exact Trace.raise

theorem trace_ofExcept {x o : Except ε α} : Trace (Prog.ofExcept x : Prog Q A ε α) l o ↔
    l = [] ∧ o = x := by
  cases x with
  | ok a => exact trace_ret
  | error e => exact trace_raise

theorem trace_ask {q : Q} {next : A q → Prog Q A ε α} {o : Except ε α} :
    Trace (.ask q next) l o ↔ ∃ a l', Trace (next a) l' o ∧ l = ⟨q, a⟩ :: l' := by
  constructor
  · intro h
    cases h with
    | ask hnext => exact ⟨_, _, hnext, rfl⟩
  · rintro ⟨a, l', hnext, rfl⟩
    exact Trace.ask hnext

theorem trace_query {q : Q} {o : Except ε (A q)} :
    Trace (Prog.query q) l o ↔ ∃ a, l = [⟨q, a⟩] ∧ o = .ok a := by
  unfold Prog.query
  simp only [trace_ask, trace_ret]
  constructor
  · rintro ⟨a, l', ⟨rfl, rfl⟩, rfl⟩
    exact ⟨a, rfl, rfl⟩
  · rintro ⟨a, rfl, rfl⟩
    exact ⟨a, [], ⟨rfl, rfl⟩, rfl⟩

theorem trace_bind {p : Prog Q A ε α} {f : α → Prog Q A ε β} {o : Except ε β} :
    Trace (p >>= f) l o ↔
      (∃ a l₁ l₂, Trace p l₁ (.ok a) ∧ Trace (f a) l₂ o ∧ l = l₁ ++ l₂) ∨
      ∃ e, o = .error e ∧ Trace p l (.error e) := by
  rw [Prog.bind_def]
  constructor
  · intro h
    induction p generalizing l with
    | ret a => exact Or.inl ⟨a, [], l, Trace.ret, h, rfl⟩
    | raise e =>
        obtain ⟨rfl, rfl⟩ := trace_raise.mp h
        exact Or.inr ⟨e, rfl, Trace.raise⟩
    | ask q next ih =>
        obtain ⟨a, l', hnext, rfl⟩ := trace_ask.mp h
        rcases ih a hnext with ⟨b, l₁, l₂, hfirst, hsecond, rfl⟩ | ⟨e, rfl, hfirst⟩
        · exact Or.inl ⟨b, _, l₂, Trace.ask hfirst, hsecond, rfl⟩
        · exact Or.inr ⟨e, rfl, Trace.ask hfirst⟩
  · rintro (⟨a, l₁, l₂, hfirst, hsecond, rfl⟩ | ⟨e, rfl, hfirst⟩)
    · induction p generalizing l₁ with
      | ret b =>
          obtain ⟨rfl, ho⟩ := trace_ret.mp hfirst
          obtain rfl := Except.ok.inj ho
          exact hsecond
      | raise e => exact absurd (trace_raise.mp hfirst).2 (by simp)
      | ask q next ih =>
          obtain ⟨b, l', hnext, rfl⟩ := trace_ask.mp hfirst
          exact Trace.ask (ih b l' hnext)
    · induction p generalizing l with
      | ret b => exact absurd (trace_ret.mp hfirst).2 (by simp)
      | raise e' =>
          obtain ⟨rfl, ho⟩ := trace_raise.mp hfirst
          obtain rfl := Except.error.inj ho
          exact Trace.raise
      | ask q next ih =>
          obtain ⟨b, l', hnext, rfl⟩ := trace_ask.mp hfirst
          exact Trace.ask (ih b hnext)

theorem trace_bind_pure {p : Prog Q A ε α} {g : α → β} {o : Except ε β} :
    Trace (p >>= fun a => pure (g a)) l o ↔ ∃ o', Trace p l o' ∧ o = o'.map g := by
  simp only [trace_bind, Prog.pure_def, trace_ret]
  constructor
  · rintro (⟨a, l₁, l₂, hp, ⟨rfl, rfl⟩, rfl⟩ | ⟨e, rfl, hp⟩)
    · exact ⟨.ok a, by rwa [List.append_nil], rfl⟩
    · exact ⟨.error e, hp, rfl⟩
  · rintro ⟨o', hp, rfl⟩
    cases o' with
    | ok a => exact Or.inl ⟨a, l, [], hp, ⟨rfl, rfl⟩, (List.append_nil l).symm⟩
    | error e => exact Or.inr ⟨e, rfl, hp⟩

theorem trace_ensure {cleanup : Prog Q A ε Unit} {p : Prog Q A ε α} {o : Except ε α} :
    Trace (p.ensure cleanup) l o ↔ ∃ o₁ l₁ c l₂, Trace p l₁ o₁ ∧ Trace cleanup l₂ c ∧
      o = ended o₁ c ∧ l = l₁ ++ l₂ := by
  induction p generalizing l with
  | ret a =>
      rw [Prog.ensure, ← Prog.bind_def, trace_bind]
      simp only [trace_ret]
      constructor
      · rintro (⟨u, l₁, l₂, hclean, ⟨rfl, rfl⟩, rfl⟩ | ⟨e, rfl, hclean⟩)
        · exact ⟨.ok a, [], .ok u, l₁, ⟨rfl, rfl⟩, hclean, rfl, by simp⟩
        · exact ⟨.ok a, [], .error e, l, ⟨rfl, rfl⟩, hclean, rfl, rfl⟩
      · rintro ⟨o₁, l₁, c, l₂, ⟨rfl, rfl⟩, hclean, rfl, rfl⟩
        cases c with
        | ok u => exact Or.inl ⟨u, _, [], hclean, ⟨rfl, rfl⟩, (List.append_nil _).symm⟩
        | error e => exact Or.inr ⟨e, rfl, hclean⟩
  | raise e =>
      rw [Prog.ensure, ← Prog.bind_def, trace_bind]
      simp only [trace_raise]
      constructor
      · rintro (⟨u, l₁, l₂, hclean, ⟨rfl, rfl⟩, rfl⟩ | ⟨e', rfl, hclean⟩)
        · exact ⟨.error e, [], .ok u, l₁, ⟨rfl, rfl⟩, hclean, rfl, by simp⟩
        · exact ⟨.error e, [], .error e', l, ⟨rfl, rfl⟩, hclean, rfl, rfl⟩
      · rintro ⟨o₁, l₁, c, l₂, ⟨rfl, rfl⟩, hclean, rfl, rfl⟩
        cases c with
        | ok u => exact Or.inl ⟨u, _, [], hclean, ⟨rfl, rfl⟩, (List.append_nil _).symm⟩
        | error e' => exact Or.inr ⟨e', rfl, hclean⟩
  | ask q next ih =>
      rw [Prog.ensure, trace_ask]
      constructor
      · rintro ⟨a, l', hnext, rfl⟩
        obtain ⟨o₁, l₁, c, l₂, hbody, hclean, rfl, rfl⟩ := (ih a).mp hnext
        exact ⟨o₁, _, c, l₂, Trace.ask hbody, hclean, rfl, rfl⟩
      · rintro ⟨o₁, l₁, c, l₂, hbody, hclean, rfl, rfl⟩
        obtain ⟨a, l', hnext, rfl⟩ := trace_ask.mp hbody
        exact ⟨a, _, (ih a).mpr ⟨o₁, l', c, l₂, hnext, hclean, rfl, rfl⟩, rfl⟩

/-- Where every query but the looks has one answer, the looks decide the trace. -/
theorem Trace.unique (look : Q → Bool) (hone : ∀ q, look q = false → Subsingleton (A q))
    {p : Prog Q A ε α} {l l' : List ((q : Q) × A q)} {o o' : Except ε α} (h : Trace p l o)
    (h' : Trace p l' o')
    (hlooks : l.filter (fun x => look x.1) = l'.filter fun x => look x.1) : l = l' ∧ o = o' := by
  induction h generalizing l' with
  | ret =>
      obtain ⟨rfl, rfl⟩ := trace_ret.mp h'
      exact ⟨rfl, rfl⟩
  | raise =>
      obtain ⟨rfl, rfl⟩ := trace_raise.mp h'
      exact ⟨rfl, rfl⟩
  | @ask q a next l o hnext ih =>
      obtain ⟨a', l₂, hnext', rfl⟩ := trace_ask.mp h'
      cases hlook : look q with
      | true =>
          simp only [List.filter_cons, hlook, ↓reduceIte, List.cons.injEq, Sigma.mk.injEq,
            heq_eq_eq, true_and] at hlooks
          obtain ⟨rfl, hrest⟩ := hlooks
          obtain ⟨rfl, rfl⟩ := ih hnext' hrest
          exact ⟨rfl, rfl⟩
      | false =>
          have hsub := hone q hlook
          obtain rfl := Subsingleton.elim a a'
          simp only [List.filter_cons, hlook, Bool.false_eq_true, ↓reduceIte] at hlooks
          obtain ⟨rfl, rfl⟩ := ih hnext' hlooks
          exact ⟨rfl, rfl⟩

end Effects
