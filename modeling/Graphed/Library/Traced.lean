import Mathlib.Tactic.Common

/-!
# Computations that leave a trace

A traced computation logs what it does on the way to what it returns or raises. What was logged
before a failure stays logged.
-/

/-- What a computation logged, and how it ended. -/
structure Traced (L ε α : Type) where
  log : List L
  result : Except ε α

namespace Traced

variable {L ε α β γ : Type}

/-- One computation, and on what it returns another. -/
def bind (x : Traced L ε α) (f : α → Traced L ε β) : Traced L ε β :=
  match x.result with
  | .ok a => ⟨x.log ++ (f a).log, (f a).result⟩
  | .error e => ⟨x.log, .error e⟩

instance : Monad (Traced L ε) where
  pure a := ⟨[], .ok a⟩
  bind := bind

/-- Log one entry. -/
def tell (entry : L) : Traced L ε Unit := ⟨[entry], .ok ()⟩

/-- Log nothing. -/
def quietly (x : Except ε α) : Traced L ε α := ⟨[], x⟩

@[simp]
theorem pure_log (a : α) : (pure a : Traced L ε α).log = [] := rfl

@[simp]
theorem pure_result (a : α) : (pure a : Traced L ε α).result = .ok a := rfl

theorem bind_of_ok {x : Traced L ε α} {a : α} (h : x.result = .ok a) (f : α → Traced L ε β) :
    x >>= f = ⟨x.log ++ (f a).log, (f a).result⟩ := by
  change bind x f = _
  unfold bind
  rw [h]

theorem bind_of_error {x : Traced L ε α} {e : ε} (h : x.result = .error e)
    (f : α → Traced L ε β) : x >>= f = ⟨x.log, .error e⟩ := by
  change bind x f = _
  unfold bind
  rw [h]

theorem bind_eq_ok {x : Traced L ε α} {f : α → Traced L ε β} {b : β} :
    (x >>= f).result = .ok b ↔ ∃ a, x.result = .ok a ∧ (f a).result = .ok b := by
  cases hx : x.result with
  | error e => simp [bind_of_error hx]
  | ok a => simp [bind_of_ok hx]

theorem bind_eq_error {x : Traced L ε α} {f : α → Traced L ε β} {e : ε} :
    (x >>= f).result = .error e ↔
      x.result = .error e ∨ ∃ a, x.result = .ok a ∧ (f a).result = .error e := by
  cases hx : x.result with
  | error e => simp [bind_of_error hx]
  | ok a => simp [bind_of_ok hx]

theorem map_id (x : Traced L ε α) : id <$> x = x := by
  obtain ⟨log, result⟩ := x
  cases result <;> simp [Functor.map, bind]

theorem bind_assoc (x : Traced L ε α) (f : α → Traced L ε β) (g : β → Traced L ε γ) :
    x >>= f >>= g = x >>= fun a => f a >>= g := by
  cases hx : x.result with
  | error e => rw [bind_of_error hx, bind_of_error hx, bind_of_error rfl]
  | ok a =>
      rw [bind_of_ok hx, bind_of_ok hx]
      cases hf : (f a).result with
      | error e => rw [bind_of_error hf, bind_of_error rfl]
      | ok b => rw [bind_of_ok hf, bind_of_ok (a := b) rfl, List.append_assoc]

instance : LawfulMonad (Traced L ε) := LawfulMonad.mk' _ map_id (fun _ _ => rfl) bind_assoc

theorem map_quietly (f : α → β) (x : Except ε α) :
    f <$> (quietly x : Traced L ε α) = quietly (x.map f) := by
  cases x <;> rfl

theorem quietly_bind (x : Except ε α) (f : α → Except ε β) :
    (quietly x >>= fun a => (quietly (f a) : Traced L ε β)) = quietly (x >>= f) := by
  cases x <;> rfl

theorem bind_pure_log (x : Traced L ε α) (f : α → β) :
    (x >>= fun a => (pure (f a) : Traced L ε β)).log = x.log := by
  cases hx : x.result with
  | error e => rw [bind_of_error hx]
  | ok a => rw [bind_of_ok hx, pure_log, List.append_nil]

/-- A fold with one step more. -/
theorem foldlM_concat (f : β → α → Traced L ε β) (b : β) (xs : List α) (x : α) :
    (xs ++ [x]).foldlM f b = xs.foldlM f b >>= fun b => f b x := by
  rw [List.foldlM_append]
  congr 1
  funext b
  exact bind_pure _

theorem mem_bind_log {x : Traced L ε α} {f : α → Traced L ε β} {entry : L} :
    entry ∈ (x >>= f).log ↔ entry ∈ x.log ∨ ∃ a, x.result = .ok a ∧ entry ∈ (f a).log := by
  cases hx : x.result with
  | error e => simp [bind_of_error hx]
  | ok a => simp [bind_of_ok hx]

/-- What a fold logs, one of its steps logs. -/
theorem mem_foldlM_log {f : β → α → Traced L ε β} {xs : List α} {b : β} {entry : L}
    (h : entry ∈ (xs.foldlM f b).log) : ∃ x ∈ xs, ∃ b', entry ∈ (f b' x).log := by
  induction xs generalizing b with
  | nil => cases h
  | cons x xs ih =>
      rw [List.foldlM_cons] at h
      rcases mem_bind_log.mp h with hstep | ⟨b', -, hrest⟩
      · exact ⟨x, List.mem_cons_self, b, hstep⟩
      · obtain ⟨y, hy, hlog⟩ := ih hrest
        exact ⟨y, List.mem_cons_of_mem _ hy, hlog⟩

end Traced
