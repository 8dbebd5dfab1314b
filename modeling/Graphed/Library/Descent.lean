import Mathlib.Data.List.Basic

/-!
# The deepest of a list

An order of descent: the elements above one are a chain, though two elements need not be comparable.
A scan that keeps one candidate finds the deepest element of a list when the list is a chain, and
otherwise stops at two elements that are not comparable.
-/

namespace Graphed

namespace Descent

variable {α : Type}

/-- `above a b` when `a` is `b` or one of its ancestors. -/
structure Order (above : α → α → Bool) : Prop where
  refl : ∀ a, above a a = true
  trans : ∀ {a b c}, above a b = true → above b c = true → above a c = true
  antisymm : ∀ {a b}, above a b = true → above b a = true → a = b
  linear : ∀ {a b c}, above a c = true → above b c = true → above a b = true ∨ above b a = true

def OneChain (above : α → α → Bool) (xs : List α) : Prop :=
  ∀ a ∈ xs, ∀ b ∈ xs, above a b = true ∨ above b a = true

def IsDeepest (above : α → α → Bool) (m : α) (xs : List α) : Prop :=
  m ∈ xs ∧ ∀ x ∈ xs, above x m = true

/-- The deeper of two, or both when they are not comparable. -/
def deeper [DecidableEq α] (above : α → α → Bool) (best next : α) : Except (α × α) α :=
  if next = best then .ok best
  else if above best next then .ok next
  else if above next best then .ok best
  else .error (best, next)

/-- Scan a list for its deepest element. -/
def deepest [DecidableEq α] (above : α → α → Bool) (best : α) (rest : List α) :
    Except (α × α) α :=
  rest.foldlM (deeper above) best

section

variable [DecidableEq α] {above : α → α → Bool} (h : Order above)
include h

theorem deeper_eq_ok_iff {best next m : α} :
    deeper above best next = .ok m ↔ IsDeepest above m [best, next] := by
  simp only [IsDeepest, List.mem_cons, List.not_mem_nil, or_false, forall_eq_or_imp, forall_eq]
  unfold deeper
  split_ifs with heq hdown hup
  · subst heq
    constructor
    · intro hok
      obtain rfl := Except.ok.inj hok
      exact ⟨Or.inl rfl, h.refl _, h.refl _⟩
    · rintro ⟨hm, -, -⟩
      rw [hm.elim id id]
  · constructor
    · intro hok
      obtain rfl := Except.ok.inj hok
      exact ⟨Or.inr rfl, hdown, h.refl _⟩
    · rintro ⟨rfl | rfl, -, hnext⟩
      · exact absurd (h.antisymm hnext hdown) heq
      · rfl
  · constructor
    · intro hok
      obtain rfl := Except.ok.inj hok
      exact ⟨Or.inl rfl, h.refl _, hup⟩
    · rintro ⟨rfl | rfl, hbest, -⟩
      · rfl
      · exact absurd hbest hdown
  · constructor
    · intro hok
      cases hok
    · rintro ⟨rfl | rfl, hbest, hnext⟩
      · exact absurd hnext hup
      · exact absurd hbest hdown

omit h [DecidableEq α] in
theorem IsDeepest.oneChain (h : Order above) {m : α} {xs : List α} (hm : IsDeepest above m xs) :
    OneChain above xs :=
  fun a ha b hb => h.linear (hm.2 a ha) (hm.2 b hb)

omit [DecidableEq α] in
theorem IsDeepest.unique {m n : α} {xs : List α} (hm : IsDeepest above m xs)
    (hn : IsDeepest above n xs) : m = n :=
  h.antisymm (hn.2 m hm.1) (hm.2 n hn.1)

/-- **The scan answers with the deepest element.** -/
theorem deepest_eq_ok_iff {best m : α} {rest : List α} :
    deepest above best rest = .ok m ↔ IsDeepest above m (best :: rest) := by
  induction rest generalizing best with
  | nil =>
      rw [deepest, List.foldlM_nil]
      constructor
      · intro hok
        obtain rfl := Except.ok.inj hok
        exact ⟨List.mem_singleton_self _, fun x hx => List.mem_singleton.mp hx ▸ h.refl _⟩
      · rintro ⟨hm, -⟩
        rw [List.mem_singleton.mp hm]
        rfl
  | cons next rest ih =>
      have hstep : deepest above best (next :: rest) = .ok m ↔
          ∃ b, deeper above best next = .ok b ∧ deepest above b rest = .ok m := by
        rw [deepest, List.foldlM_cons]
        cases hdeeper : deeper above best next with
        | error pair =>
            constructor
            · intro hok
              cases hok
            · rintro ⟨b, hb, -⟩
              cases hb
        | ok b =>
            constructor
            · exact fun hok => ⟨b, rfl, hok⟩
            · rintro ⟨b', hb, hok⟩
              obtain rfl := Except.ok.inj hb
              exact hok
      rw [hstep]
      constructor
      · rintro ⟨b, hb, hrest⟩
        rw [deeper_eq_ok_iff h] at hb
        obtain ⟨hmem, hall⟩ := ih.mp hrest
        refine ⟨?_, fun x hx => ?_⟩
        · rcases List.mem_cons.mp hmem with rfl | hmem
          · exact List.mem_append_left rest hb.1
          · exact List.mem_cons_of_mem _ (List.mem_cons_of_mem _ hmem)
        · have hbm := hall b List.mem_cons_self
          rcases List.mem_append.mp (show x ∈ [best, next] ++ rest from hx) with hx | hx
          · exact h.trans (hb.2 x hx) hbm
          · exact hall x (List.mem_cons_of_mem b hx)
      · rintro ⟨hmem, hall⟩
        have hbest := hall best List.mem_cons_self
        have hnext := hall next (List.mem_cons_of_mem _ List.mem_cons_self)
        have hrest : ∀ x ∈ rest, above x m = true := fun x hx =>
          hall x (List.mem_cons_of_mem _ (List.mem_cons_of_mem _ hx))
        -- both are above `m`, so one is above the other
        have hb : ∃ b, IsDeepest above b [best, next] ∧ above b m = true := by
          rcases h.linear hbest hnext with hle | hle
          · exact ⟨next, ⟨by simp, by simp [hle, h.refl]⟩, hnext⟩
          · exact ⟨best, ⟨by simp, by simp [hle, h.refl]⟩, hbest⟩
        obtain ⟨b, hb, hbm⟩ := hb
        refine ⟨b, (deeper_eq_ok_iff h).mpr hb, ih.mpr ⟨?_, fun x hx => ?_⟩⟩
        · rcases List.mem_append.mp (show m ∈ [best, next] ++ rest from hmem) with hm | hm
          · rw [h.antisymm hbm (hb.2 m hm)]
            exact List.mem_cons_self
          · exact List.mem_cons_of_mem b hm
        · rcases List.mem_cons.mp hx with rfl | hx
          · exact hbm
          · exact hrest x hx

omit h in
/-- **The scan stops at two elements of the list that are not comparable.** -/
theorem deepest_eq_error {best a b : α} {rest : List α}
    (herror : deepest above best rest = .error (a, b)) :
    a ∈ best :: rest ∧ b ∈ best :: rest ∧ above a b = false ∧ above b a = false := by
  induction rest generalizing best with
  | nil => cases herror
  | cons next rest ih =>
      rw [deepest, List.foldlM_cons] at herror
      have hkeep : ∀ c, c = best ∨ c = next → deepest above c rest = .error (a, b) →
          a ∈ best :: next :: rest ∧ b ∈ best :: next :: rest ∧ above a b = false ∧
            above b a = false := by
        intro c hc hrest
        obtain ⟨ha, hb, hab⟩ := ih hrest
        have hsub : ∀ x ∈ c :: rest, x ∈ best :: next :: rest := by
          intro x hx
          rcases List.mem_cons.mp hx with rfl | hx
          · rcases hc with rfl | rfl <;> simp
          · exact List.mem_cons_of_mem _ (List.mem_cons_of_mem _ hx)
        exact ⟨hsub a ha, hsub b hb, hab⟩
      unfold deeper at herror
      split_ifs at herror with heq hdown hup
      · exact hkeep best (Or.inl rfl) herror
      · exact hkeep next (Or.inr rfl) herror
      · exact hkeep best (Or.inl rfl) herror
      · cases herror
        exact ⟨List.mem_cons_self, List.mem_cons_of_mem _ List.mem_cons_self, by simpa using hdown,
          by simpa using hup⟩

/-- A chain has a deepest element. -/
theorem exists_isDeepest {best : α} {rest : List α} (hchain : OneChain above (best :: rest)) :
    ∃ m, IsDeepest above m (best :: rest) := by
  cases hscan : deepest above best rest with
  | ok m => exact ⟨m, (deepest_eq_ok_iff h).mp hscan⟩
  | error pair =>
      obtain ⟨ha, hb, hab, hba⟩ := deepest_eq_error hscan
      rcases hchain _ ha _ hb with hle | hle
      · rw [hab] at hle
        cases hle
      · rw [hba] at hle
        cases hle

end

end Descent

end Graphed
