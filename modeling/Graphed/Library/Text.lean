import Mathlib.Data.String.Basic

/-!
# Injective text encodings

A text format that joins fields with separators can be read back when no field contains the
separator, and a per-character escape can be read back when no code is a prefix of another. These
are the facts an encoding needs to determine what it encodes.
-/

namespace Text

/-- Replace every occurrence of one character by a text. -/
def replaceChar (c : Char) (text : List Char) (s : List Char) : List Char :=
  s.flatMap fun d => if d = c then text else [d]

/-- No character's code is a prefix of another's, and none is empty. -/
structure PrefixFree (code : Char → List Char) : Prop where
  ne_nil : ∀ c, code c ≠ []
  eq_of_isPrefix : ∀ a b, code a <+: code b → a = b

/-- A prefix-free code determines the text it encodes. -/
theorem PrefixFree.flatMap_injective {code : Char → List Char} (hcode : PrefixFree code) :
    Function.Injective fun s : List Char => s.flatMap code := by
  intro s
  induction s with
  | nil =>
      intro t h
      cases t with
      | nil => rfl
      | cons b t =>
          simp only [List.flatMap_nil, List.flatMap_cons] at h
          exact absurd (List.append_eq_nil_iff.mp h.symm).1 (hcode.ne_nil b)
  | cons a s ih =>
      intro t h
      cases t with
      | nil =>
          simp only [List.flatMap_nil, List.flatMap_cons] at h
          exact absurd (List.append_eq_nil_iff.mp h).1 (hcode.ne_nil a)
      | cons b t =>
          simp only [List.flatMap_cons] at h
          have hab : a = b := by
            rcases List.prefix_or_prefix_of_prefix (List.prefix_append (code a) _)
              (h ▸ List.prefix_append (code b) _) with hpre | hpre
            · exact hcode.eq_of_isPrefix a b hpre
            · exact (hcode.eq_of_isPrefix b a hpre).symm
          subst hab
          exact congrArg _ (ih (List.append_cancel_left h))

/-- The text up to the first separator is determined, and so is the rest. -/
theorem append_cons_inj {c : Char} {l₁ l₂ r₁ r₂ : List Char} (h₁ : c ∉ l₁) (h₂ : c ∉ l₂)
    (h : l₁ ++ c :: r₁ = l₂ ++ c :: r₂) : l₁ = l₂ ∧ r₁ = r₂ := by
  induction l₁ generalizing l₂ with
  | nil =>
      cases l₂ with
      | nil => simpa using h
      | cons b l₂ =>
          simp only [List.nil_append, List.cons_append, List.cons.injEq] at h
          exact absurd (h.1 ▸ List.mem_cons_self) h₂
  | cons a l₁ ih =>
      cases l₂ with
      | nil =>
          simp only [List.nil_append, List.cons_append, List.cons.injEq] at h
          exact absurd (h.1 ▸ List.mem_cons_self) h₁
      | cons b l₂ =>
          simp only [List.cons_append, List.cons.injEq] at h
          obtain ⟨hl, hr⟩ := ih (fun hmem => h₁ (List.mem_cons_of_mem _ hmem))
            (fun hmem => h₂ (List.mem_cons_of_mem _ hmem)) h.2
          exact ⟨by rw [h.1, hl], hr⟩

/-- Fields without the separator are determined by their join. -/
theorem intercalate_inj {c : Char} {xs ys : List (List Char)} (hxs : ∀ l ∈ xs, c ∉ l)
    (hys : ∀ l ∈ ys, c ∉ l) (hxs₀ : xs ≠ []) (hys₀ : ys ≠ [])
    (h : [c].intercalate xs = [c].intercalate ys) : xs = ys := by
  have hsplit := congrArg (List.splitOn c) h
  rwa [List.splitOn_intercalate c hxs hxs₀, List.splitOn_intercalate c hys hys₀] at hsplit

theorem mem_intercalate {c d : Char} {xs : List (List Char)} (h : d ∈ [c].intercalate xs) :
    d = c ∨ ∃ l ∈ xs, d ∈ l := by
  induction xs with
  | nil => simp at h
  | cons x xs ih =>
      cases xs with
      | nil => exact Or.inr ⟨x, by simp, by simpa using h⟩
      | cons y ys =>
          rw [List.intercalate_cons_cons, List.append_assoc, List.mem_append, List.mem_append] at h
          rcases h with hx | hc | hrest
          · exact Or.inr ⟨x, by simp, hx⟩
          · exact Or.inl (by simpa using hc)
          · rcases ih hrest with hc | ⟨l, hl, hd⟩
            · exact Or.inl hc
            · exact Or.inr ⟨l, List.mem_cons_of_mem _ hl, hd⟩

theorem intercalate_append_singleton {c : Char} {xs : List (List Char)} (hxs : xs ≠ [])
    (l : List Char) : [c].intercalate (xs ++ [l]) = [c].intercalate xs ++ c :: l := by
  induction xs with
  | nil => exact absurd rfl hxs
  | cons x xs ih =>
      cases xs with
      | nil => simp [List.intercalate_cons_cons]
      | cons y ys =>
          have htail := ih (by simp)
          simp only [List.cons_append] at htail ⊢
          rw [List.intercalate_cons_cons, htail, List.intercalate_cons_cons]
          simp

/-- Nonempty fields have an empty join only when there are none. -/
theorem intercalate_eq_nil {c : Char} {xs : List (List Char)} (hxs : ∀ l ∈ xs, l ≠ [])
    (h : [c].intercalate xs = []) : xs = [] := by
  cases xs with
  | nil => rfl
  | cons x xs =>
      exfalso
      cases xs with
      | nil => exact hxs x (by simp) (by simpa using h)
      | cons y ys => simp [List.intercalate_cons_cons] at h

/-- When equal fields spell equal parts, equal lists of fields spell equal lists of parts. -/
theorem map_eq_map_of_imp {α β γ : Type*} {f : α → β} {g : α → γ}
    (hfg : ∀ a b, f a = f b → g a = g b) {xs ys : List α} (h : xs.map f = ys.map f) :
    xs.map g = ys.map g := by
  induction xs generalizing ys with
  | nil =>
      rw [List.map_nil, eq_comm, List.map_eq_nil_iff] at h
      rw [h]
  | cons x xs ih =>
      cases ys with
      | nil => simp at h
      | cons y ys =>
          simp only [List.map_cons, List.cons.injEq] at h ⊢
          exact ⟨hfg x y h.1, ih h.2⟩

/-- The last `k` hexadecimal digits of a number, most significant first. -/
def hexDigits : Nat → Nat → List Char
  | 0, _ => []
  | k + 1, n => hexDigits k (n / 16) ++ [Nat.digitChar (n % 16)]

@[simp]
theorem hexDigits_length (k n : Nat) : (hexDigits k n).length = k := by
  induction k generalizing n with
  | zero => rfl
  | succ k ih => simp [hexDigits, ih]

theorem digitChar_injOn {a b : Nat} (ha : a < 16) (hb : b < 16)
    (h : Nat.digitChar a = Nat.digitChar b) : a = b := by
  have hfin : ∀ a b : Fin 16, Nat.digitChar a = Nat.digitChar b → a = b := by decide
  exact congrArg Fin.val (hfin ⟨a, ha⟩ ⟨b, hb⟩ h)

/-- Fixed-width hexadecimal determines every number that fits. -/
theorem hexDigits_inj {k m n : Nat} (hm : m < 16 ^ k) (hn : n < 16 ^ k)
    (h : hexDigits k m = hexDigits k n) : m = n := by
  induction k generalizing m n with
  | zero => omega
  | succ k ih =>
      simp only [hexDigits] at h
      obtain ⟨hhigh, hlow⟩ := List.append_inj h (by simp)
      have hdiv := ih (by omega) (by omega) hhigh
      have hmod := digitChar_injOn (Nat.mod_lt m (by decide)) (Nat.mod_lt n (by decide))
        (List.cons.inj hlow).1
      omega

theorem hexDigits_mem {k n : Nat} {c : Char} (h : c ∈ hexDigits k n) :
    ∃ d < 16, c = Nat.digitChar d := by
  induction k generalizing n with
  | zero => simp [hexDigits] at h
  | succ k ih =>
      simp only [hexDigits, List.mem_append, List.mem_singleton] at h
      rcases h with h | h
      · exact ih h
      · exact ⟨n % 16, Nat.mod_lt n (by decide), h⟩

end Text
