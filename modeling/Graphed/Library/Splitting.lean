import Graphed.Library.Text

/-!
# Reading texts back

What a join by separators, an escape and a spelling in digits have for inverses: splitting at a
separator, replacing the codes one after another, and reading the digits.
-/

namespace Text

/-! ### Splitting -/

/-- What stands before the first separator, and what after it. -/
def splitFirst (c : Char) : List Char → List Char × Option (List Char)
  | [] => ([], none)
  | d :: s =>
      if d = c then ([], some s) else (d :: (splitFirst c s).1, (splitFirst c s).2)

theorem splitFirst_of_notMem {c : Char} {s : List Char} (h : c ∉ s) :
    splitFirst c s = (s, none) := by
  induction s with
  | nil => rfl
  | cons d s ih =>
      rw [List.mem_cons, not_or] at h
      unfold splitFirst
      rw [if_neg (Ne.symm h.1), ih h.2]

theorem splitFirst_append {c : Char} {s : List Char} (h : c ∉ s) (rest : List Char) :
    splitFirst c (s ++ c :: rest) = (s, some rest) := by
  induction s with
  | nil => exact if_pos rfl
  | cons d s ih =>
      rw [List.mem_cons, not_or] at h
      rw [List.cons_append]
      unfold splitFirst
      rw [if_neg (Ne.symm h.1), ih h.2]

/-! ### Replacing -/

/-- Replace every occurrence of a pattern, from the left; the count is of the characters of an
occurrence that are still to be passed over. -/
def replaceFrom (pattern text : List Char) : Nat → List Char → List Char
  | _, [] => []
  | k + 1, _ :: cs => replaceFrom pattern text k cs
  | 0, c :: cs =>
      if pattern.isPrefixOf (c :: cs) then
        text ++ replaceFrom pattern text (pattern.length - 1) cs
      else c :: replaceFrom pattern text 0 cs

def replaceText (pattern text s : List Char) : List Char := replaceFrom pattern text 0 s

/-- A code of one character, or of three that begin with the mark. -/
inductive IsCode (mark : Char) : List Char → Prop
  | plain (c : Char) (hc : c ≠ mark) : IsCode mark [c]
  | code (a b : Char) (ha : a ≠ mark) (hb : b ≠ mark) : IsCode mark [mark, a, b]

theorem replaceFrom_pattern (mark a b : Char) (text rest : List Char) :
    replaceFrom [mark, a, b] text 0 (mark :: a :: b :: rest) =
      text ++ replaceFrom [mark, a, b] text 0 rest := by
  rw [replaceFrom, if_pos (by simp)]
  rfl

theorem replaceFrom_plain {mark c : Char} (hc : c ≠ mark) (a b : Char) (text rest : List Char) :
    replaceFrom [mark, a, b] text 0 (c :: rest) =
      c :: replaceFrom [mark, a, b] text 0 rest := by
  rw [replaceFrom, if_neg]
  simp [Ne.symm hc]

theorem replaceFrom_code {mark a b : Char} {code : List Char} (hcode : IsCode mark code)
    (hne : code ≠ [mark, a, b]) (text rest : List Char) :
    replaceFrom [mark, a, b] text 0 (code ++ rest) =
      code ++ replaceFrom [mark, a, b] text 0 rest := by
  cases hcode with
  | plain c hc => exact replaceFrom_plain hc a b text rest
  | code x y hx hy =>
      have hother : ¬(a = x ∧ b = y) := by
        rintro ⟨rfl, rfl⟩
        exact hne rfl
      simp only [List.cons_append, List.nil_append]
      rw [replaceFrom, if_neg (by simpa using hother), replaceFrom_plain hx, replaceFrom_plain hy]

/-- Replacing one code of an encoding replaces it where it encodes a character. -/
theorem replaceText_flatMap {mark a b : Char} {text : List Char} {code code' : Char → List Char}
    (hcode : ∀ c, IsCode mark (code c))
    (h : ∀ c, if code c = [mark, a, b] then code' c = text else code' c = code c)
    (s : List Char) : replaceText [mark, a, b] text (s.flatMap code) = s.flatMap code' := by
  unfold replaceText
  induction s with
  | nil => rfl
  | cons c s ih =>
      have hc := h c
      rw [List.flatMap_cons, List.flatMap_cons, ← ih]
      split_ifs at hc with hpattern
      · rw [hpattern, hc]
        exact replaceFrom_pattern mark a b text _
      · rw [hc]
        exact replaceFrom_code (hcode c) hpattern text _

/-! ### Digits -/

/-- The number of a text of digits, of which there is one at least. -/
def digitsNumber (base : Nat) (digit : Char → Option Nat) (cs : List Char) : Option Nat :=
  if cs = [] then none else cs.foldlM (fun n c => (digit c).map (base * n + ·)) 0

theorem digitsNumber_singleton {base d : Nat} {digit : Char → Option Nat} {c : Char}
    (hc : digit c = some d) : digitsNumber base digit [c] = some d := by
  simp [digitsNumber, hc]

theorem digitsNumber_concat {base d n : Nat} {digit : Char → Option Nat} {cs : List Char}
    {c : Char} (hcs : digitsNumber base digit cs = some n) (hc : digit c = some d) :
    digitsNumber base digit (cs ++ [c]) = some (base * n + d) := by
  unfold digitsNumber at hcs ⊢
  split_ifs at hcs with hnil
  rw [if_neg (by simp), List.foldlM_append, hcs]
  simp [hc]

theorem digitsNumber_toDigits {base : Nat} (hbase : 1 < base) {digit : Char → Option Nat}
    (hdigit : ∀ d < base, digit (Nat.digitChar d) = some d) (n : Nat) :
    digitsNumber base digit (Nat.toDigits base n) = some n := by
  induction n using Nat.strongRecOn with
  | ind n ih =>
      rw [Nat.toDigits_eq_if hbase]
      split_ifs with hlt
      · exact digitsNumber_singleton (hdigit n hlt)
      · have hdiv := ih (n / base) (Nat.div_lt_self (by omega) hbase)
        rw [digitsNumber_concat hdiv (hdigit _ (Nat.mod_lt n (by omega))), Nat.div_add_mod]

theorem digitsNumber_hexDigits {digit : Char → Option Nat}
    (hdigit : ∀ d < 16, digit (Nat.digitChar d) = some d) (k n : Nat) :
    digitsNumber 16 digit (hexDigits (k + 1) n) = some (n % 16 ^ (k + 1)) := by
  induction k generalizing n with
  | zero => exact digitsNumber_singleton (hdigit _ (Nat.mod_lt n (by decide)))
  | succ k ih =>
      have hlast := hdigit (n % 16) (Nat.mod_lt n (by decide))
      rw [hexDigits, digitsNumber_concat (ih (n / 16)) hlast, pow_succ 16 (k + 1),
        Nat.mul_comm (16 ^ (k + 1)), Nat.mod_mul]
      congr 1
      omega

end Text
