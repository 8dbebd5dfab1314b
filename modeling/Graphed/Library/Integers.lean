import Mathlib.Data.List.Basic
import Mathlib.Data.Nat.Digits.Defs
import Mathlib.Tactic.Common

/-!
# Integers as text

Reading an integer takes blanks around it, a sign, and digits with single underscores between them.
What an integer is written as is read back.
-/

namespace Integers

def isBlank (c : Char) : Bool := c == ' ' || (9 ≤ c.toNat && c.toNat ≤ 13)

def strip (cs : List Char) : List Char :=
  ((cs.dropWhile isBlank).reverse.dropWhile isBlank).reverse

/-- Groups of digits, an underscore between two. -/
def readDigits (cs : List Char) : Option Nat :=
  if (cs.splitOn '_').all (fun group => group ≠ [] && group.all Char.isDigit) then
    some (Nat.ofDigitChars 10 (cs.splitOn '_').flatten 0)
  else none

/-- `int(text)`. -/
def readInt (cs : List Char) : Option Int :=
  match strip cs with
  | '-' :: ds => (readDigits ds).map Int.negOfNat
  | '+' :: ds => (readDigits ds).map Int.ofNat
  | ds => (readDigits ds).map Int.ofNat

/-! ### Reading what is written -/

theorem isBlank_of_isDigit {c : Char} (h : c.isDigit = true) : isBlank c = false := by
  have hlow : 48 ≤ c.toNat := by
    simp only [Char.isDigit, Bool.and_eq_true, decide_eq_true_eq] at h
    exact h.1
  have hne : c ≠ ' ' := by
    rintro rfl
    exact absurd hlow (by decide)
  unfold isBlank
  rw [Bool.or_eq_false_iff]
  refine ⟨beq_false_of_ne hne, ?_⟩
  rw [Bool.and_eq_false_iff]
  exact .inr (decide_eq_false (by omega))

theorem strip_eq {cs : List Char} (h : ∀ c ∈ cs, isBlank c = false) : strip cs = cs := by
  have hdrop : ∀ ds : List Char, (∀ c ∈ ds, isBlank c = false) → ds.dropWhile isBlank = ds := by
    intro ds hds
    cases ds with
    | nil => rfl
    | cons c ds =>
        rw [List.dropWhile_cons_of_neg]
        rw [hds c List.mem_cons_self]
        exact Bool.false_ne_true
  unfold strip
  rw [hdrop cs h, hdrop cs.reverse fun c hc => h c (List.mem_reverse.mp hc), List.reverse_reverse]

theorem isDigit_toDigits (n : Nat) : ∀ c ∈ Nat.toDigits 10 n, c.isDigit = true :=
  fun _ hc => Nat.isDigit_of_mem_toDigits (by decide) (by decide) hc

theorem readDigits_toDigits (n : Nat) : readDigits (Nat.toDigits 10 n) = some n := by
  have hne : '_' ∉ Nat.toDigits 10 n := by
    intro hmem
    exact absurd (isDigit_toDigits n _ hmem) (by decide)
  have hsplit : (Nat.toDigits 10 n).splitOn '_' = [Nat.toDigits 10 n] := by
    have hjoin : (['_'].intercalate [Nat.toDigits 10 n]).splitOn '_' = [Nat.toDigits 10 n] :=
      List.splitOn_intercalate '_' (fun l hl => by rwa [List.mem_singleton.mp hl])
        (List.cons_ne_nil _ _)
    rwa [List.intercalate_singleton] at hjoin
  unfold readDigits
  rw [hsplit, if_pos]
  · rw [List.flatten_singleton, Nat.ofDigitChars_ten_toDigits]
  · rw [List.all_cons, List.all_nil, Bool.and_true, Bool.and_eq_true_iff]
    exact ⟨decide_eq_true Nat.toDigits_ne_nil, List.all_eq_true.mpr (isDigit_toDigits n)⟩

/-- **A written integer is read back.** -/
theorem readInt_repr (a : Int) : readInt a.repr.toList = some a := by
  have hdigit := isDigit_toDigits
  cases a with
  | ofNat n =>
      have hstrip : strip (Nat.toDigits 10 n) = Nat.toDigits 10 n :=
        strip_eq fun c hc => isBlank_of_isDigit (hdigit n c hc)
      rw [Int.repr, Nat.toList_repr]
      unfold readInt
      rw [hstrip]
      split
      · rename_i ds hds
        exact absurd (hdigit n '-' (hds ▸ List.mem_cons_self)) (by decide)
      · rename_i ds hds
        exact absurd (hdigit n '+' (hds ▸ List.mem_cons_self)) (by decide)
      · rw [readDigits_toDigits]
        rfl
  | negSucc n =>
      have htext : (Int.negSucc n).repr.toList = '-' :: Nat.toDigits 10 (n + 1) := by
        rw [Int.repr, String.toList_append, Nat.toList_repr]
        rfl
      have hstrip : strip ('-' :: Nat.toDigits 10 (n + 1)) = '-' :: Nat.toDigits 10 (n + 1) := by
        refine strip_eq fun c hc => ?_
        obtain rfl | hc := List.mem_cons.mp hc
        · decide
        · exact isBlank_of_isDigit (hdigit (n + 1) c hc)
      rw [htext]
      unfold readInt
      rw [hstrip]
      change (readDigits (Nat.toDigits 10 (n + 1))).map Int.negOfNat = _
      rw [readDigits_toDigits]
      rfl

theorem repr_chars (a : Int) : ∀ c ∈ a.repr.toList, c = '-' ∨ c.isDigit = true := by
  have hdigit := isDigit_toDigits
  intro c hc
  cases a with
  | ofNat n =>
      rw [Int.repr, Nat.toList_repr] at hc
      exact .inr (hdigit n c hc)
  | negSucc n =>
      rw [Int.repr, String.toList_append, Nat.toList_repr] at hc
      obtain hc | hc := List.mem_append.mp hc
      · exact .inl (List.mem_singleton.mp hc)
      · exact .inr (hdigit (n + 1) c hc)

theorem repr_ne_nil (a : Int) : a.repr.toList ≠ [] := by
  intro h
  have hread := readInt_repr a
  have hnil : readInt [] = none := by decide
  rw [h, hnil] at hread
  cases hread

theorem notMem_repr (a : Int) {c : Char} (hne : c ≠ '-') (hdigit : c.isDigit = false) :
    c ∉ a.repr.toList := by
  intro hc
  obtain h | h := repr_chars a c hc
  · exact hne h
  · rw [hdigit] at h
    exact Bool.false_ne_true h

end Integers
