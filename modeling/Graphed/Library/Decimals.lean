import Mathlib.Algebra.Order.Field.Power
import Mathlib.Data.Rat.Lemmas
import Mathlib.Data.List.DropRight
import Mathlib.Tactic.Linarith
import Mathlib.Tactic.Ring
import Mathlib.Tactic.FieldSimp

/-!
# Decimal spellings

Digit characters, the numbers lists of them spell, and decimals: a sign, digits, and a power of ten.
A decimal without zeros at either end is the only one of its value, when its digits are ASCII.
-/

namespace Decimals

/-! ### Digit characters -/

/-- The decimal digits of a character set that extends ASCII. -/
structure DigitTable where
  value : Char → Option Nat
  lt_ten : ∀ c d, value c = some d → d < 10
  ascii : ∀ c : Char, c.toNat < 128 → value c = if c.isDigit then some (c.toNat - 48) else none

namespace DigitTable

variable (D : DigitTable)

def isDigit (c : Char) : Bool := (D.value c).isSome

/-- The number a list of digits spells. -/
def number (cs : List Char) : Nat := cs.foldl (fun n c => 10 * n + (D.value c).getD 0) 0

theorem getD_lt_ten (c : Char) : (D.value c).getD 0 < 10 := by
  cases h : D.value c with
  | none => decide
  | some d => exact D.lt_ten c d h

theorem number_concat (cs : List Char) (c : Char) :
    D.number (cs ++ [c]) = 10 * D.number cs + (D.value c).getD 0 := by
  unfold number
  rw [List.foldl_append]
  rfl

theorem number_append (cs ds : List Char) :
    D.number (cs ++ ds) = D.number cs * 10 ^ ds.length + D.number ds := by
  induction ds using List.reverseRecOn with
  | nil => simp [number]
  | append_singleton ds d ih =>
      rw [← List.append_assoc, number_concat, ih, number_concat, List.length_append, pow_add]
      simp only [List.length_singleton, pow_one]
      ring

theorem number_lt (cs : List Char) : D.number cs < 10 ^ cs.length := by
  induction cs using List.reverseRecOn with
  | nil => simp [number]
  | append_singleton cs c ih =>
      have hdigit := D.getD_lt_ten c
      rw [number_concat, List.length_append, pow_add]
      simp only [List.length_singleton, pow_one]
      omega

theorem value_zero : D.value '0' = some 0 := by
  rw [D.ascii '0' (by decide)]
  decide

theorem number_zeros (n : Nat) : D.number (List.replicate n '0') = 0 := by
  induction n with
  | zero => rfl
  | succ n ih =>
      rw [List.replicate_succ', number_concat, ih, D.value_zero]
      rfl

theorem number_append_zeros (cs : List Char) (n : Nat) :
    D.number (cs ++ List.replicate n '0') = D.number cs * 10 ^ n := by
  rw [number_append, number_zeros, List.length_replicate, Nat.add_zero]

theorem number_zeros_append (n : Nat) (cs : List Char) :
    D.number (List.replicate n '0' ++ cs) = D.number cs := by
  rw [number_append, number_zeros, Nat.zero_mul, Nat.zero_add]

theorem not_isDigit {c : Char} (hascii : c.toNat < 128) (hc : c.isDigit = false) :
    D.isDigit c = false := by
  unfold isDigit
  rw [D.ascii c hascii, hc]
  rfl

/-! ### ASCII digits -/

theorem value_ascii {c : Char} (hc : c.isDigit = true) : D.value c = some (c.toNat - 48) := by
  have hrange : c.toNat < 128 := by
    have h := hc
    simp only [Char.isDigit, Bool.and_eq_true, decide_eq_true_eq] at h
    have hle : c.val ≤ '9'.val := h.2
    have hnat : c.toNat ≤ '9'.toNat := hle
    have hnine : '9'.toNat = 57 := by decide
    omega
  rw [D.ascii c hrange, if_pos hc]

theorem isDigit_ascii {c : Char} (hc : c.isDigit = true) : D.isDigit c = true := by
  unfold isDigit
  rw [D.value_ascii hc]
  rfl

theorem number_ascii {cs : List Char} (hcs : ∀ c ∈ cs, c.isDigit = true) :
    D.number cs = Nat.ofDigitChars 10 cs 0 := by
  induction cs using List.reverseRecOn with
  | nil => rfl
  | append_singleton cs c ih =>
      have hc := hcs c (by simp)
      rw [number_concat, ih fun d hd => hcs d (by simp [hd]), D.value_ascii hc,
        Nat.ofDigitChars_append]
      rfl

theorem number_toDigits (n : Nat) : D.number (Nat.toDigits 10 n) = n := by
  rw [D.number_ascii fun c hc => Nat.isDigit_of_mem_toDigits (by decide) (by decide) hc,
    Nat.ofDigitChars_ten_toDigits]

theorem value_inj {c d : Char} (hc : c.isDigit = true) (hd : d.isDigit = true)
    (h : D.value c = D.value d) : c = d := by
  have hrange : ∀ {c : Char}, c.isDigit = true → 48 ≤ c.toNat := by
    intro c hc
    simp only [Char.isDigit, Bool.and_eq_true, decide_eq_true_eq] at hc
    exact hc.1
  rw [D.value_ascii hc, D.value_ascii hd, Option.some.injEq] at h
  have hnat : c.toNat = d.toNat := by
    have hc' := hrange hc
    have hd' := hrange hd
    omega
  rw [← Char.ofNat_toNat c, hnat, Char.ofNat_toNat]

/-- ASCII digits of one length and one number are the same. -/
theorem eq_of_number {cs ds : List Char} (hcs : ∀ c ∈ cs, c.isDigit = true)
    (hds : ∀ d ∈ ds, d.isDigit = true) (hlength : cs.length = ds.length)
    (h : D.number cs = D.number ds) : cs = ds := by
  induction cs using List.reverseRecOn generalizing ds with
  | nil => exact (List.length_eq_zero_iff.mp hlength.symm).symm
  | append_singleton cs c ih =>
      cases ds using List.reverseRecOn with
      | nil => simp at hlength
      | append_singleton ds d =>
          rw [number_concat, number_concat] at h
          have hc := D.getD_lt_ten c
          have hd := D.getD_lt_ten d
          have hlast : (D.value c).getD 0 = (D.value d).getD 0 := by omega
          have hfirst : D.number cs = D.number ds := by omega
          have hdigitc := hcs c (by simp)
          have hdigitd := hds d (by simp)
          rw [D.value_ascii hdigitc, D.value_ascii hdigitd] at hlast
          have hsame : D.value c = D.value d := by
            rw [D.value_ascii hdigitc, D.value_ascii hdigitd]
            exact congrArg some hlast
          rw [ih (fun a ha => hcs a (by simp [ha])) (fun a ha => hds a (by simp [ha]))
            (by simpa using hlength) hfirst, D.value_inj hdigitc hdigitd hsame]

theorem number_cons (c : Char) (cs : List Char) :
    D.number (c :: cs) = (D.value c).getD 0 * 10 ^ cs.length + D.number cs := by
  have hone : D.number [c] = (D.value c).getD 0 := by simp [number]
  rw [← List.singleton_append, number_append, hone]

/-- A first digit other than zero makes the number as long as its digits. -/
theorem le_number {c : Char} (hc : c.isDigit = true) (hzero : c ≠ '0') (cs : List Char) :
    10 ^ cs.length ≤ D.number (c :: cs) := by
  have hpos : 1 ≤ (D.value c).getD 0 := by
    by_contra hlt
    have hvalue : D.value c = D.value '0' := by
      rw [D.value_zero, D.value_ascii hc] at *
      rw [Option.getD_some] at hlt
      congr 1
      omega
    exact hzero (D.value_inj hc (by decide) hvalue)
  rw [number_cons]
  calc 10 ^ cs.length = 1 * 10 ^ cs.length := (Nat.one_mul _).symm
    _ ≤ (D.value c).getD 0 * 10 ^ cs.length := Nat.mul_le_mul_right _ hpos
    _ ≤ _ := Nat.le_add_right _ _

end DigitTable

/-! ### Decimals -/

/-- A sign, digits, and the power of ten the last digit counts. -/
structure Decimal where
  negative : Bool
  digits : List Char
  exp10 : Int
deriving DecidableEq

/-- The rational a decimal names. -/
def Decimal.value (D : DigitTable) (t : Decimal) : ℚ :=
  (if t.negative then -1 else 1) * D.number t.digits * 10 ^ t.exp10

/-- No zero at either end, and one spelling of zero. -/
inductive Decimal.Normal : Decimal → Prop
  | zero : Decimal.Normal ⟨false, ['0'], 0⟩
  | digits (negative : Bool) (digits : List Char) (exp10 : Int) (hne : digits ≠ [])
      (hhead : digits.head? ≠ some '0') (hlast : digits.getLast? ≠ some '0') :
      Decimal.Normal ⟨negative, digits, exp10⟩

theorem Decimal.Normal.ne_nil {t : Decimal} (h : t.Normal) : t.digits ≠ [] := by
  cases h with
  | zero => simp
  | digits negative digits e hne hhead hlast => exact hne

/-- A power of ten is read off a number that ten does not divide. -/
theorem pow_ten_unique {m n : Nat} {e f : Int} (hm : ¬10 ∣ m) (hn : ¬10 ∣ n)
    (h : (m : ℚ) * 10 ^ e = n * 10 ^ f) : m = n ∧ e = f := by
  have hle : ∀ {m n : Nat} {e f : Int}, ¬10 ∣ m → (m : ℚ) * 10 ^ e = n * 10 ^ f → f ≤ e := by
    intro m n e f hm h
    by_contra hlt
    push Not at hlt
    obtain ⟨k, hk⟩ : ∃ k : Nat, f = e + (k + 1 : Nat) := ⟨(f - e - 1).toNat, by omega⟩
    have hten : (10 : ℚ) ^ e ≠ 0 := zpow_ne_zero _ (by norm_num)
    rw [hk, zpow_add₀ (by norm_num), zpow_natCast] at h
    have hcancel : (m : ℚ) = n * 10 ^ (k + 1) := by
      apply mul_right_cancel₀ hten
      rw [h]
      ring
    have hnat : m = n * 10 ^ (k + 1) := by exact_mod_cast hcancel
    exact hm ⟨n * 10 ^ k, by rw [hnat, pow_succ]; ring⟩
  have hexp : e = f := le_antisymm (hle hn h.symm) (hle hm h)
  subst hexp
  have hten : (10 : ℚ) ^ e ≠ 0 := zpow_ne_zero _ (by norm_num)
  exact ⟨by exact_mod_cast mul_right_cancel₀ hten h, rfl⟩

namespace DigitTable

variable (D : DigitTable)

theorem pos_of_digit {c : Char} (hc : c.isDigit = true) (hzero : c ≠ '0') :
    1 ≤ (D.value c).getD 0 := by
  have h := D.le_number hc hzero []
  simpa [number] using h

/-- Ten divides no number whose last digit is another than zero. -/
theorem not_ten_dvd {cs : List Char} (hcs : ∀ c ∈ cs, c.isDigit = true) (hne : cs ≠ [])
    (hlast : cs.getLast? ≠ some '0') : ¬10 ∣ D.number cs := by
  obtain ⟨front, c, rfl⟩ := List.eq_nil_or_concat cs |>.resolve_left hne
  rw [List.concat_eq_append] at hcs hlast ⊢
  have hc : c ≠ '0' := by
    rintro rfl
    simp at hlast
  have hpos := D.pos_of_digit (hcs c (by simp)) hc
  have hlt := D.getD_lt_ten c
  rw [number_concat]
  omega

/-- Digits without a first zero are as many as their number has. -/
theorem length_le_of_number {cs ds : List Char} (hcs : ∀ c ∈ cs, c.isDigit = true)
    (hhead : cs.head? ≠ some '0') (h : D.number cs = D.number ds) : cs.length ≤ ds.length := by
  cases cs with
  | nil => exact Nat.zero_le _
  | cons c cs =>
      have hc : c ≠ '0' := by
        rintro rfl
        exact hhead rfl
      have hle := D.le_number (hcs c List.mem_cons_self) hc cs
      have hlt := D.number_lt ds
      rw [← h] at hlt
      exact (Nat.pow_lt_pow_iff_right (by decide : 1 < 10)).mp (Nat.lt_of_le_of_lt hle hlt)

end DigitTable

namespace Decimal

variable {D : DigitTable}

theorem number_pos {cs : List Char} (hcs : ∀ c ∈ cs, c.isDigit = true) (hne : cs ≠ [])
    (hhead : cs.head? ≠ some '0') : 0 < D.number cs := by
  cases cs with
  | nil => exact absurd rfl hne
  | cons c cs =>
      have hc : c ≠ '0' := by
        rintro rfl
        exact hhead rfl
      exact Nat.lt_of_lt_of_le (Nat.pow_pos (by decide))
        (D.le_number (hcs c List.mem_cons_self) hc cs)

theorem abs_value (t : Decimal) : |t.value D| = D.number t.digits * 10 ^ t.exp10 := by
  have hpos : (0 : ℚ) ≤ D.number t.digits * 10 ^ t.exp10 := by positivity
  unfold value
  cases t.negative with
  | false => rw [if_neg (by decide), one_mul, abs_of_nonneg hpos]
  | true =>
      rw [if_pos rfl, mul_assoc, neg_one_mul, abs_neg, abs_of_nonneg hpos]

/-- Decimals of one value and the same digits are the same, unless that value is zero. -/
theorem eq_of_digits {a b : Decimal} (hdigits : a.digits = b.digits)
    (hpos : 0 < D.number a.digits) (h : a.value D = b.value D) : a = b := by
  obtain ⟨na, da, ea⟩ := a
  obtain ⟨nb, db, eb⟩ := b
  dsimp only at hdigits hpos
  subst hdigits
  have hnumber : (0 : ℚ) < D.number da := by exact_mod_cast hpos
  have hten : ∀ e : Int, (0 : ℚ) < 10 ^ e := fun e => zpow_pos (by norm_num) e
  have hexp : ea = eb := by
    have habs := congrArg abs h
    rw [abs_value, abs_value] at habs
    have hpow := mul_left_cancel₀ hnumber.ne' habs
    exact zpow_right_injective₀ (by norm_num) (by norm_num) hpow
  subst hexp
  have hpositive : (0 : ℚ) < D.number da * 10 ^ ea := mul_pos hnumber (hten ea)
  have hsign : na = nb := by
    unfold value at h
    dsimp only at h
    rw [mul_assoc, mul_assoc] at h
    cases na <;> cases nb
    · rfl
    · simp only [Bool.false_eq_true, if_false, if_true] at h
      linarith
    · simp only [Bool.false_eq_true, if_false, if_true] at h
      linarith
    · rfl
  rw [hsign]

/-- A decimal of ASCII digits without zeros at its ends is the only one of its value. -/
theorem Normal.eq_of_value {a b : Decimal} (ha : a.Normal) (hb : b.Normal)
    (hda : ∀ c ∈ a.digits, c.isDigit = true) (hdb : ∀ c ∈ b.digits, c.isDigit = true)
    (h : a.value D = b.value D) : a = b := by
  have hzero : (⟨false, ['0'], 0⟩ : Decimal).value D = 0 := by
    have hnumber := D.number_zeros 1
    simp only [value, List.replicate_one] at hnumber ⊢
    rw [hnumber]
    simp
  have hnonzero : ∀ {t : Decimal}, 0 < D.number t.digits → t.value D ≠ 0 := by
    intro t ht
    rw [← abs_ne_zero, abs_value]
    exact (mul_pos (by exact_mod_cast ht) (zpow_pos (by norm_num) _)).ne'
  cases ha with
  | zero =>
      cases hb with
      | zero => rfl
      | digits negative digits exp10 hne hhead hlast =>
          exact absurd (h.symm.trans hzero) (hnonzero (number_pos hdb hne hhead))
  | digits negative digits exp10 hne hhead hlast =>
      have hpos := number_pos (D := D) hda hne hhead
      cases hb with
      | zero => exact absurd (h.trans hzero) (hnonzero hpos)
      | digits negative' digits' exp10' hne' hhead' hlast' =>
          have habs := congrArg abs h
          rw [abs_value, abs_value] at habs
          obtain ⟨hnumber, -⟩ := pow_ten_unique (D.not_ten_dvd hda hne hlast)
            (D.not_ten_dvd hdb hne' hlast') habs
          have hlength : digits.length = digits'.length :=
            le_antisymm (D.length_le_of_number hda hhead hnumber)
              (D.length_le_of_number hdb hhead' hnumber.symm)
          exact eq_of_digits (D.eq_of_number hda hdb hlength hnumber) hpos h

end Decimal

end Decimals
