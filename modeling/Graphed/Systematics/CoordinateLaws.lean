import Graphed.Systematics.Coordinates
import Graphed.Systematics.TagLaws
import Mathlib.Algebra.Order.Field.Basic

/-!
# The tag of a rational

A rational with a decimal expansion has one minimal decimal. It is refused beyond the cap, and
otherwise its tag is that decimal written out, as long as the integers on the way can be written.
-/

namespace Graphed

open Decimals

variable {P : Python}

/-! ### Integers that can be written -/

theorem writes_iff {n : Int} : P.Writes n ↔ P.limit = 0 ∨ n.natAbs < 10 ^ P.limit := by
  unfold Python.Writes Python.Converts
  by_cases hlimit : P.limit = 0
  · simp [hlimit]
  · rw [Nat.length_toDigits_le_iff (by decide) (Nat.pos_of_ne_zero hlimit)]

theorem Python.Writes.mono {m n : Int} (h : P.Writes n) (hle : m.natAbs ≤ n.natAbs) :
    P.Writes m :=
  writes_iff.mpr ((writes_iff.mp h).imp id fun hlt => Nat.lt_of_le_of_lt hle hlt)

/-- As many digits as are converted hold the integer. -/
theorem writes_of_lt {n : Int} {k : Nat} (hk : P.Converts k) (hlt : n.natAbs < 10 ^ k) :
    P.Writes n :=
  writes_iff.mpr (hk.imp id fun hle => hlt.trans_le (Nat.pow_le_pow_right (by decide) hle))

theorem four_mul_lt {n : Nat} (hn : 2 ≤ n) : 4 * n < 10 ^ n := by
  induction n, hn using Nat.le_induction with
  | base => decide
  | succ n hn ih =>
      rw [pow_succ]
      omega

/-- Counts of digits can be written. -/
theorem writes_of_le {n : Int} (h : P.limit = 0 ∨ n.natAbs ≤ 4 * P.limit) : P.Writes n := by
  refine writes_iff.mpr ?_
  rcases P.limit_ge with hlimit | hlimit
  · exact Or.inl hlimit
  · refine h.imp id fun hle => hle.trans_lt (four_mul_lt (by omega))

theorem spellingWrites_of_le {t : Decimal} (h : P.limit = 0 ∨ t.digits.length ≤ P.limit ∧
    magnitude t ≤ P.limit ∧ -t.exp10 ≤ 4 * P.limit) : SpellingWrites P t := by
  have hone : 1 ≤ magnitude t := le_max_right _ _
  right
  rcases P.limit_ge with hlimit | hlimit
  · have hall : ∀ n : Int, P.Writes n := fun n => writes_of_le (Or.inl hlimit)
    split_ifs
    · exact hall _
    · exact ⟨Or.inr (hall _), fun _ => hall _⟩
  · obtain ⟨hlength, hmagnitude, hexp⟩ := h.resolve_left (by omega)
    have hcount : ∀ n : Int, 0 ≤ n → n ≤ 4 * P.limit → P.Writes n := by
      intro n hn hle
      exact writes_of_le (Or.inr (by omega))
    split_ifs with hcap
    · exact hcount _ (by omega) (by omega)
    · by_cases he : 0 ≤ t.exp10
      · refine ⟨Or.inl he, fun _ => ?_⟩
        have hsign : signLength t ≤ 1 := by
          unfold signLength
          split_ifs <;> decide
        unfold tagLength
        rw [if_pos he]
        exact hcount _ (by omega) (by omega)
      · have hwrites : P.Writes (-t.exp10) := hcount _ (by omega) hexp
        refine ⟨Or.inr hwrites, fun _ => ?_⟩
        have hsign : signLength t ≤ 1 := by
          unfold signLength
          split_ifs <;> decide
        have htext : (Python.intText (-t.exp10)).length ≤ P.limit := by
          rw [intText_neg (by omega)]
          have hconverts := hwrites.resolve_left (by omega)
          rwa [Int.natAbs_neg] at hconverts
        unfold tagLength
        rw [if_neg he]
        exact hcount _ (by omega) (by omega)

/-! ### The tag of a rational -/

/-- What is written of a fraction on the way to its tag can be. -/
structure Written (P : Python) (q : ℚ) : Prop where
  num : P.Writes q.num
  den : P.Writes q.den
  scaled : IsDecimal q → P.Writes (scaled q)

/-- The minimal decimal of a rational. -/
def decimalOf (q : ℚ) : Decimal :=
  normalize ⟨decide (scaled q < 0), Nat.toDigits 10 (scaled q).natAbs, -(places q.den : Int)⟩

theorem spelled_decimalOf (q : ℚ) : Spelled P (decimalOf q) where
  normal := normal_normalize _
  digits := digits_normalize Python.isDigit_zero (Python.isDigit_toDigits _)

theorem isDigit_decimalOf (q : ℚ) : ∀ c ∈ (decimalOf q).digits, c.isDigit = true :=
  digits_normalize (by decide) fun _ hc =>
    Nat.isDigit_of_mem_toDigits (by decide) (by decide) hc

theorem value_decimalOf {q : ℚ} (hq : IsDecimal q) : (decimalOf q).value P.digits = q := by
  have hten : (10 : ℚ) ^ places q.den ≠ 0 := by positivity
  have hsign : ∀ n : Int, (if decide (n < 0) then (-1 : ℚ) else 1) * (n.natAbs : ℚ) = n := by
    intro n
    rw [Nat.cast_natAbs]
    by_cases hn : n < 0
    · rw [decide_eq_true hn, if_pos rfl, abs_of_neg hn, neg_one_mul, Int.cast_neg, neg_neg]
    · rw [decide_eq_false hn, if_neg (by decide), abs_of_nonneg (by omega), one_mul]
  unfold decimalOf
  rw [value_normalize]
  unfold Decimal.value
  dsimp only
  rw [P.digits.number_toDigits, hsign, scaled_eq hq, zpow_neg, zpow_natCast,
    mul_inv_cancel_right₀ hten]

/-- What a minimal decimal keeps of its digits. -/
theorem normalize_length (t : Decimal) : (normalize t).digits = ['0'] ∨
    ∃ m : Nat, (normalize t).digits.length + m ≤ t.digits.length ∧
      (normalize t).exp10 = t.exp10 + m := by
  obtain ⟨negative, digits, e⟩ := t
  rcases exists_core digits with ⟨k, rfl⟩ | ⟨k, core, m, rfl, hcore⟩
  · left
    rw [normalize_zeros]
  · right
    refine ⟨m, ?_⟩
    rw [normalize_core hcore]
    simp

theorem spellingWrites_normalize {t : Decimal} (h : P.limit = 0 ∨ t.digits.length ≤ P.limit ∧
    t.digits.length + t.exp10 ≤ P.limit ∧ -t.exp10 ≤ 4 * P.limit) :
    SpellingWrites P (normalize t) := by
  rcases normalize_length t with hzero | ⟨m, hlength, hexp⟩
  · exact Or.inl hzero
  · apply spellingWrites_of_le
    rcases P.limit_ge with hlimit | hlimit
    · exact Or.inl hlimit
    · obtain ⟨hdigits, hwhole, hfraction⟩ := h.resolve_left (by omega)
      exact Or.inr ⟨by omega, max_le (by omega) (by omega), by omega⟩

theorem spellingWrites_decimalOf {q : ℚ} (hq : IsDecimal q) (h : Written P q) :
    SpellingWrites P (decimalOf q) := by
  apply spellingWrites_normalize
  rcases P.limit_ge with hlimit | hlimit
  · exact Or.inl hlimit
  · have hdigits : (Nat.toDigits 10 (scaled q).natAbs).length ≤ P.limit :=
      (h.scaled hq).resolve_left (by omega)
    have hden : q.den < 10 ^ P.limit := by
      simpa using (writes_iff.mp h.den).resolve_left (by omega)
    have hplaces : places q.den < 4 * P.limit := by
      have hpow : 2 ^ places q.den < 2 ^ (4 * P.limit) :=
        calc 2 ^ places q.den ≤ q.den := two_pow_places_le q.den_nz
          _ < 10 ^ P.limit := hden
          _ ≤ 16 ^ P.limit := Nat.pow_le_pow_left (by decide) _
          _ = 2 ^ (4 * P.limit) := by norm_num [pow_mul]
      exact (Nat.pow_lt_pow_iff_right (by decide)).mp hpow
    exact Or.inr ⟨hdigits, by dsimp only; omega, by dsimp only; omega⟩

/-- The integers a rational with a decimal expansion is taken through, and what is written of it. -/
theorem decimalTag_of_decimal {q : ℚ} (hq : IsDecimal q) (source : Except TagError String) :
    decimalTag P q source =
      ⟨[q.num, q.den, 10 ^ places q.den, q.num * 10 ^ places q.den, scaled q], do
        let text ← P.str (scaled q).natAbs
        let shown ← P.fractionText q
        spellNumber P (normalize ⟨decide (scaled q < 0), text, -(places q.den : Int)⟩) shown⟩ := by
  obtain ⟨hrest, hscale⟩ := divideOut_places q.den_nz
  rw [(withoutTens_eq_one_iff q.den_nz).mpr hq] at hrest
  unfold decimalTag
  simp only [hrest, hscale, ne_eq, not_true, if_false, Traced.quietly_bind]
  rfl

theorem fractionText_cases (P : Python) (q : ℚ) :
    ((P.Writes q.num ∧ P.Writes q.den) ∧ ∃ text, P.fractionText q = .ok text) ∨
      ¬(P.Writes q.num ∧ P.Writes q.den) ∧ P.fractionText q = .error .valueError := by
  have hone : q.den = 1 → P.Writes q.den := by
    intro hden
    rw [hden]
    exact Python.converts_small (by decide)
  unfold Python.fractionText
  by_cases hnum : P.Writes q.num
  · rw [str_of_writes hnum]
    by_cases hden : q.den = 1
    · exact Or.inl ⟨⟨hnum, hone hden⟩, _, if_pos hden⟩
    · by_cases hwrites : P.Writes q.den
      · refine Or.inl ⟨⟨hnum, hwrites⟩, Python.intText q.num ++ '/' :: Python.intText q.den, ?_⟩
        rw [str_of_writes hwrites]
        exact if_neg hden
      · refine Or.inr ⟨fun h => hwrites h.2, ?_⟩
        rw [str_of_not_writes hwrites]
        exact if_neg hden
  · rw [str_of_not_writes hnum]
    exact Or.inr ⟨fun h => hnum h.1, rfl⟩

theorem fractionRepr_cases (P : Python) (q : ℚ) :
    ((P.Writes q.num ∧ P.Writes q.den) ∧ ∃ text, P.fractionRepr q = .ok text) ∨
      ¬(P.Writes q.num ∧ P.Writes q.den) ∧ P.fractionRepr q = .error .valueError := by
  unfold Python.fractionRepr
  by_cases hnum : P.Writes q.num
  · rw [str_of_writes hnum]
    by_cases hden : P.Writes q.den
    · rw [str_of_writes hden]
      exact Or.inl ⟨⟨hnum, hden⟩, _, rfl⟩
    · rw [str_of_not_writes hden]
      exact Or.inr ⟨fun h => hden h.2, rfl⟩
  · rw [str_of_not_writes hnum]
    exact Or.inr ⟨fun h => hnum h.1, rfl⟩

/-- What a coordinate is quoted as: a text, unless the fraction cannot be written. -/
def Quotes (P : Python) (q : ℚ) (source : Except TagError String) : Prop :=
  ∀ e, source = .error e → e = .valueError ∧ ¬Written P q

/-- A rational without a decimal expansion is refused, in words where it can be written. -/
theorem decimalTag_of_not_decimal {q : ℚ} (hq : ¬IsDecimal q)
    {source : Except TagError String} (hsource : Quotes P q source) :
    (decimalTag P q source).log = [q.num, (q.den : Int)] ∧
      ∃ e, (decimalTag P q source).result = .error e ∧ (e = .valueError ↔ ¬Written P q) := by
  obtain ⟨hrest, -⟩ := divideOut_places q.den_nz
  have hne : withoutTens q.den ≠ 1 := fun h => hq ((withoutTens_eq_one_iff q.den_nz).mp h)
  have hwritten : P.Writes q.num ∧ P.Writes q.den → Written P q :=
    fun h => ⟨h.1, h.2, fun hdecimal => absurd hdecimal hq⟩
  unfold decimalTag
  simp only [hrest, ne_eq, hne, not_false_eq_true, if_true]
  cases hcase : source with
  | error e =>
      obtain ⟨rfl, hnot⟩ := hsource e hcase
      exact ⟨rfl, .valueError, rfl, by simp [hnot]⟩
  | ok shown =>
      rcases fractionText_cases P q with ⟨hboth, text, htext⟩ | ⟨hnot, htext⟩
      · rw [htext]
        exact ⟨rfl, _, rfl, by simp [hwritten hboth]⟩
      · rw [htext]
        exact ⟨rfl, .valueError, rfl, by simpa using fun h : Written P q => hnot ⟨h.num, h.den⟩⟩

/-- A rational that can be written is spelled as its minimal decimal. -/
theorem decimalTag_of_written {q : ℚ} (hq : IsDecimal q) (hwritten : Written P q)
    (source : Except TagError String) :
    ∃ text, (decimalTag P q source).result = spellNumber P (decimalOf q) text := by
  obtain ⟨text, htext⟩ : ∃ text, P.fractionText q = .ok text := by
    rcases fractionText_cases P q with ⟨-, h⟩ | ⟨h, -⟩
    · exact h
    · exact absurd ⟨hwritten.num, hwritten.den⟩ h
  have hwrites : P.Writes ((scaled q).natAbs : Int) :=
    (hwritten.scaled hq).mono (le_of_eq (Int.natAbs_natCast _))
  have hstr : P.str (scaled q).natAbs = .ok (Nat.toDigits 10 (scaled q).natAbs) := by
    rw [str_of_writes hwrites, Python.intText, if_neg (by omega), Int.natAbs_natCast]
  rw [decimalTag_of_decimal hq, hstr, htext]
  exact ⟨text, rfl⟩

/-- Within the cap its tag is that decimal. -/
theorem decimalTag_of_fits {q : ℚ} (hq : IsDecimal q) (hwritten : Written P q)
    (hfits : Fits (decimalOf q)) (source : Except TagError String) :
    (decimalTag P q source).result = .ok (rendered (decimalOf q)) := by
  obtain ⟨text, htext⟩ := decimalTag_of_written hq hwritten source
  rw [htext]
  exact spellNumber_of_fits (normal_normalize _) hfits text

/-- A rational is refused or has its tag. -/
theorem decimalTag_result {q : ℚ} {source : Except TagError String} (hsource : Quotes P q source) :
    (IsDecimal q ∧ Fits (decimalOf q) ∧ Written P q ∧
        (decimalTag P q source).result = .ok (rendered (decimalOf q))) ∨
      ∃ e, (decimalTag P q source).result = .error e ∧ (e = .valueError ↔ ¬Written P q) := by
  by_cases hq : IsDecimal q
  · by_cases hwritten : Written P q
    · by_cases hfits : Fits (decimalOf q)
      · exact Or.inl ⟨hq, hfits, hwritten, decimalTag_of_fits hq hwritten hfits source⟩
      · right
        obtain ⟨text, htext⟩ := decimalTag_of_written hq hwritten source
        obtain ⟨e, he, hiff⟩ := spellNumber_of_not_fits (P := P) hfits text
        refine ⟨e, htext.trans he, ?_⟩
        simp [hiff, spellingWrites_decimalOf hq hwritten, hwritten]
    · right
      refine ⟨.valueError, ?_, by simp [hwritten]⟩
      rw [decimalTag_of_decimal hq]
      by_cases hscaled : P.Writes ((scaled q).natAbs : Int)
      · have hnot : ¬(P.Writes q.num ∧ P.Writes q.den) := fun h =>
          hwritten ⟨h.1, h.2, fun _ => hscaled.mono (le_of_eq (Int.natAbs_natCast _).symm)⟩
        rcases fractionText_cases P q with ⟨h, -⟩ | ⟨-, htext⟩
        · exact absurd h hnot
        · rw [str_of_writes hscaled, htext]
          rfl
      · rw [str_of_not_writes hscaled]
        rfl
  · exact Or.inr (decimalTag_of_not_decimal hq hsource).2

/-! ### Values of decimals -/

/-- A decimal as a quotient of integers. -/
theorem value_eq_div (t : Decimal) : ∃ n : Int,
    t.value P.digits = n / 10 ^ (-t.exp10).toNat ∧
      n.natAbs = P.digits.number t.digits * 10 ^ t.exp10.toNat := by
  refine ⟨(if t.negative then -1 else 1) * (P.digits.number t.digits * 10 ^ t.exp10.toNat), ?_, ?_⟩
  · have hten : (10 : ℚ) ≠ 0 := by norm_num
    have hexp : (10 : ℚ) ^ t.exp10 = 10 ^ t.exp10.toNat / 10 ^ (-t.exp10).toNat := by
      rw [eq_div_iff (by positivity), ← zpow_natCast, ← zpow_natCast, ← zpow_add₀ hten]
      congr 1
      omega
    unfold Decimal.value
    rw [hexp]
    push_cast
    split_ifs <;> ring
  · rw [Int.natAbs_mul, Int.natAbs_mul, Int.natAbs_natCast, Int.natAbs_pow]
    split_ifs <;> simp

/-- The integers a decimal's value is taken through are no longer than its digits and its
exponent. -/
theorem value_bounds (t : Decimal) :
    IsDecimal (t.value P.digits) ∧ places (t.value P.digits).den ≤ (-t.exp10).toNat ∧
      (t.value P.digits).den ≤ 10 ^ (-t.exp10).toNat ∧
      (t.value P.digits).num.natAbs ≤ P.digits.number t.digits * 10 ^ t.exp10.toNat ∧
      (scaled (t.value P.digits)).natAbs ≤ P.digits.number t.digits * 10 ^ t.exp10.toNat := by
  obtain ⟨n, hvalue, hn⟩ := value_eq_div (P := P) t
  have hden := den_dvd_ten_pow hvalue
  have hplaces := places_le hden
  refine ⟨isDecimal_of_dvd hden, hplaces, Nat.le_of_dvd (by positivity) hden,
    hn ▸ natAbs_num_le hvalue, ?_⟩
  have hscaled := scaled_eq (isDecimal_of_dvd hden)
  have hten : (10 : ℚ) ^ places (t.value P.digits).den ≤ 10 ^ (-t.exp10).toNat :=
    pow_le_pow_right₀ (by norm_num) hplaces
  have habs : |(scaled (t.value P.digits) : ℚ)| ≤ |(n : ℚ)| := by
    rw [hscaled, abs_mul, abs_of_nonneg (by positivity : (0 : ℚ) ≤ 10 ^ places _)]
    conv_lhs => rw [hvalue]
    rw [abs_div, abs_of_nonneg (by positivity : (0 : ℚ) ≤ 10 ^ (-t.exp10).toNat),
      div_mul_eq_mul_div]
    exact div_le_of_le_mul₀ (by positivity) (abs_nonneg _)
      (mul_le_mul_of_nonneg_left (hvalue ▸ hten) (abs_nonneg _))
  rw [← hn]
  have hint : |scaled (t.value P.digits)| ≤ |n| := by exact_mod_cast habs
  rw [Int.abs_eq_natAbs, Int.abs_eq_natAbs] at hint
  exact_mod_cast hint

end Graphed
