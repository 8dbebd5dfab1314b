import Graphed.Library.Decimals
import Mathlib.NumberTheory.Padics.PadicVal.Basic

/-!
# Decimal places

The powers of two and of five are divided out of a denominator one by one. When nothing else is left
the rational has a decimal expansion, of as many places as the larger of the two powers.
-/

namespace Decimals

/-! ### Dividing out a factor -/

/-- Divide by a factor as often as it divides, and count. The fuel is an upper bound of the
number. -/
def divideOut (p : Nat) : Nat → Nat → Nat × Nat
  | 0, n => (n, 0)
  | fuel + 1, n =>
      if n % p = 0 then ((divideOut p fuel (n / p)).1, (divideOut p fuel (n / p)).2 + 1)
      else (n, 0)

theorem divideOut_eq {p : Nat} (hp : p.Prime) {fuel n : Nat} (hn : n ≠ 0) (hfuel : n ≤ fuel) :
    divideOut p fuel n = (n.divMaxPow p, padicValNat p n) := by
  have := Fact.mk hp
  induction fuel generalizing n with
  | zero => omega
  | succ fuel ih =>
      unfold divideOut
      split_ifs with hmod
      · obtain ⟨m, rfl⟩ := Nat.dvd_of_mod_eq_zero hmod
        have hm : m ≠ 0 := by
          rintro rfl
          exact hn rfl
        have htwo := hp.two_le
        have hlt : 2 * m ≤ p * m := Nat.mul_le_mul_right m htwo
        rw [Nat.mul_div_cancel_left m hp.pos, ih hm (by omega), padicValNat.mul hp.ne_zero hm,
          padicValNat_self, Nat.divMaxPow_base_mul hp.ne_zero, Nat.add_comm]
      · have hdvd : ¬p ∣ n := fun h => hmod (Nat.mod_eq_zero_of_dvd h)
        have hval : padicValNat p n = 0 := padicValNat.eq_zero_of_not_dvd hdvd
        have hrest := Nat.divMaxPow_mul_pow_padicValNat p n
        rw [hval, pow_zero, mul_one] at hrest
        rw [hval, hrest]

/-! ### Places -/

/-- How many decimal places a denominator takes. -/
def places (n : Nat) : Nat := max (padicValNat 2 n) (padicValNat 5 n)

/-- What is left of a denominator without its twos and fives. -/
def withoutTens (n : Nat) : Nat := (n.divMaxPow 2).divMaxPow 5

theorem divMaxPow_ne_zero (p : Nat) {n : Nat} (hn : n ≠ 0) : n.divMaxPow p ≠ 0 := by
  intro h
  have hsplit := Nat.divMaxPow_mul_pow_padicValNat p n
  rw [h, zero_mul] at hsplit
  exact hn hsplit.symm

theorem padicValNat_five_divMaxPow {n : Nat} (hn : n ≠ 0) :
    padicValNat 5 (n.divMaxPow 2) = padicValNat 5 n := by
  have : Fact (Nat.Prime 2) := ⟨Nat.prime_two⟩
  have : Fact (Nat.Prime 5) := ⟨Nat.prime_five⟩
  have hsplit := Nat.divMaxPow_mul_pow_padicValNat 2 n
  have hodd := divMaxPow_ne_zero 2 hn
  conv_rhs => rw [← hsplit]
  rw [padicValNat.mul hodd (pow_ne_zero _ two_ne_zero),
    padicValNat_prime_prime_pow _ (by decide), Nat.add_zero]

theorem withoutTens_mul (n : Nat) :
    withoutTens n * 5 ^ padicValNat 5 (n.divMaxPow 2) * 2 ^ padicValNat 2 n = n := by
  unfold withoutTens
  rw [Nat.divMaxPow_mul_pow_padicValNat, Nat.divMaxPow_mul_pow_padicValNat]

theorem coprime_withoutTens {n : Nat} (hn : n ≠ 0) : (withoutTens n).Coprime 10 := by
  have hodd := divMaxPow_ne_zero 2 hn
  have htwo : ¬2 ∣ withoutTens n := by
    intro h
    apply Nat.not_dvd_divMaxPow (by decide : 1 < 2) hn
    have hdvd : withoutTens n ∣ n.divMaxPow 2 :=
      ⟨_, (Nat.divMaxPow_mul_pow_padicValNat 5 (n.divMaxPow 2)).symm⟩
    exact h.trans hdvd
  have hfive : ¬5 ∣ withoutTens n := Nat.not_dvd_divMaxPow (by decide) hodd
  have h2 : (withoutTens n).Coprime 2 :=
    ((Nat.prime_two.coprime_iff_not_dvd).mpr htwo).symm
  have h5 : (withoutTens n).Coprime 5 :=
    ((Nat.prime_five.coprime_iff_not_dvd).mpr hfive).symm
  exact Nat.Coprime.mul_right h2 h5

theorem two_pow_places_le {n : Nat} (hn : n ≠ 0) : 2 ^ places n ≤ n := by
  have hpow : ∀ p, p ^ padicValNat p n ≤ n := fun p =>
    Nat.le_of_dvd (Nat.pos_of_ne_zero hn) pow_padicValNat_dvd
  rcases max_choice (padicValNat 2 n) (padicValNat 5 n) with h | h
  · rw [places, h]
    exact hpow 2
  · rw [places, h]
    exact (Nat.pow_le_pow_left (by decide) _).trans (hpow 5)

/-- A divisor of a power of ten takes no more places than that power. -/
theorem places_le {n k : Nat} (hn : n ∣ 10 ^ k) : places n ≤ k := by
  have : Fact (Nat.Prime 2) := ⟨Nat.prime_two⟩
  have : Fact (Nat.Prime 5) := ⟨Nat.prime_five⟩
  have hten : (10 : Nat) ^ k ≠ 0 := pow_ne_zero _ (by decide)
  have hval : ∀ p : Nat, [Fact p.Prime] → padicValNat p 10 = 1 → padicValNat p n ≤ k := by
    intro p hp hone
    have hle := (padicValNat_dvd_iff_le (p := p) hten).mp
      ((pow_padicValNat_dvd (p := p) (n := n)).trans hn)
    rwa [padicValNat.pow, hone, mul_one] at hle
  have hten2 : padicValNat 2 10 = 1 := by decide +kernel
  have hten5 : padicValNat 5 10 = 1 := by decide +kernel
  exact max_le (hval 2 hten2) (hval 5 hten5)

theorem withoutTens_eq_one {n k : Nat} (hn : n ≠ 0) (h : n ∣ 10 ^ k) : withoutTens n = 1 := by
  have hdvd : withoutTens n ∣ n := by
    conv_rhs => rw [← withoutTens_mul n]
    rw [mul_assoc]
    exact Nat.dvd_mul_right _ _
  exact Nat.Coprime.eq_one_of_dvd ((coprime_withoutTens hn).pow_right _) (hdvd.trans h)

/-- Nothing but twos and fives divides a denominator just when a power of ten is a multiple of it,
and then ten to its places is. -/
theorem withoutTens_eq_one_iff {n : Nat} (hn : n ≠ 0) :
    withoutTens n = 1 ↔ n ∣ 10 ^ places n := by
  constructor
  · intro h
    have hsplit := withoutTens_mul n
    rw [h, one_mul, padicValNat_five_divMaxPow hn] at hsplit
    have hdvd : 5 ^ padicValNat 5 n * 2 ^ padicValNat 2 n ∣ 5 ^ places n * 2 ^ places n :=
      Nat.mul_dvd_mul (Nat.pow_dvd_pow 5 (le_max_right _ _)) (Nat.pow_dvd_pow 2 (le_max_left _ _))
    rwa [hsplit, ← Nat.mul_pow] at hdvd
  · exact withoutTens_eq_one hn

/-- The twos are divided out first, then the fives. -/
theorem divideOut_places {n : Nat} (hn : n ≠ 0) :
    (divideOut 5 n (divideOut 2 n n).1).1 = withoutTens n ∧
      max (divideOut 2 n n).2 (divideOut 5 n (divideOut 2 n n).1).2 = places n := by
  have hodd := divMaxPow_ne_zero 2 hn
  have hle : n.divMaxPow 2 ≤ n :=
    Nat.le_of_dvd (Nat.pos_of_ne_zero hn)
      (Dvd.intro _ (Nat.divMaxPow_mul_pow_padicValNat 2 n))
  rw [divideOut_eq Nat.prime_two hn le_rfl, divideOut_eq Nat.prime_five hodd hle,
    padicValNat_five_divMaxPow hn]
  exact ⟨rfl, rfl⟩

/-! ### Rationals -/

/-- The rational has a decimal expansion. -/
def IsDecimal (q : ℚ) : Prop := q.den ∣ 10 ^ places q.den

instance (q : ℚ) : Decidable (IsDecimal q) := inferInstanceAs (Decidable (_ ∣ _))

/-- The rational in units of its last place. -/
def scaled (q : ℚ) : Int := q.num * 10 ^ places q.den / q.den

theorem scaled_eq {q : ℚ} (hq : IsDecimal q) : (scaled q : ℚ) = q * 10 ^ places q.den := by
  have hdvd : (q.den : Int) ∣ q.num * 10 ^ places q.den := by
    apply Dvd.dvd.mul_left
    exact_mod_cast hq
  have hden : (q.den : ℚ) ≠ 0 := by exact_mod_cast q.den_nz
  unfold scaled
  rw [Int.cast_div hdvd (by exact_mod_cast q.den_nz)]
  push_cast
  rw [div_eq_iff hden, mul_right_comm, Rat.mul_den_eq_num]

theorem places_one : places 1 = 0 := by
  unfold places
  rw [padicValNat_one_right, padicValNat_one_right, max_self]

theorem scaled_intCast (n : Int) : scaled n = n := by
  have hden : (n : ℚ).den = 1 := Rat.den_intCast n
  unfold scaled
  rw [hden, places_one, Rat.num_intCast]
  simp

theorem isDecimal_of_dvd {q : ℚ} {k : Nat} (hq : q.den ∣ 10 ^ k) : IsDecimal q := by
  rw [IsDecimal, ← withoutTens_eq_one_iff q.den_nz]
  exact withoutTens_eq_one q.den_nz hq

/-- A quotient by a power of ten takes no more places than that power. -/
theorem den_dvd_ten_pow {q : ℚ} {n : Int} {k : Nat} (hq : q = n / 10 ^ k) : q.den ∣ 10 ^ k := by
  have hdvd := Rat.den_dvd n (10 ^ k)
  rw [Rat.divInt_eq_div, Int.cast_pow, Int.cast_ofNat, ← hq] at hdvd
  exact_mod_cast hdvd

/-- The numerator of a quotient is a divisor of what is divided. -/
theorem natAbs_num_le {q : ℚ} {n : Int} {k : Nat} (hq : q = n / 10 ^ k) :
    q.num.natAbs ≤ n.natAbs := by
  by_cases hn : n = 0
  · subst hn
    rw [hq]
    simp
  · have hdvd := Rat.num_dvd n (b := 10 ^ k) (by positivity)
    rw [Rat.divInt_eq_div, Int.cast_pow, Int.cast_ofNat, ← hq] at hdvd
    exact Nat.le_of_dvd (Int.natAbs_pos.mpr hn) (Int.natAbs_dvd_natAbs.mpr hdvd)

end Decimals
