import Graphed.Systematics.ExactNames

/-!
# The integers a tag is taken through

The cap bounds the characters of a tag, not its exponent. What bounds the integers a tag or a
coordinate is taken through is how many decimal places it has.
-/

namespace Graphed

open Decimals

variable {P : Python}

/-- Below ten to the sixty-fourth. -/
def Bounded (n : Int) : Prop := n.natAbs < 10 ^ 64

theorem bounded_natCast {n : Nat} : Bounded n ↔ n < 10 ^ 64 := by
  rw [Bounded, Int.natAbs_natCast]

theorem bounded_pow {k : Nat} : Bounded (10 ^ k) ↔ k ≤ 63 := by
  rw [Bounded, Int.natAbs_pow]
  exact (Nat.pow_lt_pow_iff_right (by decide)).trans Nat.lt_succ_iff

/-! ### Tags -/

/-- An accepted tag has at most sixty-three decimal places, and a p-form a mantissa below the
bound. -/
def TagWithin (P : Python) (x : Spelling P) : Prop :=
  (∀ t ds, numeral P x = some (t, ds) → P.Converts ds.length → Fits (normalize t) →
    -63 ≤ (normalize t).exp10) ∧
  ∀ s form, x = .str s → numericText P s = none → P.pForm s = some form →
    isIdentifier s = true → P.Converts (pDecimal form).digits.length →
    P.digits.number (pDecimal form).digits < 10 ^ 64 ∧ (form.rest.getD []).length ≤ 63

theorem bounded_rendered {t : Decimal} (ht : Spelled P t) (hfits : Fits t) :
    (∀ n ∈ (numericValue P (rendered t)).log, Bounded n) ↔ -63 ≤ t.exp10 := by
  have hlength := (length_tagDigits ht.normal hfits).1
  have hnumber : P.digits.number (tagDigits t) < 10 ^ 64 :=
    (P.digits.number_lt _).trans_le
      (Nat.pow_le_pow_right (by decide) (hlength.trans (by decide)))
  rw [numericValue_rendered ht hfits]
  simp only [List.mem_cons, List.not_mem_nil, or_false, forall_eq_or_imp, forall_eq,
    bounded_natCast, bounded_pow]
  unfold tagPower
  constructor
  · rintro ⟨-, -, hpower⟩
    omega
  · intro hexp
    refine ⟨hnumber, ?_, by omega⟩
    have hsmall : (-t.exp10).toNat ≤ 63 := by omega
    exact hsmall.trans_lt (by decide)

/-- The integers of the value of a tag are bounded just when its places are. -/
theorem bounded_tag_iff (x : Spelling P) :
    (∀ tag, canonicalTag P x = .ok tag → ∀ n ∈ (numericValue P tag).log, Bounded n) ↔
      TagWithin P x := by
  unfold TagWithin
  cases hnumeral : numeral P x with
  | some entry =>
      obtain ⟨t, ds⟩ := entry
      constructor
      · intro h
        refine ⟨fun t' ds' heq hconverts hfits => ?_, ?_⟩
        · obtain ⟨rfl, rfl⟩ := Prod.mk.inj (Option.some.inj heq)
          obtain ⟨source, hsource⟩ := canonicalTag_number hnumeral
          rw [if_pos hconverts, spellNumber_of_fits (normal_normalize t) hfits] at hsource
          exact (bounded_rendered (spelled_of_numeral hnumeral) hfits).mp (h _ hsource)
        · rintro s form rfl hnone
          exact absurd (hnone.symm.trans hnumeral) (by simp)
      · rintro ⟨h, -⟩ tag htag
        obtain ⟨hconverts, hfits, rfl⟩ := canonicalTag_numeral hnumeral htag
        exact (bounded_rendered (spelled_of_numeral hnumeral) hfits).mpr
          (h t ds rfl hconverts hfits)
  | none =>
      have hlog : ∀ {s : List Char} {form : Python.Marked}, numericText P s = none →
          P.pForm s = some form → P.Converts (pDecimal form).digits.length →
          ((∀ n ∈ (numericValue P s).log, Bounded n) ↔
            P.digits.number (pDecimal form).digits < 10 ^ 64 ∧
              (form.rest.getD []).length ≤ 63) := by
        intro s form hnumeric hform hconverts
        have hread := numericValue_other (P := P) hnumeric
        rw [hform] at hread
        dsimp only at hread
        rw [hread, if_pos hconverts]
        simp only [List.mem_cons, List.not_mem_nil, or_false, forall_eq_or_imp, forall_eq,
          bounded_natCast, bounded_pow]
      constructor
      · intro h
        refine ⟨(fun t ds heq => by cases heq), ?_⟩
        rintro s form rfl hnumeric hform hidentifier hconverts
        exact (hlog hnumeric hform hconverts).mp
          (h s (canonicalText_pForm hnumeric hform hidentifier))
      · rintro ⟨-, h⟩ tag htag
        rcases canonicalTag_other hnumeral with ⟨s, rfl, hok, hidentifier⟩ | ⟨e, he, -⟩
        · obtain rfl := Except.ok.inj (hok.symm.trans htag)
          have hread := numericValue_other (P := P) hnumeral
          cases hform : P.pForm s with
          | none =>
              rw [hform] at hread
              rw [hread]
              simp
          | some form =>
              by_cases hconverts : P.Converts (pDecimal form).digits.length
              · exact (hlog hnumeral hform hconverts).mpr
                  (h s form rfl hnumeral hform hidentifier hconverts)
              · rw [hform] at hread
                dsimp only at hread
                rw [hread, if_neg hconverts]
                simp
        · rw [he] at htag
          cases htag

/-! ### Coordinates -/

/-- The rational a spelling is read as keeps its integers bounded. -/
def ValueWithin (q : ℚ) : Prop :=
  if IsDecimal q then q.num.natAbs * 10 ^ places q.den < 10 ^ 64
  else q.num.natAbs < 10 ^ 64 ∧ q.den < 10 ^ 64

/-- The integers of the tag of a rational are bounded just when its numerator is, in units of its
last place. -/
theorem bounded_decimalTag_iff {q : ℚ} {source : Except TagError String}
    (hsource : Quotes P q source) :
    (∀ n ∈ (decimalTag P q source).log, Bounded n) ↔ ValueWithin q := by
  unfold ValueWithin
  by_cases hq : IsDecimal q
  · rw [if_pos hq, decimalTag_of_decimal hq]
    simp only [List.mem_cons, List.not_mem_nil, or_false, forall_eq_or_imp, forall_eq]
    have hproduct : Bounded (q.num * 10 ^ places q.den) ↔
        q.num.natAbs * 10 ^ places q.den < 10 ^ 64 := by
      rw [Bounded, Int.natAbs_mul, Int.natAbs_pow]
      rfl
    constructor
    · rintro ⟨-, -, -, h, -⟩
      exact hproduct.mp h
    · intro h
      have hpow : 0 < 10 ^ places q.den := by positivity
      have hplaces : 10 ^ places q.den < 10 ^ 64 := by
        by_cases hnum : q.num = 0
        · have hden : q.den = 1 := by
            rw [Rat.num_eq_zero.mp hnum]
            rfl
          rw [hden, places_one]
          decide
        · exact (Nat.le_mul_of_pos_left _ (Int.natAbs_pos.mpr hnum)).trans_lt h
      have hscaled : (scaled q).natAbs ≤ q.num.natAbs * 10 ^ places q.den := by
        calc (scaled q).natAbs ≤ (q.num * 10 ^ places q.den).natAbs :=
              Int.natAbs_ediv_le_natAbs _ _
          _ = q.num.natAbs * 10 ^ places q.den := by
              rw [Int.natAbs_mul, Int.natAbs_pow]
              rfl
      refine ⟨(Nat.le_mul_of_pos_right _ hpow).trans_lt h, ?_, ?_, hproduct.mpr h,
        hscaled.trans_lt h⟩
      · exact bounded_natCast.mpr ((Nat.le_of_dvd hpow hq).trans_lt hplaces)
      · have hlt := (Nat.pow_lt_pow_iff_right (by decide : 1 < 10)).mp hplaces
        exact bounded_pow.mpr (Nat.lt_succ_iff.mp hlt)
  · rw [if_neg hq, (decimalTag_of_not_decimal hq hsource).1]
    simp only [List.mem_cons, List.not_mem_nil, or_false, forall_eq_or_imp, forall_eq,
      bounded_natCast]
    exact Iff.rfl

/-- What a spelling is to keep for its integers to be bounded. -/
def WithinCap (P : Python) (x : Spelling P) : Prop :=
  TagWithin P x ∧ ∀ q, handed P x = some q → ValueWithin q

theorem readIntegers_subset {x : Spelling P} {n : Int} (h : n ∈ readIntegers P x) :
    ∃ tag, canonicalTag P x = .ok tag ∧ n ∈ (numericValue P tag).log := by
  cases x with
  | str s =>
      simp only [readIntegers] at h
      cases htag : canonicalText P s with
      | ok tag =>
          rw [htag] at h
          exact ⟨tag, htag, h⟩
      | error e =>
          rw [htag] at h
          cases h
  | int n => cases h
  | float x => cases h
  | fraction q => cases h

/-- The integers of a coordinate are bounded where those of its tag are, just when its value keeps
them so. -/
theorem bounded_coordinate_iff {x : Spelling P} (htag : TagWithin P x) :
    (∀ n ∈ (coordinate P x).log, Bounded n) ↔ ∀ q, handed P x = some q → ValueWithin q := by
  cases hhanded : handed P x with
  | some q =>
      obtain ⟨source, hsource, hcoordinate⟩ := coordinate_of_handed hhanded
      have hread : ∀ n ∈ readIntegers P x, Bounded n := by
        intro n hn
        obtain ⟨tag, hok, hmem⟩ := readIntegers_subset hn
        exact (bounded_tag_iff x).mpr htag tag hok n hmem
      rw [hcoordinate]
      constructor
      · intro h r hr
        rw [← Option.some.inj hr]
        exact (bounded_decimalTag_iff hsource).mp fun n hn => h n (List.mem_append_right _ hn)
      · intro h n hn
        rcases List.mem_append.mp hn with hn | hn
        · exact hread n hn
        · exact (bounded_decimalTag_iff hsource).mpr (h q rfl) n hn
  | none =>
      have hlog : (coordinate P x).log = [] := by
        rcases coordinate_of_not_handed hhanded with ⟨s, rfl, -, -, -, hok⟩ | ⟨e, he, -⟩
        · rw [hok]
        · rw [he]
      rw [hlog]
      simp

/-! ### Families -/

/-- The integers of a family check are those of the values of its tags. -/
theorem mem_checkFamily_log {name : List Char} {inherited added : List (List Char)} {n : Int}
    (h : n ∈ (checkFamily P name inherited added).log) :
    ∃ tag ∈ inherited ++ added, n ∈ (numericValue P tag).log := by
  unfold checkFamily at h
  split at h
  · cases h
  · rcases Traced.mem_bind_log.mp h with h | ⟨-, -, h⟩
    · obtain ⟨tag, htag, seen, hstep⟩ := Traced.mem_foldlM_log h
      refine ⟨tag, htag, ?_⟩
      unfold checkTag at hstep
      rcases Traced.mem_bind_log.mp hstep with hvalue | ⟨value, -, hrest⟩
      · exact hvalue
      · exfalso
        cases value with
        | none => cases hrest
        | some value =>
            dsimp only at hrest
            split_ifs at hrest
            · cases htext : P.fractionText value with
              | error e =>
                  rw [htext] at hrest
                  cases hrest
              | ok shown =>
                  rw [htext] at hrest
                  cases hrest
            · cases hrest
    · cases h

theorem log_checkFamily_one (name tag : List Char) {n : Int} (h : n ∈ (numericValue P tag).log) :
    n ∈ (checkFamily P name [] [tag]).log := by
  unfold checkFamily
  simp only [List.find?_cons, List.contains_nil, List.find?_nil]
  refine Traced.mem_bind_log.mpr (Or.inl ?_)
  rw [List.nil_append, List.foldlM_cons]
  exact Traced.mem_bind_log.mpr (Or.inl (Traced.mem_bind_log.mpr (Or.inl h)))

/-- The integers that spellings are taken through as coordinates, and as the tags of one family. -/
def BoundedIntegers (P : Python) (xs : List (Spelling P)) : Prop :=
  (∀ x ∈ xs, ∀ n ∈ (coordinate P x).log, Bounded n) ∧
    ∀ name inherited added,
      (∀ tag ∈ inherited ++ added, ∃ x ∈ xs, canonicalTag P x = .ok tag) →
      ∀ n ∈ (checkFamily P name inherited added).log, Bounded n

/-- **Bounded integers.** The integers spellings are taken through are below ten to the
sixty-fourth just when an accepted tag has at most sixty-three places, a p-form also a mantissa
below that bound, and the value of a coordinate is below it in units of its last place. -/
theorem bounded_integers (P : Python) (xs : List (Spelling P)) :
    BoundedIntegers P xs ↔ ∀ x ∈ xs, WithinCap P x := by
  constructor
  · rintro ⟨hcoordinate, hfamily⟩ x hx
    have htag : TagWithin P x := by
      refine (bounded_tag_iff x).mp fun tag htag n hn => ?_
      refine hfamily [] [] [tag] ?_ n (log_checkFamily_one [] tag hn)
      intro tag' htag'
      rw [List.nil_append, List.mem_singleton] at htag'
      exact ⟨x, hx, htag' ▸ htag⟩
    exact ⟨htag, (bounded_coordinate_iff htag).mp (hcoordinate x hx)⟩
  · intro h
    refine ⟨fun x hx => (bounded_coordinate_iff (h x hx).1).mpr (h x hx).2, ?_⟩
    intro name inherited added hfamily n hn
    obtain ⟨tag, htag, hmem⟩ := mem_checkFamily_log hn
    obtain ⟨x, hx, hok⟩ := hfamily tag htag
    exact (bounded_tag_iff x).mpr (h x hx).1 tag hok n hmem

/-- One in the thousand-millionth place is accepted, and taken through that power of ten. -/
theorem not_bounded_integers :
    ¬BoundedIntegers widePython [.str "1e-1000000000".toList] := by
  rintro ⟨-, hfamily⟩
  have htag : canonicalTag widePython (.str "1e-1000000000".toList) =
      .ok (rendered ⟨false, ['1'], -1000000000⟩) := by decide +kernel
  have hspelled : Spelled widePython ⟨false, ['1'], -1000000000⟩ := by
    refine ⟨.digits _ _ _ (by decide) (by decide) (by decide), fun c hc => ?_⟩
    rw [List.mem_singleton.mp hc]
    exact widePython.digits.isDigit_ascii (by decide)
  have hfits : Fits ⟨false, ['1'], -1000000000⟩ := by decide +kernel
  have hplaces : (-63 : Int) ≤ -1000000000 := by
    refine (bounded_rendered hspelled hfits).mp fun n hn => ?_
    refine hfamily [] [] [_] ?_ n (log_checkFamily_one [] _ hn)
    intro tag hmem
    rw [List.nil_append, List.mem_singleton] at hmem
    exact ⟨_, List.mem_singleton_self _, hmem ▸ htag⟩
  omega

end Graphed
