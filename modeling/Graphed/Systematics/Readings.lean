import Graphed.Systematics.CoordinateLaws

/-!
# What coordinates name

Whatever is given as a coordinate is refused, kept as an identifier, or handed on as the rational it
denotes, to be given the tag of that rational.
-/

namespace Graphed

open Decimals

variable {P : Python}

/-! ### What a spelling is read as -/

/-- The decimal a p-form spells. -/
def pDecimal (form : Python.Marked) : Decimal :=
  ⟨form.negative, form.int ++ form.rest.getD [], -((form.rest.getD []).length : Int)⟩

/-- The decimal a spelling is read as by `canonical_tag`, and the digits that are converted. -/
def numeral (P : Python) : Spelling P → Option (Decimal × List Char)
  | .str s => numericText P s
  | .int n => some (⟨decide (n < 0), Nat.toDigits 10 n.natAbs, 0⟩, Nat.toDigits 10 n.natAbs)
  | .float (.finite _ sugar _ _ _) => some (sugar.decimal P, (sugar.exp.map Prod.snd).getD [])
  | .float _ => none
  | .fraction _ => none

theorem floatSugar_intText (n : Int) : P.floatSugar (Python.intText n) =
    some ⟨decide (n < 0), Nat.toDigits 10 n.natAbs, [], none⟩ := by
  have hdigits := Python.isDigit_toDigits (P := P) n.natAbs
  have hne : Nat.toDigits 10 n.natAbs ≠ [] := Nat.toDigits_ne_nil
  obtain ⟨htake, hdrop⟩ := Python.takeWhile_digits hdigits
  unfold Python.floatSugar Python.intText
  by_cases hn : n < 0
  · simp only [List.head?_cons, decide_true, if_true, List.tail_cons, htake, hdrop,
      if_neg hne, hn]
    rfl
  · have hhead : (Nat.toDigits 10 n.natAbs).head? ≠ some '-' := by
      have h : (Nat.toDigits 10 n.natAbs ++ []).head? ≠ some '-' :=
        head_ne_of_digits hne hdigits Python.not_isDigit_of_ascii
      rwa [List.append_nil] at h
    simp only [hhead, decide_false, if_false, htake, hdrop, if_neg hne, hn]
    rfl

/-- A numeric spelling is spelled minimally, once its digits are converted. -/
theorem canonicalTag_number {x : Spelling P} {t : Decimal} {ds : List Char}
    (h : numeral P x = some (t, ds)) : ∃ source, canonicalTag P x =
      if P.Converts ds.length then spellNumber P (normalize t) source
      else .error .valueError := by
  cases x with
  | str s => exact ⟨s, canonicalText_numeric h⟩
  | int n =>
      obtain ⟨rfl, rfl⟩ := Prod.mk.inj (Option.some.inj h)
      refine ⟨Python.intText n, ?_⟩
      have hread := canonicalText_numeric (numericText_of_sugar (floatSugar_intText (P := P) n))
      have hempty : P.Converts 0 := Python.converts_small (by decide)
      change (P.str n >>= canonicalText P) = _
      unfold Python.str
      split_ifs
      · change canonicalText P _ = _
        rw [hread]
        simp [Python.Sugar.decimal, exponentValue, if_pos hempty]
      · rfl
  | float x =>
      cases x with
      | finite text sugar hsugar hlength hexp =>
          obtain ⟨rfl, rfl⟩ := Prod.mk.inj (Option.some.inj h)
          exact ⟨text, canonicalText_numeric (numericText_of_sugar hsugar)⟩
      | nan => cases h
      | infinite negative => cases h
  | fraction q => cases h

/-- The tag of a numeric spelling is its minimal decimal, written out. -/
theorem canonicalTag_numeral {x : Spelling P} {t : Decimal} {ds tag : List Char}
    (h : numeral P x = some (t, ds)) (htag : canonicalTag P x = .ok tag) :
    P.Converts ds.length ∧ Fits (normalize t) ∧ tag = rendered (normalize t) := by
  obtain ⟨source, hsource⟩ := canonicalTag_number h
  rw [hsource] at htag
  split_ifs at htag with hconverts
  by_cases hfits : Fits (normalize t)
  · rw [spellNumber_of_fits (normal_normalize t) hfits] at htag
    exact ⟨hconverts, hfits, (Except.ok.inj htag).symm⟩
  · obtain ⟨e, he, -⟩ := spellNumber_of_not_fits (P := P) hfits source
    rw [he] at htag
    cases htag

theorem spelled_of_numeral {x : Spelling P} {t : Decimal} {ds : List Char}
    (h : numeral P x = some (t, ds)) : Spelled P (normalize t) := by
  refine ⟨normal_normalize t, digits_normalize Python.isDigit_zero ?_⟩
  cases x with
  | str s => exact (numericText_digits h).2.1
  | int n =>
      obtain ⟨rfl, -⟩ := Prod.mk.inj (Option.some.inj h)
      exact Python.isDigit_toDigits _
  | float x =>
      cases x with
      | finite text sugar hsugar hlength hexp =>
          obtain ⟨rfl, -⟩ := Prod.mk.inj (Option.some.inj h)
          exact (Python.floatSugar_some hsugar).2.1
      | nan => cases h
      | infinite negative => cases h
  | fraction q => cases h

theorem numericText_of_no_digit {tag : List Char} {c d : Char} (hhead : tag.head? = some c)
    (hsecond : tag.tail.head? = some d) (hc : P.isDigit c = false) (hd : P.isDigit d = false) :
    numericText P tag = none := by
  have hnil : ∀ cs : List Char, cs.head? = some c ∨ cs.head? = some d →
      cs.takeWhile P.isDigit = [] := by
    intro cs h
    cases cs with
    | nil => rfl
    | cons a as =>
        have ha : P.isDigit a = false := by
          rcases h with h | h
          · rwa [Option.some.inj h]
          · rwa [Option.some.inj h]
        simp [ha]
  unfold numericText Python.floatSugar Python.canonicalForm Python.marked
  have hminus : (if tag.head? = some '-' then tag.tail else tag).takeWhile P.isDigit = [] := by
    apply hnil
    split_ifs
    · exact Or.inr hsecond
    · exact Or.inl hhead
  have hplain : (if tag.head? = some 'm' then tag.tail else tag).takeWhile P.isDigit = [] := by
    apply hnil
    split_ifs
    · exact Or.inr hsecond
    · exact Or.inl hhead
  simp [hminus, hplain]

/-- Another spelling is an identifier kept verbatim, or refused. -/
theorem canonicalTag_other {x : Spelling P} (h : numeral P x = none) :
    (∃ s, x = .str s ∧ canonicalTag P x = .ok s ∧ isIdentifier s = true) ∨
      ∃ e, canonicalTag P x = .error e ∧
        (e = .valueError ↔ ∃ q, x = .fraction q ∧ ¬(P.Writes q.num ∧ P.Writes q.den)) := by
  cases x with
  | str s =>
      rcases canonicalText_other h with ⟨message, herror⟩ | ⟨hok, hidentifier⟩
      · exact Or.inr ⟨_, herror, by simp⟩
      · exact Or.inl ⟨s, rfl, hok, hidentifier⟩
  | int n => cases h
  | float x =>
      right
      have hother : ∀ (text : List Char) {c d : Char}, text.head? = some c →
          text.tail.head? = some d → P.isDigit c = false → P.isDigit d = false →
          (text.map Char.toLower ∈ notFinite ∨ isIdentifier text = false) →
          ∃ message, canonicalText P text = .error (.graphed message) := by
        intro text c d hhead hsecond hc hd hout
        rcases canonicalText_other (numericText_of_no_digit hhead hsecond hc hd) with
          herror | ⟨hok, hidentifier⟩
        · exact herror
        · rcases hout with hfinite | hnot
          · have hne : text ≠ [] := by
              rintro rfl
              cases hhead
            unfold canonicalText
            rw [if_neg hne, if_pos hfinite]
            exact ⟨_, rfl⟩
          · rw [hnot] at hidentifier
            cases hidentifier
      have hletters : P.isDigit 'n' = false ∧ P.isDigit 'a' = false ∧ P.isDigit 'i' = false ∧
          P.isDigit '-' = false := ⟨Python.not_isDigit_of_ascii, Python.not_isDigit_of_ascii,
        Python.not_isDigit_of_ascii, Python.not_isDigit_of_ascii⟩
      obtain ⟨hn, ha, hi, hminus⟩ := hletters
      cases x with
      | finite text sugar hsugar hlength hexp => cases h
      | nan =>
          obtain ⟨message, herror⟩ := hother "nan".toList rfl rfl hn ha
            (Or.inl (by decide))
          exact ⟨_, herror, by simp⟩
      | infinite negative =>
          cases negative with
          | true =>
              obtain ⟨message, herror⟩ := hother "-inf".toList rfl rfl hminus
                hi (Or.inr (by decide))
              exact ⟨_, herror, by simp⟩
          | false =>
              obtain ⟨message, herror⟩ := hother "inf".toList rfl rfl hi hn
                (Or.inl (by decide))
              exact ⟨_, herror, by simp⟩
  | fraction q =>
      right
      change ∃ e, (P.fractionRepr q >>= _) = _ ∧ _
      rcases fractionRepr_cases P q with ⟨hwrites, text, htext⟩ | ⟨hnot, htext⟩
      · rw [htext]
        exact ⟨_, rfl, by simp [hwrites]⟩
      · rw [htext]
        exact ⟨.valueError, rfl, by simpa using hnot⟩

/-! ### What a coordinate is of -/

/-- A p-form is kept where it is an identifier. -/
theorem canonicalText_pForm {tag : List Char} {form : Python.Marked}
    (hnone : numericText P tag = none) (hform : P.pForm tag = some form)
    (hidentifier : isIdentifier tag = true) : canonicalText P tag = .ok tag := by
  obtain ⟨-, -, hhead⟩ := Python.marked_some hform
  obtain ⟨hne, hfinite⟩ := notMem_notFinite (Or.inr rfl) hhead
  obtain ⟨hsugar, hcanonical⟩ := numericText_none hnone
  have hlegal : ¬(tag.head?.any Char.isDigit = true ∧ P.pForm tag = none) := by
    rw [hform]
    simp
  unfold canonicalText
  rw [if_neg hne, if_neg hfinite, hsugar, hcanonical]
  dsimp only
  rw [if_neg (by simp [hidentifier]), if_neg hlegal]
  rfl

theorem canonicalText_not_identifier {tag : List Char} (hnone : numericText P tag = none)
    (hidentifier : isIdentifier tag = false) :
    ∃ message, canonicalText P tag = .error (.graphed message) := by
  rcases canonicalText_other hnone with h | ⟨-, htrue⟩
  · exact h
  · rw [hidentifier] at htrue
    cases htrue

/-- The value of a kept tag, and the integers it is made of. -/
theorem numericValue_other {tag : List Char} (hnone : numericText P tag = none) :
    numericValue P tag = match P.pForm tag with
      | none => ⟨[], .ok none⟩
      | some form =>
          if P.Converts (pDecimal form).digits.length then
            ⟨[P.digits.number (pDecimal form).digits, 10 ^ (form.rest.getD []).length],
              .ok (some ((pDecimal form).value P.digits))⟩
          else ⟨[], .error .valueError⟩ := by
  unfold numericValue
  rw [(numericText_none hnone).2]
  cases P.pForm tag with
  | none => rfl
  | some form =>
      have hvalue : (pDecimal form).value P.digits = (if form.negative then (-1 : ℚ) else 1) *
          (P.digits.number (form.int ++ form.rest.getD []) / 10 ^ (form.rest.getD []).length) := by
        unfold Decimal.value pDecimal
        dsimp only
        rw [zpow_neg, zpow_natCast]
        ring
      dsimp only
      rw [hvalue]
      unfold Python.int
      by_cases hconverts : P.Converts (form.int ++ form.rest.getD []).length
      · rw [if_pos hconverts]
        exact (if_pos hconverts).symm
      · rw [if_neg hconverts]
        exact (if_neg hconverts).symm

/-- The rational a coordinate is the decimal of, where its spelling is read. -/
def handed (P : Python) : Spelling P → Option ℚ
  | .str s =>
      match numericText P s with
      | some (t, ds) =>
          if P.Converts ds.length ∧ Fits (normalize t) then some (t.value P.digits) else none
      | none =>
          if isIdentifier s then
            (P.pForm s).bind fun form =>
              if P.Converts (pDecimal form).digits.length then
                some ((pDecimal form).value P.digits)
              else none
          else none
  | .int n => some n
  | .float (.finite _ sugar _ _ _) => some ((sugar.decimal P).value P.digits)
  | .float _ => none
  | .fraction q => some q

/-- The integers of the value a text is read as. -/
def readIntegers (P : Python) : Spelling P → List Int
  | .str s =>
      match canonicalText P s with
      | .ok tag => (numericValue P tag).log
      | .error _ => []
  | _ => []

/-- The integers that are read from the digits of a spelling, or written of its value, can be. -/
def Readable (P : Python) : Spelling P → Prop
  | .str s =>
      match numericText P s with
      | some (t, ds) => P.Converts ds.length ∧
          if Fits (normalize t) then Written P (t.value P.digits)
          else SpellingWrites P (normalize t)
      | none => ∀ form, P.pForm s = some form → isIdentifier s = true →
          P.Converts (pDecimal form).digits.length
  | .int n => P.Writes n
  | .float (.finite _ _ _ _ _) => True
  | .float _ => False
  | .fraction q => Written P q

/-! ### Spellings that are short enough -/

theorem written_of_length {t : Decimal} (hnum : P.Converts (t.digits.length + t.exp10.toNat))
    (hden : P.Converts ((-t.exp10).toNat + 1)) : Written P (t.value P.digits) := by
  obtain ⟨-, -, hle, hnumerator, hscaled⟩ := value_bounds (P := P) t
  have hlt : P.digits.number t.digits * 10 ^ t.exp10.toNat <
      10 ^ (t.digits.length + t.exp10.toNat) := by
    rw [pow_add]
    exact Nat.mul_lt_mul_of_pos_right (P.digits.number_lt t.digits) (by positivity)
  refine ⟨writes_of_lt hnum (hnumerator.trans_lt hlt), writes_of_lt hden ?_,
    fun _ => writes_of_lt hnum (hscaled.trans_lt hlt)⟩
  rw [Int.natAbs_natCast]
  exact hle.trans_lt (Nat.pow_lt_pow_right (by decide) (Nat.lt_succ_self _))

/-- A fraction that is read from a p-form can be written. -/
theorem written_pDecimal {tag : List Char} {form : Python.Marked} (h : P.pForm tag = some form)
    (hconverts : P.Converts (pDecimal form).digits.length) :
    Written P ((pDecimal form).value P.digits) := by
  obtain ⟨hint, -, -⟩ := Python.marked_some h
  have hpos : 0 < form.int.length := List.length_pos_of_ne_nil hint
  apply written_of_length
  · have hexp : (pDecimal form).exp10.toNat = 0 := by
      simp only [pDecimal]
      omega
    rw [hexp]
    exact hconverts
  · refine hconverts.imp id fun hle => le_trans ?_ hle
    simp only [pDecimal, List.length_append, neg_neg, Int.toNat_natCast]
    omega

namespace Python

theorem length_sugarExponent {cs : List Char} {exp : Option (Bool × List Char)}
    (h : P.sugarExponent cs = some exp) :
    ((exp.map Prod.snd).getD []).length ≤ cs.length := by
  have hdigits : ∀ {negative : Bool} {ds rest : List Char},
      (P.digitsOnly ds).map (fun ds => some (negative, ds)) = some exp →
      ds.length ≤ rest.length → ((exp.map Prod.snd).getD []).length ≤ rest.length := by
    intro negative ds rest hmap hle
    obtain ⟨es, hes, rfl⟩ := Option.map_eq_some_iff.mp hmap
    rw [(digitsOnly_some hes).1]
    exact hle
  cases cs with
  | nil =>
      obtain rfl := Option.some.inj h
      exact Nat.zero_le _
  | cons c rest =>
      unfold sugarExponent at h
      dsimp only at h
      split_ifs at h
      split at h
      · exact hdigits h (by simp; omega)
      · exact hdigits h (by simp; omega)
      · exact hdigits h (by simp)

/-- A float literal is as long as its parts. -/
theorem length_floatSugar {tag : List Char} {sugar : Sugar} (h : P.floatSugar tag = some sugar) :
    sugar.int.length + sugar.frac.length + ((sugar.exp.map Prod.snd).getD []).length ≤
      tag.length := by
  have hsplit : ∀ cs : List Char,
      (cs.takeWhile P.isDigit).length + (cs.dropWhile P.isDigit).length = cs.length := by
    intro cs
    rw [← List.length_append, List.takeWhile_append_dropWhile]
  unfold floatSugar at h
  extract_lets negative body int at h
  have hbody : body.length ≤ tag.length := by
    dsimp only [body]
    split_ifs
    · rw [List.length_tail]
      omega
    · exact le_rfl
  have hint := hsplit body
  split_ifs at h with hnil
  split at h
  · rename_i rest hrest
    extract_lets frac at h
    split_ifs at h with hfrac
    obtain ⟨exp, hexp, rfl⟩ := Option.map_eq_some_iff.mp h
    have hlength := length_sugarExponent hexp
    have hfraction := hsplit rest
    rw [hrest, List.length_cons] at hint
    dsimp only [int, frac]
    omega
  · obtain ⟨exp, hexp, rfl⟩ := Option.map_eq_some_iff.mp h
    have hlength := length_sugarExponent hexp
    dsimp only [int]
    rw [List.length_nil]
    omega

end Python

/-- What a double's literal spells is short. -/
theorem converts_double {text : List Char} {sugar : Python.Sugar}
    (hsugar : P.floatSugar text = some sugar) (hlength : text.length ≤ 24)
    (hexp : (exponentValue P sugar.exp).natAbs ≤ 324) :
    P.Converts ((sugar.exp.map Prod.snd).getD []).length ∧
      SpellingWrites P (normalize (sugar.decimal P)) ∧
      Written P ((sugar.decimal P).value P.digits) := by
  have hparts := Python.length_floatSugar hsugar
  have hdigits : (sugar.decimal P).digits.length = sugar.int.length + sugar.frac.length :=
    List.length_append
  have hten : (sugar.decimal P).exp10 = exponentValue P sugar.exp - sugar.frac.length := rfl
  refine ⟨Python.converts_small (by omega), spellingWrites_normalize ?_, written_of_length
    (Python.converts_small (by omega)) (Python.converts_small (by omega))⟩
  exact P.limit_ge.imp id fun hlimit => ⟨by omega, by omega, by omega⟩

/-! ### Coordinates -/

theorem coordinate_of_error {s : List Char} {e : TagError} (h : canonicalText P s = .error e) :
    coordinate P (.str s) = ⟨[], .error e⟩ := by
  simp only [coordinate, h]
  rfl

/-- A text is read as the value of its tag. -/
theorem coordinate_of_tag {s tag : List Char} {log : List Int} {r : Except TagError (Option ℚ)}
    (h : canonicalText P s = .ok tag) :
    numericValue P tag = ⟨log, r⟩ → coordinate P (.str s) = match r with
      | .error e => ⟨log, .error e⟩
      | .ok none => ⟨log, .ok tag⟩
      | .ok (some q) => ⟨log ++ (decimalTag P q (.ok (P.repr s))).log,
          (decimalTag P q (.ok (P.repr s))).result⟩ := by
  intro hvalue
  simp only [coordinate, h]
  change (numericValue P tag >>= _) = _
  cases r with
  | error e => rw [hvalue, Traced.bind_of_error rfl]
  | ok exact =>
      rw [hvalue, Traced.bind_of_ok rfl]
      cases exact with
      | none => exact congrArg (Traced.mk · (.ok tag)) (List.append_nil log)
      | some q => rfl

theorem quotes_ok (q : ℚ) (shown : String) : Quotes P q (.ok shown) := fun e h => by cases h

/-- A spelling that is read is refused or given the tag of its rational. -/
theorem coordinate_of_handed {x : Spelling P} {q : ℚ} (h : handed P x = some q) :
    ∃ source, Quotes P q source ∧ coordinate P x =
      ⟨readIntegers P x ++ (decimalTag P q source).log, (decimalTag P q source).result⟩ := by
  cases x with
  | str s =>
      refine ⟨.ok (P.repr s), quotes_ok q _, ?_⟩
      simp only [handed] at h
      simp only [readIntegers]
      cases hnumeric : numericText P s with
      | some entry =>
          obtain ⟨t, ds⟩ := entry
          rw [hnumeric] at h
          dsimp only at h
          split_ifs at h with hread
          obtain rfl := Option.some.inj h
          have hspelled := spelled_of_numericText hnumeric
          have hok : canonicalText P s = .ok (rendered (normalize t)) := by
            rw [canonicalText_numeric hnumeric, if_pos hread.1,
              spellNumber_of_fits hspelled.normal hread.2]
          have hvalue := numericValue_rendered hspelled hread.2
          rw [value_normalize] at hvalue
          rw [coordinate_of_tag hok hvalue, hok]
          dsimp only
          rw [hvalue]
      | none =>
          rw [hnumeric] at h
          dsimp only at h
          split_ifs at h with hidentifier
          obtain ⟨form, hform, hsome⟩ := Option.bind_eq_some_iff.mp h
          split_ifs at hsome with hconverts
          obtain rfl := Option.some.inj hsome
          have hok := canonicalText_pForm hnumeric hform hidentifier
          have hvalue := numericValue_other hnumeric
          rw [hform] at hvalue
          dsimp only at hvalue
          rw [if_pos hconverts] at hvalue
          rw [coordinate_of_tag hok hvalue, hok]
          dsimp only
          rw [hvalue]
  | int n =>
      obtain rfl := Option.some.inj h
      refine ⟨(P.str n).map String.ofList, ?_, rfl⟩
      intro e he
      by_cases hwrites : P.Writes n
      · rw [str_of_writes hwrites] at he
        cases he
      · rw [str_of_not_writes hwrites] at he
        cases he
        exact ⟨rfl, fun hwritten => hwrites hwritten.num⟩
  | float x =>
      cases x with
      | finite text sugar hsugar hlength hexp =>
          obtain rfl := Option.some.inj h
          exact ⟨_, quotes_ok _ _, rfl⟩
      | nan => cases h
      | infinite negative => cases h
  | fraction q =>
      obtain rfl := Option.some.inj h
      refine ⟨P.fractionRepr _, ?_, rfl⟩
      intro e he
      rcases fractionRepr_cases P _ with ⟨-, text, htext⟩ | ⟨hnot, htext⟩
      · rw [htext] at he
        cases he
      · rw [htext] at he
        cases he
        exact ⟨rfl, fun hwritten => hnot ⟨hwritten.num, hwritten.den⟩⟩

/-- Another spelling is an identifier, kept verbatim, or refused before it is read. -/
theorem coordinate_of_not_handed {x : Spelling P} (h : handed P x = none) :
    (∃ s, x = .str s ∧ numericText P s = none ∧ P.pForm s = none ∧ canonicalTag P x = .ok s ∧
        coordinate P x = ⟨[], .ok s⟩) ∨
      ∃ e, coordinate P x = ⟨[], .error e⟩ ∧ (e = .valueError ↔ ¬Readable P x) := by
  cases x with
  | str s =>
      simp only [handed] at h
      simp only [Readable]
      cases hnumeric : numericText P s with
      | some entry =>
          obtain ⟨t, ds⟩ := entry
          rw [hnumeric] at h
          dsimp only at h ⊢
          right
          split_ifs at h with hread
          have hread' := canonicalText_numeric hnumeric
          by_cases hconverts : P.Converts ds.length
          · have hfits : ¬Fits (normalize t) := fun hfits => hread ⟨hconverts, hfits⟩
            obtain ⟨e, he, hiff⟩ := spellNumber_of_not_fits (P := P) hfits s
            rw [if_pos hconverts, he] at hread'
            refine ⟨e, coordinate_of_error hread', ?_⟩
            rw [hiff, if_neg hfits]
            simp [hconverts]
          · rw [if_neg hconverts] at hread'
            exact ⟨.valueError, coordinate_of_error hread', by simp [hconverts]⟩
      | none =>
          rw [hnumeric] at h
          dsimp only at h ⊢
          by_cases hidentifier : isIdentifier s = true
          · rw [if_pos hidentifier] at h
            have hvalue := numericValue_other hnumeric
            cases hform : P.pForm s with
            | none =>
                rw [hform] at hvalue
                rcases canonicalText_other hnumeric with ⟨message, herror⟩ | ⟨hok, -⟩
                · exact Or.inr ⟨_, coordinate_of_error herror, by simp⟩
                · exact Or.inl ⟨s, rfl, hnumeric, hform, hok, coordinate_of_tag hok hvalue⟩
            | some form =>
                right
                have hok := canonicalText_pForm hnumeric hform hidentifier
                rw [hform, Option.bind_some] at h
                rw [hform] at hvalue
                dsimp only at hvalue
                split_ifs at h with hconverts
                rw [if_neg hconverts] at hvalue
                exact ⟨.valueError, coordinate_of_tag hok hvalue, by simp [hconverts, hidentifier]⟩
          · obtain ⟨message, herror⟩ :=
              canonicalText_not_identifier hnumeric (Bool.eq_false_iff.mpr hidentifier)
            exact Or.inr ⟨_, coordinate_of_error herror, by simp [hidentifier]⟩
  | int n => cases h
  | float x =>
      right
      cases x with
      | finite text sugar hsugar hlength hexp => cases h
      | nan => exact ⟨.valueError, rfl, by simp [Readable]⟩
      | infinite negative => exact ⟨.valueError, rfl, by simp [Readable]⟩
  | fraction q => cases h

end Graphed
