import Graphed.Systematics.Readings

/-!
# Tags and coordinates name values exactly

Two numeric spellings have one tag where they are written with the same digits, and one coordinate
just when they denote one value. Other refusals than the package's own come from integers too long
to be converted, and from floats that are not finite.
-/

namespace Graphed

open Decimals

variable {P : Python}

/-! ### Accepted tags -/

theorem length_rendered {t : Decimal} (ht : t.Normal) (hfits : Fits t) :
    (rendered t).length ≤ maxTagChars := by
  unfold rendered
  cases ht with
  | zero => decide
  | digits negative digits e hne hhead hlast =>
      have hzero : digits ≠ ['0'] := by
        rintro rfl
        exact hhead rfl
      obtain ⟨hmagnitude, hlength⟩ := hfits.resolve_left hzero
      have hmarker : (marker ⟨negative, digits, e⟩).length = signLength ⟨negative, digits, e⟩ := by
        unfold marker signLength
        cases negative <;> rfl
      unfold tagLength at hlength
      dsimp only at hlength ⊢
      by_cases he : 0 ≤ e
      · have hone : (digits.length : Int) + e ≤ magnitude ⟨negative, digits, e⟩ := le_max_left _ _
        rw [if_pos he] at hlength ⊢
        simp only [List.length_append, List.length_replicate, hmarker]
        omega
      · rw [if_neg he] at hlength ⊢
        simp only [List.length_append, List.length_cons, List.length_nil, hmarker]
        omega

theorem rendered_inj {a b : Decimal} (ha : Spelled P a) (hb : Spelled P b)
    (h : rendered a = rendered b) : a = b := by
  have hread := ha.numericText.symm.trans ((congrArg (numericText P) h).trans hb.numericText)
  have hdecimal := congrArg normalize (Prod.mk.inj (Option.some.inj hread)).1
  rwa [normalize_tagDigits ha.normal, normalize_tagDigits hb.normal] at hdecimal

/-! ### Accepted coordinates -/

/-- The rational a spelling denotes; none for an identifier. -/
def denoted (P : Python) : Spelling P → Option ℚ
  | .str s =>
      match numericText P s with
      | some (t, _) => some (t.value P.digits)
      | none => (P.pForm s).map fun form => (pDecimal form).value P.digits
  | .int n => some n
  | .float (.finite _ sugar _ _ _) => some ((sugar.decimal P).value P.digits)
  | .float _ => none
  | .fraction q => some q

theorem denoted_of_handed {x : Spelling P} {q : ℚ} (h : handed P x = some q) :
    denoted P x = some q := by
  cases x with
  | str s =>
      simp only [handed] at h
      simp only [denoted]
      cases hnumeric : numericText P s with
      | some entry =>
          rw [hnumeric] at h
          dsimp only at h
          split_ifs at h
          exact h
      | none =>
          rw [hnumeric] at h
          dsimp only at h
          split_ifs at h
          obtain ⟨form, hform, hsome⟩ := Option.bind_eq_some_iff.mp h
          split_ifs at hsome
          rw [hform]
          exact hsome
  | int n => exact h
  | float x =>
      cases x with
      | finite text sugar hsugar hlength hexp => exact h
      | nan => cases h
      | infinite negative => cases h
  | fraction q => exact h

/-- An accepted coordinate is the tag of the rational that is denoted, or an identifier. -/
theorem coordinate_ok {x : Spelling P} {c : List Char} (h : (coordinate P x).result = .ok c) :
    (∃ q, denoted P x = some q ∧ IsDecimal q ∧ Fits (decimalOf q) ∧ Written P q ∧
        c = rendered (decimalOf q)) ∨
      denoted P x = none ∧ canonicalText P c = .ok c ∧ numericText P c = none ∧
        P.pForm c = none := by
  cases hhanded : handed P x with
  | some q =>
      left
      obtain ⟨source, hsource, hcoordinate⟩ := coordinate_of_handed hhanded
      rw [hcoordinate] at h
      dsimp only at h
      rcases decimalTag_result hsource with ⟨hdecimal, hfits, hwritten, hok⟩ | ⟨e, he, -⟩
      · rw [hok] at h
        exact ⟨q, denoted_of_handed hhanded, hdecimal, hfits, hwritten, (Except.ok.inj h).symm⟩
      · rw [he] at h
        cases h
  | none =>
      right
      rcases coordinate_of_not_handed hhanded with
        ⟨s, rfl, hnumeric, hform, htag, hok⟩ | ⟨e, he, -⟩
      · rw [hok] at h
        obtain rfl := Except.ok.inj h
        refine ⟨?_, htag, hnumeric, hform⟩
        simp only [denoted, hnumeric, hform, Option.map_none]
      · rw [he] at h
        cases h

/-- A coordinate is read back as the rational it was given for. -/
theorem numericValue_coordinate {x : Spelling P} {c : List Char}
    (h : (coordinate P x).result = .ok c) : (numericValue P c).result = .ok (denoted P x) := by
  rcases coordinate_ok h with ⟨q, hq, hdecimal, hfits, -, rfl⟩ | ⟨hnone, -, hnumeric, hform⟩
  · rw [numericValue_rendered (spelled_decimalOf q) hfits, value_decimalOf hdecimal, hq]
  · rw [numericValue_other hnumeric, hform, hnone]

/-- The coordinate of a coordinate is itself. -/
theorem coordinate_coordinate {x : Spelling P} {c : List Char}
    (h : (coordinate P x).result = .ok c) : (coordinate P (.str c)).result = .ok c := by
  have hvalue := numericValue_coordinate h
  rcases coordinate_ok h with
    ⟨q, hq, hdecimal, hfits, hwritten, rfl⟩ | ⟨hnone, htag, hnumeric, hform⟩
  · have htag := canonicalText_rendered (spelled_decimalOf (P := P) q) hfits
    rw [hq] at hvalue
    have hread : numericValue P (rendered (decimalOf q)) =
        ⟨(numericValue P (rendered (decimalOf q))).log, .ok (some q)⟩ := by rw [← hvalue]
    rw [coordinate_of_tag htag hread]
    exact decimalTag_of_fits hdecimal hwritten hfits _
  · have hread := numericValue_other (P := P) hnumeric
    rw [hform] at hread
    rw [coordinate_of_tag htag hread]

/-- Two numbers have one coordinate just when they are the same. -/
theorem coordinate_eq_iff {x y : Spelling P} {q r : ℚ} {c d : List Char}
    (hx : denoted P x = some q) (hy : denoted P y = some r)
    (hc : (coordinate P x).result = .ok c) (hd : (coordinate P y).result = .ok d) :
    c = d ↔ q = r := by
  constructor
  · rintro rfl
    have hvalue := (numericValue_coordinate hc).symm.trans (numericValue_coordinate hd)
    rw [hx, hy] at hvalue
    exact Option.some.inj (Except.ok.inj hvalue)
  · rintro rfl
    have hof : ∀ {z : Spelling P} {e : List Char}, denoted P z = some q →
        (coordinate P z).result = .ok e → e = rendered (decimalOf q) := by
      intro z e hz he
      rcases coordinate_ok he with ⟨s, hs, -, -, -, rfl⟩ | ⟨hnone, -, -, -⟩
      · rw [hz] at hs
        rw [Option.some.inj hs]
      · rw [hz] at hnone
        cases hnone
    rw [hof hx hc, hof hy hd]

/-! ### Refusals -/

theorem readable_iff_written {x : Spelling P} {q : ℚ} (h : handed P x = some q) :
    Readable P x ↔ Written P q := by
  cases x with
  | str s =>
      simp only [handed] at h
      simp only [Readable]
      cases hnumeric : numericText P s with
      | some entry =>
          obtain ⟨t, ds⟩ := entry
          rw [hnumeric] at h
          dsimp only at h ⊢
          split_ifs at h with hread
          obtain rfl := Option.some.inj h
          rw [if_pos hread.2]
          exact and_iff_right hread.1
      | none =>
          rw [hnumeric] at h
          dsimp only at h ⊢
          split_ifs at h with hidentifier
          obtain ⟨form, hform, hsome⟩ := Option.bind_eq_some_iff.mp h
          split_ifs at hsome with hconverts
          obtain rfl := Option.some.inj hsome
          refine ⟨fun _ => written_pDecimal hform hconverts, ?_⟩
          intro _ form' hform' _
          rw [hform] at hform'
          rwa [← Option.some.inj hform']
  | int n =>
      obtain rfl := Option.some.inj h
      have hone : P.Writes ((n : ℚ).den : Int) :=
        Python.converts_small (show (Nat.toDigits 10 1).length ≤ 640 by decide)
      refine ⟨fun hwrites => ⟨hwrites, hone, fun _ => ?_⟩, fun hwritten => hwritten.num⟩
      rw [scaled_intCast]
      exact hwrites
  | float x =>
      cases x with
      | finite text sugar hsugar hlength hexp =>
          obtain rfl := Option.some.inj h
          exact iff_of_true trivial (converts_double hsugar hlength hexp).2.2
      | nan => cases h
      | infinite negative => cases h
  | fraction q =>
      obtain rfl := Option.some.inj h
      exact Iff.rfl

theorem coordinate_valueError (x : Spelling P) :
    (coordinate P x).result = .error .valueError ↔ ¬Readable P x := by
  cases hhanded : handed P x with
  | some q =>
      obtain ⟨source, hsource, hcoordinate⟩ := coordinate_of_handed hhanded
      rw [hcoordinate, readable_iff_written hhanded]
      dsimp only
      rcases decimalTag_result hsource with ⟨-, -, hwritten, hok⟩ | ⟨e, he, hiff⟩
      · rw [hok]
        simp [hwritten]
      · rw [he, ← hiff, Except.error.injEq]
  | none =>
      rcases coordinate_of_not_handed hhanded with
        ⟨s, rfl, hnumeric, hform, -, hok⟩ | ⟨e, he, hiff⟩
      · have hreadable : Readable P (.str s) := by
          simp only [Readable, hnumeric]
          intro form h
          rw [hform] at h
          cases h
        rw [hok]
        simp [hreadable]
      · rw [he, ← hiff, Except.error.injEq]

theorem converts_of_readable {x : Spelling P} {t : Decimal} {ds : List Char}
    (h : Readable P x) (hnumeral : numeral P x = some (t, ds)) :
    P.Converts ds.length ∧ (¬Fits (normalize t) → SpellingWrites P (normalize t)) := by
  cases x with
  | str s =>
      have hnumeric : numericText P s = some (t, ds) := hnumeral
      simp only [Readable, hnumeric] at h
      refine ⟨h.1, fun hfits => ?_⟩
      have hwrites := h.2
      rwa [if_neg hfits] at hwrites
  | int n =>
      obtain ⟨rfl, rfl⟩ := Prod.mk.inj (Option.some.inj hnumeral)
      have hconverts : P.Converts (Nat.toDigits 10 n.natAbs).length := h
      refine ⟨hconverts, fun _ => spellingWrites_normalize ?_⟩
      exact hconverts.imp id fun hle => ⟨hle, by simpa using hle, by simp⟩
  | float x =>
      cases x with
      | finite text sugar hsugar hlength hexp =>
          obtain ⟨rfl, rfl⟩ := Prod.mk.inj (Option.some.inj hnumeral)
          obtain ⟨hconverts, hwrites, -⟩ := converts_double hsugar hlength hexp
          exact ⟨hconverts, fun _ => hwrites⟩
      | nan => cases hnumeral
      | infinite negative => cases hnumeral
  | fraction q => cases hnumeral

/-- A readable number within the cap is accepted. -/
theorem canonicalTag_of_fits {x : Spelling P} {t : Decimal} {ds : List Char}
    (h : Readable P x) (hnumeral : numeral P x = some (t, ds)) (hfits : Fits (normalize t)) :
    canonicalTag P x = .ok (rendered (normalize t)) := by
  obtain ⟨source, hsource⟩ := canonicalTag_number hnumeral
  rw [hsource, if_pos (converts_of_readable h hnumeral).1,
    spellNumber_of_fits (normal_normalize t) hfits]

theorem canonicalTag_ne_valueError {x : Spelling P} (h : Readable P x) :
    canonicalTag P x ≠ .error .valueError := by
  cases hnumeral : numeral P x with
  | some entry =>
      obtain ⟨t, ds⟩ := entry
      by_cases hfits : Fits (normalize t)
      · rw [canonicalTag_of_fits h hnumeral hfits]
        simp
      · obtain ⟨source, hsource⟩ := canonicalTag_number hnumeral
        obtain ⟨hconverts, hwrites⟩ := converts_of_readable h hnumeral
        obtain ⟨e, he, hiff⟩ := spellNumber_of_not_fits (P := P) hfits source
        rw [hsource, if_pos hconverts, he]
        simp [hiff, hwrites hfits]
  | none =>
      rcases canonicalTag_other hnumeral with ⟨s, rfl, hok, -⟩ | ⟨e, he, hiff⟩
      · rw [hok]
        simp
      · rw [he, ne_eq, Except.error.injEq, hiff]
        rintro ⟨q, rfl, hnot⟩
        exact hnot ⟨Written.num h, Written.den h⟩

/-- No other refusal than the package's own. -/
theorem refuses_iff (x : Spelling P) :
    (canonicalTag P x ≠ .error .valueError ∧ (coordinate P x).result ≠ .error .valueError) ↔
      Readable P x := by
  rw [ne_eq (coordinate P x).result, coordinate_valueError, not_not]
  exact and_iff_right_of_imp canonicalTag_ne_valueError

/-! ### The characters of a number -/

/-- Digits without the zeros around them. -/
def coreDigits (cs : List Char) : List Char :=
  (cs.dropWhile (· == '0')).rdropWhile (· == '0')

/-- The power of ten the last digit counts that is no zero. -/
def coreExponent (t : Decimal) : Int :=
  t.exp10 + ((t.digits.dropWhile (· == '0')).length - (coreDigits t.digits).length : Nat)

theorem coreDigits_cases (cs : List Char) :
    cs.dropWhile (· == '0') = [] ∧ coreDigits cs = [] ∨ Core (coreDigits cs) := by
  rcases exists_core cs with ⟨k, rfl⟩ | ⟨k, core, m, rfl, hcore⟩
  · left
    have hdrop := @dropWhile_zeros [] (by simp) k
    rw [List.append_nil] at hdrop
    unfold coreDigits
    rw [hdrop]
    exact ⟨rfl, rfl⟩
  · right
    unfold coreDigits
    rw [dropWhile_zeros, rdropWhile_zeros hcore.last]
    · exact hcore
    · rw [List.head?_append_of_ne_nil _ hcore.ne]
      exact hcore.head

theorem normalize_eq (t : Decimal) : normalize t =
    if coreDigits t.digits = [] then ⟨false, ['0'], 0⟩
    else ⟨t.negative, coreDigits t.digits, coreExponent t⟩ := by
  unfold normalize
  dsimp only
  rcases coreDigits_cases t.digits with ⟨hdrop, hnil⟩ | hcore
  · rw [if_pos hnil, if_pos hdrop]
  · have hne : t.digits.dropWhile (· == '0') ≠ [] := by
      intro h
      apply hcore.ne
      unfold coreDigits
      rw [h]
      rfl
    rw [if_neg hcore.ne, if_neg hne]
    rfl

/-- Two decimals of one value are written with the same characters: the same digits between the
zeros, and where these digits are zeros of another script, the same sign and exponent. -/
def SameCharacters (P : Python) (a b : Decimal) : Prop :=
  coreDigits a.digits = coreDigits b.digits ∧ (a.value P.digits = 0 →
    coreDigits a.digits = [] ∨ a.negative = b.negative ∧ coreExponent a = coreExponent b)

/-- Decimals of one value are the same minimally just when they are written with the same
characters. -/
theorem normalize_eq_iff {a b : Decimal} (h : a.value P.digits = b.value P.digits) :
    normalize a = normalize b ↔ SameCharacters P a b := by
  unfold SameCharacters
  have hnonzero : ∀ {cs : List Char}, Core cs → cs ≠ ['0'] := by
    rintro cs hcore rfl
    exact hcore.head rfl
  rcases coreDigits_cases a.digits with ⟨-, ha⟩ | ha
  · rcases coreDigits_cases b.digits with ⟨-, hb⟩ | hb
    · rw [normalize_eq, normalize_eq b, if_pos ha, if_pos hb, ha, hb]
      simp
    · rw [normalize_eq, normalize_eq b, if_pos ha, if_neg hb.ne, ha]
      refine iff_of_false (fun heq => ?_) fun hsame => hb.ne hsame.1.symm
      exact hnonzero hb (congrArg Decimal.digits heq).symm
  · rcases coreDigits_cases b.digits with ⟨-, hb⟩ | hb
    · rw [normalize_eq, normalize_eq b, if_neg ha.ne, if_pos hb, hb]
      refine iff_of_false (fun heq => ?_) fun hsame => ha.ne hsame.1
      exact hnonzero ha (congrArg Decimal.digits heq)
    · constructor
      · intro heq
        rw [normalize_eq, normalize_eq b, if_neg ha.ne, if_neg hb.ne] at heq
        obtain ⟨hnegative, hdigits, hexp⟩ := Decimal.mk.inj heq
        exact ⟨hdigits, fun _ => Or.inr ⟨hnegative, hexp⟩⟩
      · rintro ⟨hdigits, hzero⟩
        by_cases hvalue : a.value P.digits = 0
        · obtain ⟨hnegative, hexp⟩ := (hzero hvalue).resolve_left ha.ne
          rw [normalize_eq, normalize_eq b, if_neg ha.ne, if_neg hb.ne, hnegative, hdigits, hexp]
        · have hminimal : (normalize a).digits = (normalize b).digits := by
            rw [normalize_eq, normalize_eq b, if_neg ha.ne, if_neg hb.ne]
            exact hdigits
          have hpos : 0 < P.digits.number (normalize a).digits := by
            apply Nat.pos_of_ne_zero
            intro hnumber
            apply hvalue
            rw [← value_normalize, Decimal.value, hnumber]
            simp
          refine Decimal.eq_of_digits (D := P.digits) hminimal hpos ?_
          rw [value_normalize, value_normalize, h]

/-- ASCII digits of one value are the same characters. -/
theorem sameCharacters_ascii {a b : Decimal} (ha : ∀ c ∈ a.digits, c.isDigit = true)
    (hb : ∀ c ∈ b.digits, c.isDigit = true) (h : a.value P.digits = b.value P.digits) :
    SameCharacters P a b := by
  apply (normalize_eq_iff h).mp
  apply Decimal.Normal.eq_of_value (D := P.digits) (normal_normalize a) (normal_normalize b)
    (digits_normalize (by decide) ha) (digits_normalize (by decide) hb)
  rw [value_normalize, value_normalize, h]

/-! ### Points -/

/-- A point holds the coordinates of its mapping that are not zero. -/
theorem mem_keptPairs {items : List (List Char × Spelling P)} {kept}
    (h : (keptPairs P items).result = .ok kept) (name c : List Char) :
    (name, c) ∈ kept.1 ↔ ∃ value, (name, value) ∈ items ∧
      (coordinate P value).result = .ok c ∧ denoted P value ≠ some 0 := by
  induction items with
  | nil =>
      obtain rfl := Except.ok.inj h
      simp
  | cons item rest ih =>
      obtain ⟨key, value⟩ := item
      unfold keptPairs at h
      obtain ⟨-, -, h⟩ := Traced.bind_eq_ok.mp h
      obtain ⟨tag, htag, h⟩ := Traced.bind_eq_ok.mp h
      obtain ⟨exact, hexact, h⟩ := Traced.bind_eq_ok.mp h
      obtain ⟨others, hothers, h⟩ := Traced.bind_eq_ok.mp h
      have hvalue := Except.ok.inj (hexact.symm.trans (numericValue_coordinate htag))
      have hkept := Except.ok.inj h
      have hitem : (∃ v, (name, v) ∈ (key, value) :: rest ∧ (coordinate P v).result = .ok c ∧
          denoted P v ≠ some 0) ↔ (name = key ∧ c = tag ∧ denoted P value ≠ some 0) ∨
          (name, c) ∈ others.1 := by
        rw [ih hothers]
        constructor
        · rintro ⟨v, hmem, hc, hne⟩
          rcases List.mem_cons.mp hmem with heq | hrest
          · obtain ⟨rfl, rfl⟩ := Prod.mk.inj heq
            exact Or.inl ⟨rfl, Except.ok.inj (hc.symm.trans htag), hne⟩
          · exact Or.inr ⟨v, hrest, hc, hne⟩
        · rintro (⟨rfl, rfl, hne⟩ | ⟨v, hrest, hc, hne⟩)
          · exact ⟨value, List.mem_cons_self, htag, hne⟩
          · exact ⟨v, List.mem_cons_of_mem _ hrest, hc, hne⟩
      rw [hitem, ← hkept, ← hvalue]
      split_ifs with hzero
      · simp [hzero]
      · simp [hzero]

theorem keptPairs_ne_valueError {items : List (List Char × Spelling P)}
    (h : ∀ item ∈ items, Readable P item.2) :
    (keptPairs P items).result ≠ .error .valueError := by
  induction items with
  | nil => exact fun h => by cases h
  | cons item rest ih =>
      obtain ⟨key, value⟩ := item
      unfold keptPairs
      intro herror
      rcases Traced.bind_eq_error.mp herror with hname | ⟨-, -, herror⟩
      · change nuisance P key = _ at hname
        unfold nuisance at hname
        split_ifs at hname
        cases hname
      rcases Traced.bind_eq_error.mp herror with hvalue | ⟨tag, htag, herror⟩
      · exact (coordinate_valueError value).mp hvalue (h _ List.mem_cons_self)
      rcases Traced.bind_eq_error.mp herror with hread | ⟨exact, -, herror⟩
      · rw [numericValue_coordinate htag] at hread
        cases hread
      rcases Traced.bind_eq_error.mp herror with hrest | ⟨others, -, herror⟩
      · exact ih (fun item hitem => h item (List.mem_cons_of_mem _ hitem)) hrest
      · cases herror

/-- A point holds the coordinates of its mapping that are not zero, what is left of it on some axes
holds those on these axes, and it is refused in the package's own words where its coordinates
are. -/
structure PointExact (P : Python) (mapping : Mapping P) : Prop where
  pairs : ∀ point, (Point.ofMapping P mapping).result = .ok point → ∀ pair,
    (pair ∈ point.pairs ↔ ∃ name value c, (name, value) ∈ mapping.items ∧
      (coordinate P value).result = .ok c ∧ denoted P value ≠ some 0 ∧ pair = heldPair (name, c))
  restrict : ∀ point, (Point.ofMapping P mapping).result = .ok point → ∀ axes pair,
    (pair ∈ (point.restrict axes).pairs ↔ pair ∈ point.pairs ∧ pair.1 ∈ axes)
  refused : (∀ item ∈ mapping.items, Readable P item.2) →
    (Point.ofMapping P mapping).result ≠ .error .valueError

theorem mem_build {pairs : List (String × String)} (hnodup : (pairs.map Prod.fst).Nodup)
    (pair : String × String) : pair ∈ (Point.build pairs hnodup).pairs ↔ pair ∈ pairs :=
  List.mem_mergeSort

theorem pointExact (mapping : Mapping P) : PointExact P mapping where
  pairs := by
    intro point h pair
    obtain ⟨kept, hkept, h⟩ := Traced.bind_eq_ok.mp h
    rw [← Except.ok.inj h, mem_build, List.mem_map]
    constructor
    · rintro ⟨⟨name, c⟩, hmem, rfl⟩
      obtain ⟨value, hvalue, hc, hne⟩ := (mem_keptPairs hkept name c).mp hmem
      exact ⟨name, value, c, hvalue, hc, hne, rfl⟩
    · rintro ⟨name, value, c, hvalue, hc, hne, rfl⟩
      exact ⟨(name, c), (mem_keptPairs hkept name c).mpr ⟨value, hvalue, hc, hne⟩, rfl⟩
  restrict := by
    intro point _ axes pair
    unfold Point.restrict
    rw [List.mem_filter, decide_eq_true_eq]
  refused := by
    intro h herror
    rcases Traced.bind_eq_error.mp herror with hkept | ⟨kept, -, hpoint⟩
    · exact keptPairs_ne_valueError h hkept
    · cases hpoint

/-- The default point of a label keeps its coordinate, of whatever value. -/
theorem default_pairs {name tag c : List Char} {point : Point}
    (hc : (coordinate P (.str tag)).result = .ok c)
    (h : (Point.default P name tag).result = .ok point) : point.pairs = [heldPair (name, c)] := by
  obtain ⟨-, -, h⟩ := Traced.bind_eq_ok.mp h
  obtain ⟨c', hc', h⟩ := Traced.bind_eq_ok.mp h
  rw [← Except.ok.inj h, ← Except.ok.inj (hc.symm.trans hc')]
  exact List.mergeSort_singleton _

/-! ### Exact names -/

/-- What two spellings are to have of their tags and coordinates. -/
structure NamesExactly (P : Python) (x y : Spelling P) : Prop where
  /-- A tag is its own tag. -/
  tag_tag : ∀ tag, canonicalTag P x = .ok tag → canonicalTag P (.str tag) = .ok tag
  /-- The tag of a number reads as that number, and is within the cap. -/
  tag_value : ∀ t ds tag, numeral P x = some (t, ds) → canonicalTag P x = .ok tag →
    (numericValue P tag).result = .ok (some (t.value P.digits)) ∧ tag.length ≤ maxTagChars
  /-- Another text is kept verbatim. -/
  tag_verbatim : ∀ s tag, x = .str s → numeral P x = none → canonicalTag P x = .ok tag → tag = s
  /-- Numbers have one tag just when they are the same. -/
  tag_eq_iff : ∀ a as b bs tag tag', numeral P x = some (a, as) → numeral P y = some (b, bs) →
    canonicalTag P x = .ok tag → canonicalTag P y = .ok tag' →
    (tag = tag' ↔ a.value P.digits = b.value P.digits)
  /-- A coordinate is its own coordinate. -/
  coordinate_coordinate : ∀ c, (coordinate P x).result = .ok c →
    (coordinate P (.str c)).result = .ok c
  /-- Numbers, p-forms and fractions included, have one coordinate just when they are the same. -/
  coordinate_eq_iff : ∀ q r c d, denoted P x = some q → denoted P y = some r →
    (coordinate P x).result = .ok c → (coordinate P y).result = .ok d → (c = d ↔ q = r)
  /-- No identifier has the coordinate of a number. -/
  coordinate_ne : ∀ r c d, denoted P x = none → denoted P y = some r →
    (coordinate P x).result = .ok c → (coordinate P y).result = .ok d → c ≠ d
  /-- Both are accepted, or refused in the package's own words. -/
  refused : ∀ z, z = x ∨ z = y →
    canonicalTag P z ≠ .error .valueError ∧ (coordinate P z).result ≠ .error .valueError

/-- Numbers of one value, both within the cap, are written with the same characters. -/
def SpelledAlike (P : Python) (x y : Spelling P) : Prop :=
  ∀ a as b bs, numeral P x = some (a, as) → numeral P y = some (b, bs) →
    Fits (normalize a) → Fits (normalize b) → a.value P.digits = b.value P.digits →
    SameCharacters P a b

theorem tag_eq_iff {x y : Spelling P} {a b : Decimal} {as bs tag tag' : List Char}
    (hx : numeral P x = some (a, as)) (hy : numeral P y = some (b, bs))
    (htag : canonicalTag P x = .ok tag) (htag' : canonicalTag P y = .ok tag')
    (halike : SpelledAlike P x y) : tag = tag' ↔ a.value P.digits = b.value P.digits := by
  obtain ⟨-, hfits, rfl⟩ := canonicalTag_numeral hx htag
  obtain ⟨-, hfits', rfl⟩ := canonicalTag_numeral hy htag'
  constructor
  · intro heq
    have hnormal := rendered_inj (spelled_of_numeral hx) (spelled_of_numeral hy) heq
    rw [← value_normalize a, hnormal, value_normalize]
  · intro hvalue
    rw [(normalize_eq_iff hvalue).mpr (halike a as b bs hx hy hfits hfits' hvalue)]

/-- **Exact names.** Points keep the coordinates they are given. Two spellings are named exactly
just when what is read and written of them is within the limit on conversions, floats are finite,
and the same number is spelled with the same characters. -/
theorem names_exactly (P : Python) : (∀ mapping, PointExact P mapping) ∧
    ∀ x y : Spelling P,
      NamesExactly P x y ↔ Readable P x ∧ Readable P y ∧ SpelledAlike P x y := by
  refine ⟨pointExact, fun x y => ⟨fun h => ?_, fun ⟨hx, hy, halike⟩ => ?_⟩⟩
  · have hx := (refuses_iff x).mp (h.refused x (Or.inl rfl))
    have hy := (refuses_iff y).mp (h.refused y (Or.inr rfl))
    refine ⟨hx, hy, fun a as b bs hax hby hfits hfits' hvalue => ?_⟩
    have heq := (h.tag_eq_iff a as b bs _ _ hax hby (canonicalTag_of_fits hx hax hfits)
      (canonicalTag_of_fits hy hby hfits')).mpr hvalue
    exact (normalize_eq_iff hvalue).mp
      (rendered_inj (spelled_of_numeral hax) (spelled_of_numeral hby) heq)
  · constructor
    case tag_tag =>
      intro tag htag
      cases hnumeral : numeral P x with
      | some entry =>
          obtain ⟨-, hfits, rfl⟩ := canonicalTag_numeral hnumeral htag
          exact canonicalText_rendered (spelled_of_numeral hnumeral) hfits
      | none =>
          rcases canonicalTag_other hnumeral with ⟨s, rfl, hok, -⟩ | ⟨e, he, -⟩
          · rwa [← Except.ok.inj (hok.symm.trans htag)]
          · rw [he] at htag
            cases htag
    case tag_value =>
      intro t ds tag hnumeral htag
      obtain ⟨-, hfits, rfl⟩ := canonicalTag_numeral hnumeral htag
      refine ⟨?_, length_rendered (normal_normalize t) hfits⟩
      rw [numericValue_rendered (spelled_of_numeral hnumeral) hfits, value_normalize]
    case tag_verbatim =>
      intro s tag hs hnumeral htag
      rcases canonicalTag_other hnumeral with ⟨s', hs', hok, -⟩ | ⟨e, he, -⟩
      · rw [← Except.ok.inj (hok.symm.trans htag)]
        exact Spelling.str.inj (hs'.symm.trans hs)
      · rw [he] at htag
        cases htag
    case tag_eq_iff =>
      intro a as b bs tag tag' hax hby htag htag'
      exact tag_eq_iff hax hby htag htag' halike
    case coordinate_coordinate => exact fun c => coordinate_coordinate
    case coordinate_eq_iff => exact fun q r c d => coordinate_eq_iff
    case coordinate_ne =>
      rintro r c d hnone hsome hc hd rfl
      have hvalue := (numericValue_coordinate hc).symm.trans (numericValue_coordinate hd)
      rw [hnone, hsome] at hvalue
      cases Except.ok.inj hvalue
    case refused =>
      rintro z (rfl | rfl)
      · exact (refuses_iff z).mpr hx
      · exact (refuses_iff z).mpr hy

/-! ### Where names are not exact -/

/-- The ASCII digits and the full-width ones. -/
def wideDigits : DigitTable where
  value c :=
    if c.isDigit then some (c.toNat - 48)
    else if 65296 ≤ c.toNat ∧ c.toNat ≤ 65305 then some (c.toNat - 65296) else none
  lt_ten := by
    intro c d h
    split_ifs at h with hdigit hwide
    · have hle : c.toNat ≤ 57 := by
        simp only [Char.isDigit, Bool.and_eq_true, decide_eq_true_eq] at hdigit
        exact hdigit.2
      rw [← Option.some.inj h]
      omega
    · rw [← Option.some.inj h]
      omega
  ascii := by
    intro c hascii
    have hwide : ¬(65296 ≤ c.toNat ∧ c.toNat ≤ 65305) := by omega
    simp only [if_neg hwide]

/-- Python with these digits, and its limit on conversions as it is set by default. -/
def widePython : Python where
  digits := wideDigits
  repr := String.ofList
  identifier := isIdentifier
  limit := 4300
  limit_ge := Or.inr (by decide)

def wideTwo : List Char := [Char.ofNat 65298]

/-- Not a number is refused as a coordinate in Python's words, and a two of another script has
another tag. -/
theorem not_names_exactly : ¬NamesExactly widePython (.float .nan) (.float .nan) ∧
    ¬NamesExactly widePython (.str ['2']) (.str wideTwo) := by
  constructor
  · intro h
    exact (h.refused (.float .nan) (Or.inl rfl)).2 rfl
  · intro h
    have hx : numeral widePython (.str ['2']) = some (⟨false, ['2'], 0⟩, []) := by decide +kernel
    have hy : numeral widePython (.str wideTwo) = some (⟨false, wideTwo, 0⟩, []) := by
      decide +kernel
    have htag : canonicalTag widePython (.str ['2']) = .ok ['2'] := by decide +kernel
    have htag' : canonicalTag widePython (.str wideTwo) = .ok wideTwo := by decide +kernel
    have hsame := (h.tag_eq_iff _ _ _ _ _ _ hx hy htag htag').mpr rfl
    exact absurd hsame (by decide)

end Graphed
