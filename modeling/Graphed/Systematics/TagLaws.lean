import Graphed.Systematics.Tags

/-!
# What tags name

A numeric spelling is accepted where its minimal decimal fits the cap, and its tag is that decimal
written out. Read again, the tag gives the same decimal.
-/

namespace Graphed

open Decimals

variable {P : Python}

/-! ### Minimal decimals -/

/-- Digits that begin and end with another character than zero. -/
structure Core (cs : List Char) : Prop where
  ne : cs ≠ []
  head : cs.head? ≠ some '0'
  last : cs.getLast? ≠ some '0'

theorem dropWhile_zeros {cs : List Char} (hhead : cs.head? ≠ some '0') (k : Nat) :
    (List.replicate k '0' ++ cs).dropWhile (· == '0') = cs := by
  induction k with
  | zero =>
      cases cs with
      | nil => rfl
      | cons c cs =>
          have hc : (c == '0') = false := by
            rw [beq_eq_false_iff_ne]
            rintro rfl
            exact hhead rfl
          simp [hc]
  | succ k ih => simpa [List.replicate_succ] using ih

theorem rdropWhile_zeros {cs : List Char} (hlast : cs.getLast? ≠ some '0') (m : Nat) :
    (cs ++ List.replicate m '0').rdropWhile (· == '0') = cs := by
  unfold List.rdropWhile
  rw [List.reverse_append, List.reverse_replicate,
    dropWhile_zeros (by rwa [List.head?_reverse]), List.reverse_reverse]

theorem normalize_zeros (negative : Bool) (k : Nat) (e : Int) :
    normalize ⟨negative, List.replicate k '0', e⟩ = ⟨false, ['0'], 0⟩ := by
  have hdrop := @dropWhile_zeros [] (by simp) k
  rw [List.append_nil] at hdrop
  unfold normalize
  simp only [hdrop, if_true]

theorem normalize_core {core : List Char} (hcore : Core core) (negative : Bool) (k m : Nat)
    (e : Int) : normalize ⟨negative, List.replicate k '0' ++ (core ++ List.replicate m '0'), e⟩ =
      ⟨negative, core, e + m⟩ := by
  have hhead : (core ++ List.replicate m '0').head? ≠ some '0' := by
    rw [List.head?_append_of_ne_nil _ hcore.ne]
    exact hcore.head
  have hne : core ++ List.replicate m '0' ≠ [] := by simp [hcore.ne]
  unfold normalize
  simp only [dropWhile_zeros hhead, rdropWhile_zeros hcore.last, if_neg hne, List.length_append,
    List.length_replicate, Nat.add_sub_cancel_left]

/-- A text is zeros, or a core between zeros. -/
theorem exists_core (cs : List Char) : (∃ k, cs = List.replicate k '0') ∨
    ∃ k core m, cs = List.replicate k '0' ++ (core ++ List.replicate m '0') ∧ Core core := by
  have hfront : ∀ cs : List Char, ∃ k rest, cs = List.replicate k '0' ++ rest ∧
      rest.head? ≠ some '0' := by
    intro cs
    induction cs with
    | nil => exact ⟨0, [], rfl, by simp⟩
    | cons c cs ih =>
        by_cases hc : c = '0'
        · obtain ⟨k, rest, rfl, hrest⟩ := ih
          exact ⟨k + 1, rest, by rw [hc]; rfl, hrest⟩
        · exact ⟨0, c :: cs, rfl, by simpa using hc⟩
  obtain ⟨k, rest, rfl, hhead⟩ := hfront cs
  obtain ⟨m, front, hrest, hlast⟩ := hfront rest.reverse
  have hrest' : rest = front.reverse ++ List.replicate m '0' := by
    rw [← List.reverse_reverse rest, hrest, List.reverse_append, List.reverse_replicate]
  by_cases hnil : front = []
  · left
    refine ⟨k + m, ?_⟩
    rw [hrest', hnil, List.reverse_nil, List.nil_append, List.replicate_append_replicate]
  · right
    have hne : front.reverse ≠ [] := by simpa using hnil
    refine ⟨k, front.reverse, m, by rw [hrest'], hne, ?_, by rwa [List.getLast?_reverse]⟩
    rwa [hrest', List.head?_append_of_ne_nil _ hne] at hhead

theorem normal_normalize (t : Decimal) : (normalize t).Normal := by
  obtain ⟨negative, digits, e⟩ := t
  rcases exists_core digits with ⟨k, rfl⟩ | ⟨k, core, m, rfl, hcore⟩
  · rw [normalize_zeros]
    exact .zero
  · rw [normalize_core hcore]
    exact .digits _ _ _ hcore.ne hcore.head hcore.last

theorem value_normalize (t : Decimal) :
    (normalize t).value P.digits = t.value P.digits := by
  obtain ⟨negative, digits, e⟩ := t
  rcases exists_core digits with ⟨k, rfl⟩ | ⟨k, core, m, rfl, hcore⟩
  · rw [normalize_zeros]
    have hone := P.digits.number_zeros 1
    rw [List.replicate_one] at hone
    simp [Decimal.value, P.digits.number_zeros, hone]
  · rw [normalize_core hcore]
    have hten : (10 : ℚ) ≠ 0 := by norm_num
    unfold Decimal.value
    dsimp only
    rw [P.digits.number_zeros_append, P.digits.number_append_zeros, zpow_add₀ hten, zpow_natCast]
    push_cast
    ring

/-- A minimal decimal is its own minimal decimal. -/
theorem normalize_of_normal {t : Decimal} (h : t.Normal) : normalize t = t := by
  cases h with
  | zero => exact normalize_zeros false 1 0
  | digits negative digits e hne hhead hlast =>
      have hcore := normalize_core ⟨hne, hhead, hlast⟩ negative 0 0 e
      simpa using hcore

theorem digits_normalize {t : Decimal} {p : Char → Prop} (hzero : p '0')
    (h : ∀ c ∈ t.digits, p c) : ∀ c ∈ (normalize t).digits, p c := by
  obtain ⟨negative, digits, e⟩ := t
  rcases exists_core digits with ⟨k, rfl⟩ | ⟨k, core, m, rfl, hcore⟩
  · rw [normalize_zeros]
    intro c hc
    rwa [List.mem_singleton.mp hc]
  · rw [normalize_core hcore]
    exact fun c hc => h c (by simp [hc])

/-! ### Spelling a minimal decimal -/

/-- How long a tag is, counted before it is written. -/
def tagLength (t : Decimal) : Int :=
  if 0 ≤ t.exp10 then magnitude t + signLength t
  else t.digits.length + 2 + (Python.intText (-t.exp10)).length + signLength t

/-- The decimal is within the cap. -/
def Fits (t : Decimal) : Prop :=
  t.digits = ['0'] ∨ magnitude t ≤ maxTagChars ∧ tagLength t ≤ maxTagChars

instance (t : Decimal) : Decidable (Fits t) := inferInstanceAs (Decidable (_ ∨ _))

/-- An integer is written to text. -/
def Python.Writes (P : Python) (n : Int) : Prop := P.Converts (Nat.toDigits 10 n.natAbs).length

/-- What is written on the way to a tag or to its refusal can be. -/
def SpellingWrites (P : Python) (t : Decimal) : Prop :=
  t.digits = ['0'] ∨
    if maxTagChars < magnitude t then P.Writes (magnitude t)
    else (0 ≤ t.exp10 ∨ P.Writes (-t.exp10)) ∧ (maxTagChars < tagLength t → P.Writes (tagLength t))

/-- A decimal written out as a tag. -/
def rendered (t : Decimal) : List Char :=
  marker t ++ t.digits ++
    if 0 ≤ t.exp10 then List.replicate t.exp10.toNat '0'
    else ['e', 'm'] ++ Python.intText (-t.exp10)

theorem str_of_writes {n : Int} (h : P.Writes n) : P.str n = .ok (Python.intText n) := if_pos h

theorem str_of_not_writes {n : Int} (h : ¬P.Writes n) : P.str n = .error .valueError := if_neg h

theorem Python.converts_small {n : Nat} (h : n ≤ 640) : P.Converts n :=
  P.limit_ge.imp id fun hlimit => Nat.le_trans h hlimit

theorem length_intText_nat (n : Nat) :
    (Python.intText n).length = (Nat.toDigits 10 n).length := by
  unfold Python.intText
  rw [if_neg (by omega)]
  rfl

theorem intText_neg {e : Int} (h : e < 0) : Python.intText (-e) = Nat.toDigits 10 e.natAbs := by
  unfold Python.intText
  rw [if_neg (by omega), Int.natAbs_neg]

/-- A tag within the cap is spelled, whatever the limit on conversions. -/
theorem spellNumber_of_fits {t : Decimal} (ht : t.Normal) (hfits : Fits t) (source : List Char) :
    spellNumber P t source = .ok (rendered t) := by
  unfold spellNumber
  cases ht with
  | zero => rfl
  | digits negative digits e hne hhead hlast =>
      have hzero : digits ≠ ['0'] := by
        rintro rfl
        exact hhead rfl
      obtain ⟨hmagnitude, hlength⟩ := hfits.resolve_left hzero
      rw [if_neg hzero, if_neg (not_lt.mpr hmagnitude)]
      unfold tagLength at hlength
      unfold rendered
      by_cases he : 0 ≤ e
      · simp only [if_pos he] at hlength ⊢
        change (if (maxTagChars : Int) < _ then _ else _) = _
        rw [if_neg (not_lt.mpr hlength)]
        rfl
      · simp only [if_neg he] at hlength ⊢
        have hwrites : P.Writes (-e) := by
          apply Python.converts_small
          rw [intText_neg (by omega)] at hlength
          rw [Int.natAbs_neg]
          unfold maxTagChars at hlength
          omega
        rw [str_of_writes hwrites]
        change (if (maxTagChars : Int) < _ then _ else _) = _
        rw [if_neg (not_lt.mpr hlength)]
        simp

/-- Beyond the cap a decimal is refused; by Python where a count cannot be written. -/
theorem spellNumber_of_not_fits {t : Decimal} (hfits : ¬Fits t) (source : List Char) :
    ∃ e, spellNumber P t source = .error e ∧ (e = .valueError ↔ ¬SpellingWrites P t) := by
  obtain ⟨hzero, hcap⟩ := not_or.mp hfits
  unfold spellNumber SpellingWrites
  rw [if_neg hzero]
  by_cases hmagnitude : maxTagChars < magnitude t
  · simp only [if_pos hmagnitude, hzero, false_or]
    by_cases hwrites : P.Writes (magnitude t)
    · rw [str_of_writes hwrites]
      exact ⟨_, rfl, by simp [hwrites]⟩
    · rw [str_of_not_writes hwrites]
      exact ⟨_, rfl, by simp [hwrites]⟩
  · simp only [if_neg hmagnitude, hzero, false_or]
    have hlong : (maxTagChars : Int) < tagLength t := by
      by_contra hlength
      exact hcap ⟨not_lt.mp hmagnitude, not_lt.mp hlength⟩
    by_cases he : 0 ≤ t.exp10
    · have hlength : tagLength t = magnitude t + signLength t := if_pos he
      simp only [he, true_or, true_and, hlong, forall_const]
      rw [hlength] at hlong ⊢
      change ∃ e, (if (maxTagChars : Int) < _ then _ else _) = _ ∧ _
      rw [if_pos hlong]
      by_cases hwrites : P.Writes (magnitude t + signLength t)
      · rw [str_of_writes hwrites]
        exact ⟨_, rfl, by simp [hwrites]⟩
      · rw [str_of_not_writes hwrites]
        exact ⟨_, rfl, by simp [hwrites]⟩
    · have hlength : tagLength t = t.digits.length + 2 + (Python.intText (-t.exp10)).length +
          signLength t := if_neg he
      simp only [he, false_or, hlong, forall_const]
      by_cases hexponent : P.Writes (-t.exp10)
      · rw [str_of_writes hexponent]
        rw [hlength] at hlong ⊢
        change ∃ e, (if (maxTagChars : Int) < _ then _ else _) = _ ∧ _
        rw [if_pos hlong]
        by_cases hwrites : P.Writes (t.digits.length + 2 + (Python.intText (-t.exp10)).length +
            signLength t)
        · rw [str_of_writes hwrites]
          exact ⟨_, rfl, by simp [hwrites, hexponent]⟩
        · rw [str_of_not_writes hwrites]
          exact ⟨_, rfl, by simp [hwrites]⟩
      · rw [str_of_not_writes hexponent]
        exact ⟨_, rfl, by simp [hexponent]⟩

/-! ### Reading tags -/

namespace Python

theorem isDigit_zero : P.isDigit '0' = true := P.digits.isDigit_ascii (by decide)

theorem not_isDigit_of_ascii {c : Char} (hascii : c.toNat < 128 := by decide)
    (hc : c.isDigit = false := by decide) : P.isDigit c = false := P.digits.not_isDigit hascii hc

theorem takeWhile_digits {ds : List Char} (hds : ∀ c ∈ ds, P.isDigit c = true) :
    ds.takeWhile P.isDigit = ds ∧ ds.dropWhile P.isDigit = [] := by
  refine ⟨List.takeWhile_eq_self_iff.mpr hds, List.dropWhile_eq_nil_iff.mpr hds⟩

theorem takeWhile_digits_append {ds rest : List Char} {c : Char}
    (hds : ∀ c ∈ ds, P.isDigit c = true) (hc : P.isDigit c = false) :
    (ds ++ c :: rest).takeWhile P.isDigit = ds ∧
      (ds ++ c :: rest).dropWhile P.isDigit = c :: rest := by
  rw [List.takeWhile_append_of_pos hds, List.dropWhile_append_of_pos hds]
  simp [hc]

theorem digitsOnly_eq {ds : List Char} (hne : ds ≠ []) (hds : ∀ c ∈ ds, P.isDigit c = true) :
    P.digitsOnly ds = some ds := if_pos ⟨hne, List.all_eq_true.mpr hds⟩

theorem isDigit_toDigits (n : Nat) : ∀ c ∈ Nat.toDigits 10 n, P.isDigit c = true := fun c hc =>
  P.digits.isDigit_ascii (Nat.isDigit_of_mem_toDigits (by decide) (by decide) hc)

end Python

/-- A decimal whose digits are the table's, without a zero at either end. -/
structure Spelled (P : Python) (t : Decimal) : Prop where
  normal : t.Normal
  digits : ∀ c ∈ t.digits, P.isDigit c = true

/-- The digits of a tag, up to its exponent. -/
def tagDigits (t : Decimal) : List Char :=
  if 0 ≤ t.exp10 then t.digits ++ List.replicate t.exp10.toNat '0' else t.digits

def tagExponent (t : Decimal) : Option (List Char) :=
  if 0 ≤ t.exp10 then none else some (Nat.toDigits 10 t.exp10.natAbs)

theorem Spelled.tagDigits {t : Decimal} (h : Spelled P t) :
    tagDigits t ≠ [] ∧ ∀ c ∈ tagDigits t, P.isDigit c = true := by
  unfold Graphed.tagDigits
  split_ifs
  · refine ⟨by simp [h.normal.ne_nil], fun c hc => ?_⟩
    rcases List.mem_append.mp hc with hc | hc
    · exact h.digits c hc
    · rw [List.eq_of_mem_replicate hc]
      exact Python.isDigit_zero
  · exact ⟨h.normal.ne_nil, h.digits⟩

/-- An exponent after its mark. -/
def exponentText : Option (List Char) → List Char
  | none => []
  | some ds => 'e' :: 'm' :: ds

theorem rendered_eq (t : Decimal) :
    rendered t = marker t ++ (tagDigits t ++ exponentText (tagExponent t)) := by
  unfold rendered tagDigits tagExponent
  split_ifs with h
  · simp [exponentText]
  · rw [intText_neg (by omega)]
    simp [exponentText]

theorem marker_or (t : Decimal) : t.negative = true ∧ marker t = ['m'] ∨
    t.negative = false ∧ marker t = [] := by
  unfold marker
  cases t.negative with
  | true => exact Or.inl ⟨rfl, rfl⟩
  | false => exact Or.inr ⟨rfl, rfl⟩

theorem head_ne_of_digits {ds rest : List Char} (hne : ds ≠ [])
    (hds : ∀ c ∈ ds, P.isDigit c = true) {c : Char} (hc : P.isDigit c = false) :
    (ds ++ rest).head? ≠ some c := by
  rw [List.head?_append_of_ne_nil _ hne, List.head?_eq_some_head hne]
  intro h
  have hdigit := hds _ (List.head_mem hne)
  rw [Option.some.inj h, hc] at hdigit
  cases hdigit

/-- Digits under a sign, with or without an exponent, read as an e-form. -/
theorem canonicalForm_eq {ds : List Char} (hne : ds ≠ []) (hds : ∀ c ∈ ds, P.isDigit c = true)
    (negative : Bool) {exp : Option (List Char)}
    (hexp : ∀ es, exp = some es → es ≠ [] ∧ ∀ c ∈ es, P.isDigit c = true) :
    P.canonicalForm ((if negative then ['m'] else []) ++ (ds ++ exponentText exp)) =
      some ⟨negative, ds, exp⟩ := by
  have hm : P.isDigit 'm' = false := Python.not_isDigit_of_ascii
  have he : P.isDigit 'e' = false := Python.not_isDigit_of_ascii
  have hbody : ∀ rest : List Char,
      decide (((if negative then ['m'] else []) ++ (ds ++ rest)).head? = some 'm') = negative ∧
      (if ((if negative then ['m'] else []) ++ (ds ++ rest)).head? = some 'm' then
        ((if negative then ['m'] else []) ++ (ds ++ rest)).tail
        else (if negative then ['m'] else []) ++ (ds ++ rest)) = ds ++ rest := by
    intro rest
    cases negative with
    | true => exact ⟨rfl, rfl⟩
    | false =>
        have hhead : (ds ++ rest).head? ≠ some 'm' := head_ne_of_digits hne hds hm
        exact ⟨decide_eq_false hhead, if_neg hhead⟩
  obtain ⟨hsign, htail⟩ := hbody (exponentText exp)
  unfold Python.canonicalForm Python.marked
  simp only [hsign, htail]
  cases exp with
  | none =>
      simp only [exponentText, List.append_nil, (Python.takeWhile_digits hds).1,
        (Python.takeWhile_digits hds).2, if_neg hne, if_true]
  | some es =>
      obtain ⟨hes, hdigits⟩ := hexp es rfl
      simp only [exponentText, (Python.takeWhile_digits_append hds he).1,
        (Python.takeWhile_digits_append hds he).2, if_neg hne]
      simp [Python.digitsOnly_eq hes hdigits]

/-- A tag reads as an e-form. -/
theorem Spelled.canonicalForm {t : Decimal} (h : Spelled P t) :
    P.canonicalForm (rendered t) = some ⟨t.negative, Graphed.tagDigits t, tagExponent t⟩ := by
  rw [rendered_eq]
  refine canonicalForm_eq h.tagDigits.1 h.tagDigits.2 t.negative ?_
  intro es hes
  unfold tagExponent at hes
  split_ifs at hes
  rw [← Option.some.inj hes]
  exact ⟨Nat.toDigits_ne_nil, Python.isDigit_toDigits _⟩

/-- A tag is no float literal, unless it is digits alone. -/
theorem Spelled.floatSugar {t : Decimal} (h : Spelled P t) :
    P.floatSugar (rendered t) = if t.negative = true ∨ t.exp10 < 0 then none
      else some ⟨false, Graphed.tagDigits t, [], none⟩ := by
  have hm : P.isDigit 'm' = false := Python.not_isDigit_of_ascii
  have he : P.isDigit 'e' = false := Python.not_isDigit_of_ascii
  have hminus : P.isDigit '-' = false := Python.not_isDigit_of_ascii
  rw [rendered_eq]
  unfold Python.floatSugar
  rcases marker_or t with ⟨hnegative, hmarker⟩ | ⟨hnegative, hmarker⟩
  · rw [hmarker, if_pos (Or.inl hnegative)]
    simp [hm]
  · obtain ⟨hne, hds⟩ := h.tagDigits
    have hhead : ∀ rest, (Graphed.tagDigits t ++ rest).head? ≠ some '-' := fun rest =>
      head_ne_of_digits hne hds hminus
    rw [hmarker, List.nil_append]
    unfold tagExponent
    by_cases hexp : 0 ≤ t.exp10
    · have hnot : ¬(t.negative = true ∨ t.exp10 < 0) := by
        rw [hnegative]
        simpa using hexp
      have hplain := hhead []
      rw [List.append_nil] at hplain
      rw [if_neg hnot]
      simp only [if_pos hexp, exponentText, List.append_nil, decide_eq_false hplain,
        if_neg hplain, (Python.takeWhile_digits hds).1,
        (Python.takeWhile_digits hds).2, if_neg hne]
      rfl
    · rw [if_pos (Or.inr (by omega))]
      simp only [if_neg hexp, exponentText, if_neg (hhead _),
        (Python.takeWhile_digits_append hds he).1, (Python.takeWhile_digits_append hds he).2,
        if_neg hne]
      simp [Python.sugarExponent, Python.digitsOnly, hm]

/-! ### The decimal of a text -/

/-- The decimal a numeric text spells, its zeros as they stand, and the digits of its exponent. -/
def numericText (P : Python) (tag : List Char) : Option (Decimal × List Char) :=
  match P.floatSugar tag with
  | some sugar =>
      some (sugar.decimal P, (sugar.exp.map Prod.snd).getD [])
  | none =>
      (P.canonicalForm tag).map fun canonical =>
        (⟨canonical.negative, canonical.int, -(P.digits.number (canonical.rest.getD []) : Int)⟩,
          canonical.rest.getD [])

namespace Python

theorem digitsOnly_some {cs ds : List Char} (h : P.digitsOnly cs = some ds) :
    ds = cs ∧ ds ≠ [] ∧ ∀ c ∈ ds, P.isDigit c = true := by
  unfold digitsOnly at h
  split_ifs at h with hcs
  obtain rfl := Option.some.inj h
  exact ⟨rfl, hcs.1, List.all_eq_true.mp hcs.2⟩

theorem isDigit_of_mem_takeWhile {cs : List Char} {c : Char} (h : c ∈ cs.takeWhile P.isDigit) :
    P.isDigit c = true := List.mem_takeWhile_imp h

/-- Digits after a sign: the text begins with the sign or with a digit. -/
theorem head_of_signed {sign : Char} {tag : List Char}
    (h : (if tag.head? = some sign then tag.tail else tag).takeWhile P.isDigit ≠ []) :
    tag.head? = some sign ∨ ∃ c, tag.head? = some c ∧ P.isDigit c = true := by
  by_cases hsign : tag.head? = some sign
  · exact Or.inl hsign
  · right
    rw [if_neg hsign] at h
    cases tag with
    | nil => exact absurd rfl h
    | cons c cs =>
        refine ⟨c, rfl, ?_⟩
        by_contra hc
        apply h
        simp [hc]

/-- What a float literal is made of. -/
theorem floatSugar_some {tag : List Char} {sugar : Sugar} (h : P.floatSugar tag = some sugar) :
    sugar.int ≠ [] ∧ (∀ c ∈ sugar.int ++ sugar.frac, P.isDigit c = true) ∧
      (tag.head? = some '-' ∨ ∃ c, tag.head? = some c ∧ P.isDigit c = true) := by
  unfold floatSugar at h
  extract_lets negative body int at h
  split_ifs at h with hint
  have hhead := head_of_signed hint
  split at h
  · rename_i rest hrest
    extract_lets frac at h
    split_ifs at h with hfrac
    obtain ⟨exp, -, rfl⟩ := Option.map_eq_some_iff.mp h
    refine ⟨hint, fun c hc => ?_, hhead⟩
    rcases List.mem_append.mp hc with hc | hc
    · exact isDigit_of_mem_takeWhile hc
    · exact isDigit_of_mem_takeWhile hc
  · obtain ⟨exp, -, rfl⟩ := Option.map_eq_some_iff.mp h
    refine ⟨hint, fun c hc => ?_, hhead⟩
    rw [List.append_nil] at hc
    exact isDigit_of_mem_takeWhile hc

/-- What digits under a sign are made of. -/
theorem marked_some {mark tag : List Char} {form : Marked} (h : P.marked mark tag = some form) :
    form.int ≠ [] ∧ (∀ c ∈ form.int ++ form.rest.getD [], P.isDigit c = true) ∧
      (tag.head? = some 'm' ∨ ∃ c, tag.head? = some c ∧ P.isDigit c = true) := by
  unfold marked at h
  extract_lets negative body int rest at h
  split_ifs at h with hint hrest hmark
  · obtain rfl := Option.some.inj h
    refine ⟨hint, fun c hc => ?_, head_of_signed hint⟩
    rw [Option.getD_none, List.append_nil] at hc
    exact isDigit_of_mem_takeWhile hc
  · obtain ⟨ds, hds, rfl⟩ := Option.map_eq_some_iff.mp h
    refine ⟨hint, fun c hc => ?_, head_of_signed hint⟩
    rcases List.mem_append.mp hc with hc | hc
    · exact isDigit_of_mem_takeWhile hc
    · exact (digitsOnly_some hds).2.2 c hc

/-- A digit does not begin a word that names no finite value. -/
theorem toLower_of_isDigit {c : Char} (hc : P.isDigit c = true) :
    c.toLower ≠ 'i' ∧ c.toLower ≠ 'n' := by
  have hletters : P.isDigit 'i' = false ∧ P.isDigit 'n' = false :=
    ⟨not_isDigit_of_ascii, not_isDigit_of_ascii⟩
  unfold Char.toLower
  split_ifs with hupper
  · have hle : c.toNat ≤ 90 ∧ 65 ≤ c.toNat := ⟨hupper.2, hupper.1⟩
    have hnot : c.isDigit = false := by
      rw [Bool.eq_false_iff]
      intro hdigit
      simp only [Char.isDigit, Bool.and_eq_true, decide_eq_true_eq] at hdigit
      have hnine : c.toNat ≤ 57 := hdigit.2
      omega
    have hfalse : P.isDigit c = false := P.digits.not_isDigit (by omega) hnot
    rw [hfalse] at hc
    cases hc
  · constructor
    · rintro rfl
      rw [hletters.1] at hc
      cases hc
    · rintro rfl
      rw [hletters.2] at hc
      cases hc

end Python

theorem notMem_notFinite {tag : List Char} {sign : Char} (hsign : sign = '-' ∨ sign = 'm')
    (h : tag.head? = some sign ∨ ∃ c, tag.head? = some c ∧ P.isDigit c = true) :
    tag ≠ [] ∧ tag.map Char.toLower ∉ notFinite := by
  have hhead : ∃ c, tag.head? = some c ∧ c.toLower ≠ 'i' ∧ c.toLower ≠ 'n' := by
    rcases h with h | ⟨c, h, hc⟩
    · refine ⟨sign, h, ?_⟩
      rcases hsign with rfl | rfl <;> decide
    · exact ⟨c, h, Python.toLower_of_isDigit hc⟩
  obtain ⟨c, hc, hi, hn⟩ := hhead
  cases tag with
  | nil => cases hc
  | cons d ds =>
      obtain rfl := Option.some.inj hc
      refine ⟨List.cons_ne_nil _ _, fun hmem => ?_⟩
      simp only [notFinite, List.map_cons, List.mem_cons, List.not_mem_nil, or_false] at hmem
      rcases hmem with h | h | h
      · exact hi (List.cons.inj h).1
      · exact hi (List.cons.inj h).1
      · exact hn (List.cons.inj h).1

theorem numericText_digits {tag : List Char} {t : Decimal} {ds : List Char}
    (h : numericText P tag = some (t, ds)) :
    t.digits ≠ [] ∧ (∀ c ∈ t.digits, P.isDigit c = true) ∧ tag ≠ [] ∧
      tag.map Char.toLower ∉ notFinite := by
  unfold numericText at h
  cases hsugar : P.floatSugar tag with
  | some sugar =>
      rw [hsugar] at h
      obtain ⟨hint, hdigits, hhead⟩ := Python.floatSugar_some hsugar
      obtain ⟨rfl, -⟩ := Prod.mk.inj (Option.some.inj h)
      exact ⟨by simp [Python.Sugar.decimal, hint], hdigits, notMem_notFinite (Or.inl rfl) hhead⟩
  | none =>
      rw [hsugar] at h
      obtain ⟨canonical, hcanonical, heq⟩ := Option.map_eq_some_iff.mp h
      obtain ⟨hint, hdigits, hhead⟩ := Python.marked_some hcanonical
      obtain ⟨rfl, -⟩ := Prod.mk.inj heq
      exact ⟨hint, fun c hc => hdigits c (List.mem_append_left _ hc),
        notMem_notFinite (Or.inr rfl) hhead⟩

/-- A numeric text is spelled minimally, once its exponent is read. -/
theorem canonicalText_numeric {tag : List Char} {t : Decimal} {ds : List Char}
    (h : numericText P tag = some (t, ds)) :
    canonicalText P tag = if P.Converts ds.length then spellNumber P (normalize t) tag
      else .error .valueError := by
  obtain ⟨-, -, hne, hfinite⟩ := numericText_digits h
  have hempty : P.Converts 0 := Python.converts_small (by decide)
  unfold canonicalText
  rw [if_neg hne, if_neg hfinite]
  unfold numericText at h
  cases hsugar : P.floatSugar tag with
  | some sugar =>
      rw [hsugar] at h
      obtain ⟨rfl, rfl⟩ := Prod.mk.inj (Option.some.inj h)
      dsimp only
      cases hexp : sugar.exp with
      | none =>
          simp only [sugarExp10, Python.Sugar.decimal, hexp, exponentValue, Option.map_none,
            Option.getD_none, List.length_nil, if_pos hempty]
          rfl
      | some entry =>
          obtain ⟨negative, es⟩ := entry
          simp only [sugarExp10, Python.Sugar.decimal, hexp, exponentValue, Option.map_some,
            Option.getD_some]
          unfold Python.int
          split_ifs <;> rfl
  | none =>
      rw [hsugar] at h
      obtain ⟨canonical, hcanonical, heq⟩ := Option.map_eq_some_iff.mp h
      obtain ⟨rfl, rfl⟩ := Prod.mk.inj heq
      rw [hcanonical]
      dsimp only
      cases hexp : canonical.rest with
      | none =>
          simp only [markedExp10, Option.getD_none, List.length_nil, if_pos hempty]
          rfl
      | some es =>
          simp only [markedExp10, Option.getD_some]
          unfold Python.int
          split_ifs <;> rfl

theorem numericText_none {tag : List Char} (h : numericText P tag = none) :
    P.floatSugar tag = none ∧ P.canonicalForm tag = none := by
  unfold numericText at h
  cases hsugar : P.floatSugar tag with
  | some sugar =>
      rw [hsugar] at h
      cases h
  | none =>
      rw [hsugar] at h
      exact ⟨rfl, Option.map_eq_none_iff.mp h⟩

theorem numericText_of_sugar {tag : List Char} {sugar : Python.Sugar}
    (h : P.floatSugar tag = some sugar) :
    numericText P tag = some (sugar.decimal P, (sugar.exp.map Prod.snd).getD []) := by
  unfold numericText
  rw [h]

/-- Another text is kept verbatim, or refused. -/
theorem canonicalText_other {tag : List Char} (h : numericText P tag = none) :
    (∃ message, canonicalText P tag = .error (.graphed message)) ∨
      canonicalText P tag = .ok tag ∧ isIdentifier tag = true := by
  have hnone := numericText_none h
  unfold canonicalText
  by_cases hnil : tag = []
  · rw [if_pos hnil]
    exact Or.inl ⟨_, rfl⟩
  rw [if_neg hnil]
  by_cases hfinite : tag.map Char.toLower ∈ notFinite
  · rw [if_pos hfinite]
    exact Or.inl ⟨_, rfl⟩
  rw [if_neg hfinite, hnone.1, hnone.2]
  dsimp only
  by_cases hidentifier : isIdentifier tag = false
  · rw [if_pos hidentifier]
    exact Or.inl ⟨_, rfl⟩
  rw [if_neg hidentifier]
  by_cases hform : tag.head?.any Char.isDigit = true ∧ P.pForm tag = none
  · rw [if_pos hform]
    exact Or.inl ⟨_, rfl⟩
  · rw [if_neg hform]
    exact Or.inr ⟨rfl, by simpa using hidentifier⟩

/-! ### Reading a tag back -/

/-- The power of ten a tag divides by. -/
def tagPower (t : Decimal) : Nat := (-t.exp10).toNat

theorem spelled_of_numericText {tag : List Char} {t : Decimal} {ds : List Char}
    (h : numericText P tag = some (t, ds)) : Spelled P (normalize t) where
  normal := normal_normalize t
  digits := digits_normalize Python.isDigit_zero (numericText_digits h).2.1

theorem number_tagExponent (t : Decimal) :
    P.digits.number ((tagExponent t).getD []) = tagPower t := by
  unfold tagExponent tagPower
  split_ifs with h
  · rw [Int.toNat_of_nonpos (by omega)]
    rfl
  · rw [Option.getD_some, P.digits.number_toDigits]
    omega

/-- The decimal as its tag spells it. -/
theorem normalize_tagDigits {t : Decimal} (ht : t.Normal) :
    normalize ⟨t.negative, tagDigits t, -(tagPower t : Int)⟩ = t := by
  unfold tagDigits tagPower
  cases ht with
  | zero => rfl
  | digits negative digits e hne hhead hlast =>
      have hcore := fun m => normalize_core ⟨hne, hhead, hlast⟩ negative 0 m (-((-e).toNat : Int))
      dsimp only
      split_ifs with he
      · have h := hcore e.toNat
        rw [List.replicate_zero, List.nil_append] at h
        rw [h]
        congr 1
        omega
      · have h := hcore 0
        rw [List.replicate_zero, List.nil_append, List.append_nil] at h
        rw [h]
        congr 1
        omega

/-- A tag spells the decimal it was written from. -/
theorem Spelled.numericText {t : Decimal} (h : Spelled P t) :
    numericText P (rendered t) =
      some (⟨t.negative, Graphed.tagDigits t, -(tagPower t : Int)⟩, (tagExponent t).getD []) := by
  unfold Graphed.numericText
  rw [h.floatSugar]
  by_cases hsugar : t.negative = true ∨ t.exp10 < 0
  · rw [if_pos hsugar, h.canonicalForm]
    simp only [Option.map_some, number_tagExponent]
  · rw [if_neg hsugar]
    obtain ⟨hnegative, hexp⟩ := not_or.mp hsugar
    have hpower : tagPower t = 0 := by
      unfold tagPower
      omega
    have hnone : tagExponent t = none := if_pos (by omega)
    simp only [Python.Sugar.decimal, List.append_nil, exponentValue, List.length_nil,
      Option.map_none, hnone, hpower, Bool.not_eq_true _ ▸ hnegative]
    rfl

theorem length_tagDigits {t : Decimal} (ht : t.Normal) (hfits : Fits t) :
    (tagDigits t).length ≤ maxTagChars ∧ ((tagExponent t).getD []).length ≤ maxTagChars := by
  unfold tagDigits tagExponent
  cases ht with
  | zero => exact ⟨by decide, by decide⟩
  | digits negative digits e hne hhead hlast =>
      have hzero : digits ≠ ['0'] := by
        rintro rfl
        exact hhead rfl
      obtain ⟨hmagnitude, hlength⟩ := hfits.resolve_left hzero
      unfold magnitude at hmagnitude
      unfold tagLength at hlength
      dsimp only at *
      split_ifs at hlength ⊢ with he
      · rw [List.length_append, List.length_replicate]
        refine ⟨?_, Nat.zero_le _⟩
        have := le_trans (le_max_left _ _) hmagnitude
        omega
      · rw [intText_neg (by omega)] at hlength
        rw [Option.getD_some]
        omega

/-- A tag is its own tag. -/
theorem canonicalText_rendered {t : Decimal} (h : Spelled P t) (hfits : Fits t) :
    canonicalText P (rendered t) = .ok (rendered t) := by
  have hlength := (length_tagDigits h.normal hfits).2
  have hconverts : P.Converts ((tagExponent t).getD []).length :=
    Python.converts_small (le_trans hlength (by decide))
  rw [canonicalText_numeric h.numericText, if_pos hconverts, normalize_tagDigits h.normal,
    spellNumber_of_fits h.normal hfits]

theorem value_tagDigits {t : Decimal} (ht : t.Normal) :
    (if t.negative then (-1 : ℚ) else 1) * (P.digits.number (tagDigits t) / 10 ^ tagPower t) =
      t.value P.digits := by
  rw [← congrArg (Decimal.value P.digits) (normalize_tagDigits ht), value_normalize]
  unfold Decimal.value
  dsimp only
  rw [zpow_neg, zpow_natCast]
  ring

/-- The value of a tag is the value of its decimal, and the integers it is made of are its digits,
its exponent and the power of ten. -/
theorem numericValue_rendered {t : Decimal} (h : Spelled P t) (hfits : Fits t) :
    numericValue P (rendered t) =
      ⟨[(P.digits.number (tagDigits t) : Int), (tagPower t : Int), 10 ^ tagPower t],
        .ok (some (t.value P.digits))⟩ := by
  obtain ⟨hdigits, hexponent⟩ := length_tagDigits h.normal hfits
  have hint : P.int (tagDigits t) = .ok (P.digits.number (tagDigits t)) :=
    if_pos (Python.converts_small (le_trans hdigits (by decide)))
  have hexp : markedExp10 P (tagExponent t) = .ok (tagPower t) := by
    rw [← number_tagExponent (P := P)]
    cases htag : tagExponent t with
    | none => rfl
    | some ds =>
        rw [htag] at hexponent
        exact if_pos (Python.converts_small (le_trans hexponent (by decide)))
  unfold numericValue
  rw [h.canonicalForm]
  dsimp only
  rw [hint, hexp, ← value_tagDigits h.normal]
  rfl

end Graphed
