import Graphed.Library.Decimals
import Graphed.Library.Traced
import Mathlib.Data.Rat.Defs

/-!
# Variation tags

A tag is an identifier, kept verbatim, or a number, spelled in one minimal form: a sign, digits, and
a power of ten, taken from the characters of the spelling. The integers a tag is turned into later
are logged.
-/

namespace Graphed

open Decimals

/-- What text does in Python: the decimal digits of its characters, how `repr` quotes one, which are
identifiers, and how many digits an integer may be read from or written to (no bound where this is
zero). -/
structure Python where
  digits : DigitTable
  repr : List Char → String
  identifier : List Char → Bool
  limit : Nat
  limit_ge : limit = 0 ∨ 640 ≤ limit

/-- A refusal by `GraphedError`, or Python's own `ValueError`. -/
inductive TagError where
  | graphed (message : String)
  | valueError
deriving DecidableEq

def maxTagChars : Nat := 32

/-! ### Integers and text -/

namespace Python

variable (P : Python)

/-- That many digit characters are converted. -/
def Converts (n : Nat) : Prop := P.limit = 0 ∨ n ≤ P.limit

instance (n : Nat) : Decidable (P.Converts n) := inferInstanceAs (Decidable (_ ∨ _))

/-- `int` of a text of digits. -/
def int (cs : List Char) : Except TagError Nat :=
  if P.Converts cs.length then .ok (P.digits.number cs) else .error .valueError

/-- The decimal text of an integer. -/
def intText (n : Int) : List Char :=
  if n < 0 then '-' :: Nat.toDigits 10 n.natAbs else Nat.toDigits 10 n.natAbs

/-- `str` of an integer. -/
def str (n : Int) : Except TagError (List Char) :=
  if P.Converts (Nat.toDigits 10 n.natAbs).length then .ok (intText n) else .error .valueError

/-- `str` of a `Fraction`. -/
def fractionText (q : ℚ) : Except TagError (List Char) := do
  let num ← P.str q.num
  if q.den = 1 then return num
  let den ← P.str q.den
  return num ++ '/' :: den

/-- `repr` of a `Fraction`. -/
def fractionRepr (q : ℚ) : Except TagError String := do
  let num ← P.str q.num
  let den ← P.str q.den
  return "Fraction(" ++ String.ofList num ++ ", " ++ String.ofList den ++ ")"

/-! ### The grammars -/

def isDigit (c : Char) : Bool := P.digits.isDigit c

/-- One digit or more, and nothing else. -/
def digitsOnly (cs : List Char) : Option (List Char) :=
  if cs ≠ [] ∧ cs.all P.isDigit = true then some cs else none

/-- A float literal: sign, digits, a fraction and an exponent. -/
structure Sugar where
  negative : Bool
  int : List Char
  frac : List Char
  exp : Option (Bool × List Char)
deriving DecidableEq

/-- The exponent of a float literal, to the end of the text. -/
def sugarExponent : List Char → Option (Option (Bool × List Char))
  | [] => some none
  | c :: rest =>
      if c = 'e' ∨ c = 'E' then
        match rest with
        | '-' :: ds => (P.digitsOnly ds).map fun ds => some (true, ds)
        | '+' :: ds => (P.digitsOnly ds).map fun ds => some (false, ds)
        | ds => (P.digitsOnly ds).map fun ds => some (false, ds)
      else none

/-- `-?\\d+(\\.\\d+)?([eE][+-]?\\d+)?` -/
def floatSugar (tag : List Char) : Option Sugar :=
  let negative := tag.head? = some '-'
  let body := if negative then tag.tail else tag
  let int := body.takeWhile P.isDigit
  if int = [] then none
  else
    match body.dropWhile P.isDigit with
    | '.' :: rest =>
        let frac := rest.takeWhile P.isDigit
        if frac = [] then none
        else (P.sugarExponent (rest.dropWhile P.isDigit)).map (⟨negative, int, frac, ·⟩)
    | rest => (P.sugarExponent rest).map (⟨negative, int, [], ·⟩)

/-- Digits under a sign, and more digits after a mark. -/
structure Marked where
  negative : Bool
  int : List Char
  rest : Option (List Char)
deriving DecidableEq

/-- `m?\\d+(mark\\d+)?` -/
def marked (mark tag : List Char) : Option Marked :=
  let negative := tag.head? = some 'm'
  let body := if negative then tag.tail else tag
  let int := body.takeWhile P.isDigit
  let rest := body.dropWhile P.isDigit
  if int = [] then none
  else if rest = [] then some ⟨negative, int, none⟩
  else if mark.isPrefixOf rest then
    (P.digitsOnly (rest.drop mark.length)).map fun ds => ⟨negative, int, some ds⟩
  else none

/-- The canonical e-form. -/
def canonicalForm (tag : List Char) : Option Marked := P.marked ['e', 'm'] tag

/-- The datacard p-form. -/
def pForm (tag : List Char) : Option Marked := P.marked ['p'] tag

end Python

/-- `[A-Za-z0-9_]+` -/
def isIdentifier (tag : List Char) : Bool :=
  tag ≠ [] && tag.all fun c => c.isAlphanum || c == '_'

/-- Spellings that read as identifiers and name no finite value. -/
def notFinite : List (List Char) := ["inf".toList, "infinity".toList, "nan".toList]

/-! ### One spelling of a number -/

/-- Minimal digits: no leading and no trailing zeros, the exponent absorbing the shift. -/
def normalize (t : Decimal) : Decimal :=
  let digits := t.digits.dropWhile (· == '0')
  if digits = [] then ⟨false, ['0'], 0⟩
  else
    let minimal := digits.rdropWhile (· == '0')
    ⟨t.negative, minimal, t.exp10 + (digits.length - minimal.length : Nat)⟩

/-- How many digits the integer part of a number has. -/
def magnitude (t : Decimal) : Int := max (t.digits.length + t.exp10) 1

def signLength (t : Decimal) : Nat := if t.negative then 1 else 0

def marker (t : Decimal) : List Char := if t.negative then ['m'] else []

variable (P : Python)

/-- The canonical tag of a minimal decimal. Its digits are counted before any is written. -/
def spellNumber (t : Decimal) (source : List Char) : Except TagError (List Char) := do
  if t.digits = ['0'] then return ['0']
  if maxTagChars < magnitude t then
    let shown ← P.str (magnitude t)
    throw (.graphed ("variation tag " ++ P.repr source ++ ": its magnitude is " ++
      String.ofList shown ++ " digits, over the 32-character bound"))
  let length ← if 0 ≤ t.exp10 then pure (magnitude t + signLength t) else do
    let exponent ← P.str (-t.exp10)
    pure (t.digits.length + 2 + exponent.length + signLength t)
  if maxTagChars < length then
    let shown ← P.str length
    throw (.graphed ("variation tag " ++ P.repr source ++ ": canonical tag length " ++
      String.ofList shown ++ " exceeds the 32-character cap"))
  if 0 ≤ t.exp10 then return marker t ++ t.digits ++ List.replicate t.exp10.toNat '0'
  let exponent ← P.str (-t.exp10)
  return marker t ++ t.digits ++ ['e', 'm'] ++ exponent

/-- The exponent of a float literal, and of an e-form. -/
def sugarExp10 : Option (Bool × List Char) → Except TagError Int
  | none => .ok 0
  | some (negative, ds) => (P.int ds).map fun n => if negative then -n else n

def markedExp10 : Option (List Char) → Except TagError Nat
  | none => .ok 0
  | some ds => P.int ds

/-! ### Tags -/

/-- The tag a text names. -/
def canonicalText (tag : List Char) : Except TagError (List Char) := do
  if tag = [] then throw (.graphed "a variation tag must not be empty")
  if tag.map Char.toLower ∈ notFinite then
    throw (.graphed ("variation tag " ++ P.repr tag ++ " does not name a finite value"))
  match P.floatSugar tag with
  | some sugar =>
      let exp ← sugarExp10 P sugar.exp
      spellNumber P (normalize ⟨sugar.negative, sugar.int ++ sugar.frac, exp - sugar.frac.length⟩)
        tag
  | none =>
      match P.canonicalForm tag with
      | some canonical =>
          let exp ← markedExp10 P canonical.rest
          spellNumber P (normalize ⟨canonical.negative, canonical.int, -exp⟩) tag
      | none =>
          if isIdentifier tag = false then
            throw (.graphed ("variation tag " ++ P.repr tag ++ " is neither a numeric spelling nor " ++
              "an identifier ([A-Za-z0-9_]+); labels must be usable as column and category names"))
          if (tag.head?.any Char.isDigit) = true ∧ P.pForm tag = none then
            throw (.graphed ("variation tag " ++ P.repr tag ++ " looks numeric but is not a valid " ++
              "spelling (no separators, no whitespace, no leading '+')"))
          return tag

/-- The number of an exponent, with its sign. -/
def exponentValue : Option (Bool × List Char) → Int
  | none => 0
  | some (negative, ds) => if negative then -P.digits.number ds else P.digits.number ds

/-- The decimal a float literal spells, its zeros as they stand. -/
def Python.Sugar.decimal (sugar : Python.Sugar) : Decimal :=
  ⟨sugar.negative, sugar.int ++ sugar.frac, exponentValue P sugar.exp - sugar.frac.length⟩

/-- A double: not finite, or the shortest literal that reads back to it. -/
inductive PyFloat where
  | nan
  | infinite (negative : Bool)
  | finite (text : List Char) (sugar : Python.Sugar) (hsugar : P.floatSugar text = some sugar)
      (hlength : text.length ≤ 24) (hexp : (exponentValue P sugar.exp).natAbs ≤ 324)

def PyFloat.repr {P : Python} : PyFloat P → List Char
  | nan => "nan".toList
  | infinite negative => if negative then "-inf".toList else "inf".toList
  | finite text _ _ _ _ => text

/-- What is given as a tag or a coordinate. -/
inductive Spelling where
  | str (s : List Char)
  | int (n : Int)
  | float (x : PyFloat P)
  | fraction (q : ℚ)

/-- The tag a user spelling names. -/
def canonicalTag : Spelling P → Except TagError (List Char)
  | .str s => canonicalText P s
  | .int n => do
      let s ← P.str n
      canonicalText P s
  | .float x => canonicalText P x.repr
  | .fraction q => do
      let shown ← P.fractionRepr q
      throw (.graphed ("variation tags must be strings, integers or floats, got " ++ shown))

/-- The exact value a canonical or p-encoded tag names; none for another identifier. The mantissa,
the exponent and the power of ten are logged. -/
def numericValue (tag : List Char) : Traced Int TagError (Option ℚ) :=
  match P.canonicalForm tag with
  | some canonical => do
      let mantissa ← .quietly (P.int canonical.int)
      .tell (mantissa : Int)
      let exp ← .quietly (markedExp10 P canonical.rest)
      .tell (exp : Int)
      .tell (10 ^ exp : Int)
      return some ((if canonical.negative then -1 else 1) * (mantissa / 10 ^ exp))
  | none =>
      match P.pForm tag with
      | some form => do
          let frac := form.rest.getD []
          let mantissa ← .quietly (P.int (form.int ++ frac))
          .tell (mantissa : Int)
          .tell (10 ^ frac.length : Int)
          return some ((if form.negative then -1 else 1) * (mantissa / 10 ^ frac.length))
      | none => return none

end Graphed
