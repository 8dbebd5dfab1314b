import Mathlib.Data.List.TakeWhile
import Mathlib.Tactic.Common

/-!
# JSON text

Values are written without spaces, every character outside printable ASCII escaped, and read by
recursive descent. What is written is read back; and no proper part of an object's text, cut at the
end, can be read at all.
-/

namespace JsonText

/-! ### Values -/

inductive Word where
  | null
  | true
  | false
  | nan
  | infinity
  | negInfinity
deriving DecidableEq

namespace Word

def text : Word → List Char
  | null => ['n', 'u', 'l', 'l']
  | true => ['t', 'r', 'u', 'e']
  | false => ['f', 'a', 'l', 's', 'e']
  | nan => ['N', 'a', 'N']
  | infinity => ['I', 'n', 'f', 'i', 'n', 'i', 't', 'y']
  | negInfinity => ['-', 'I', 'n', 'f', 'i', 'n', 'i', 't', 'y']

end Word

/-- The characters a number may have. -/
def isNumberChar (c : Char) : Bool :=
  c.isDigit || c == '-' || c == '+' || c == '.' || c == 'e' || c == 'E'

/-- One digit or more. -/
def digitsPart : List Char → Option (List Char)
  | [] => none
  | c :: cs => if c.isDigit then some (cs.dropWhile Char.isDigit) else none

def naturalPart : List Char → Option (List Char)
  | '0' :: cs => some cs
  | cs => digitsPart cs

def integerPart : List Char → Option (List Char)
  | '-' :: cs => naturalPart cs
  | cs => naturalPart cs

def fractionPart : List Char → Option (List Char)
  | '.' :: cs => digitsPart cs
  | cs => some cs

def signedDigits : List Char → Option (List Char)
  | '+' :: cs => digitsPart cs
  | '-' :: cs => digitsPart cs
  | cs => digitsPart cs

def exponentPart : List Char → Option (List Char)
  | 'e' :: cs => signedDigits cs
  | 'E' :: cs => signedDigits cs
  | cs => some cs

def isNumber (cs : List Char) : Bool :=
  cs.all isNumberChar && ((integerPart cs >>= fractionPart >>= exponentPart) == some [])

/-- A number, as it is written. -/
structure Number where
  text : List Char
  valid : isNumber text = true
deriving DecidableEq

mutual

inductive Value where
  | word (w : Word)
  | num (n : Number)
  | str (s : List Char)
  | arr (items : Items)
  | obj (fields : Fields)

inductive Items where
  | nil
  | cons (v : Value) (rest : Items)

/-- The items of a dict, in the order they are written. -/
inductive Fields where
  | nil
  | cons (key : List Char) (v : Value) (rest : Fields)

end

/-! ### Writing -/

def hexDigit (d : Nat) : Char := Nat.digitChar d

/-- A character code as four hexadecimal digits. -/
def unicode (n : Nat) : List Char :=
  ['\\', 'u', hexDigit (n / 4096), hexDigit (n / 256 % 16), hexDigit (n / 16 % 16),
    hexDigit (n % 16)]

/-- A character as it stands in a text. -/
def escape (c : Char) : List Char :=
  if c = '"' then ['\\', '"']
  else if c = '\\' then ['\\', '\\']
  else if c = '\n' then ['\\', 'n']
  else if c = '\r' then ['\\', 'r']
  else if c = '\t' then ['\\', 't']
  else if c = '\x0c' then ['\\', 'f']
  else if c = '\x08' then ['\\', 'b']
  else if 32 ≤ c.toNat ∧ c.toNat < 127 then [c]
  else if c.toNat < 65536 then unicode c.toNat
  else unicode (55296 + (c.toNat - 65536) / 1024) ++ unicode (56320 + (c.toNat - 65536) % 1024)

def quote (s : List Char) : List Char := '"' :: s.flatMap escape ++ ['"']

mutual

def dump : Value → List Char
  | .word w => w.text
  | .num n => n.text
  | .str s => quote s
  | .arr .nil => ['[', ']']
  | .arr (.cons v rest) => '[' :: dump v ++ dumpItems rest
  | .obj .nil => ['{', '}']
  | .obj (.cons key v rest) => '{' :: quote key ++ ':' :: dump v ++ dumpFields rest

/-- What follows an item of a list. -/
def dumpItems : Items → List Char
  | .nil => [']']
  | .cons v rest => ',' :: dump v ++ dumpItems rest

/-- What follows an item of a dict. -/
def dumpFields : Fields → List Char
  | .nil => ['}']
  | .cons key v rest => ',' :: quote key ++ ':' :: dump v ++ dumpFields rest

end

/-! ### Reading -/

def isSpace (c : Char) : Bool := c == ' ' || c == '\t' || c == '\n' || c == '\r'

def skipSpace (cs : List Char) : List Char := cs.dropWhile isSpace

def hexValue (c : Char) : Option Nat :=
  if c.isDigit then some (c.toNat - 48)
  else if 97 ≤ c.toNat ∧ c.toNat < 103 then some (c.toNat - 87)
  else if 65 ≤ c.toNat ∧ c.toNat < 71 then some (c.toNat - 55)
  else none

def readHex : List Char → Option (Nat × List Char)
  | a :: b :: c :: d :: cs => do
      let a ← hexValue a
      let b ← hexValue b
      let c ← hexValue c
      let d ← hexValue d
      some (a * 4096 + b * 256 + c * 16 + d, cs)
  | _ => none

/-- The character after a backslash and its u. The second half of a pair must follow the first; a
half alone is no character. -/
def readUnicode (cs : List Char) : Option (Char × List Char) := do
  let (n, cs) ← readHex cs
  if 55296 ≤ n ∧ n < 56320 then
    match cs with
    | '\\' :: 'u' :: cs => do
        let (m, cs) ← readHex cs
        if 56320 ≤ m ∧ m < 57344 then
          some (Char.ofNat (65536 + (n - 55296) * 1024 + (m - 56320)), cs)
        else none
    | _ => none
  else if 56320 ≤ n ∧ n < 57344 then none
  else some (Char.ofNat n, cs)

def readEscape : List Char → Option (Char × List Char)
  | '"' :: cs => some ('"', cs)
  | '\\' :: cs => some ('\\', cs)
  | '/' :: cs => some ('/', cs)
  | 'b' :: cs => some ('\x08', cs)
  | 'f' :: cs => some ('\x0c', cs)
  | 'n' :: cs => some ('\n', cs)
  | 'r' :: cs => some ('\r', cs)
  | 't' :: cs => some ('\t', cs)
  | 'u' :: cs => readUnicode cs
  | _ => none

/-- The next character of a text, none at its closing quote. -/
def readChar : List Char → Option (Option Char × List Char)
  | [] => none
  | '"' :: cs => some (none, cs)
  | '\\' :: cs => (readEscape cs).map fun x => (some x.1, x.2)
  | c :: cs => if c.toNat < 32 then none else some (some c, cs)

def readText : Nat → List Char → Option (List Char × List Char)
  | 0, _ => none
  | n + 1, cs =>
      match readChar cs with
      | none => none
      | some (none, cs) => some ([], cs)
      | some (some c, cs) => (readText n cs).map fun x => (c :: x.1, x.2)

def readWord : List Char → Option (Word × List Char)
  | 'n' :: 'u' :: 'l' :: 'l' :: cs => some (.null, cs)
  | 't' :: 'r' :: 'u' :: 'e' :: cs => some (.true, cs)
  | 'f' :: 'a' :: 'l' :: 's' :: 'e' :: cs => some (.false, cs)
  | 'N' :: 'a' :: 'N' :: cs => some (.nan, cs)
  | 'I' :: 'n' :: 'f' :: 'i' :: 'n' :: 'i' :: 't' :: 'y' :: cs => some (.infinity, cs)
  | '-' :: 'I' :: 'n' :: 'f' :: 'i' :: 'n' :: 'i' :: 't' :: 'y' :: cs => some (.negInfinity, cs)
  | _ => none

/-- A number, or a word. -/
def readAtom (cs : List Char) : Option (Value × List Char) :=
  if h : isNumber (cs.takeWhile isNumberChar) = true then
    some (.num ⟨cs.takeWhile isNumberChar, h⟩, cs.dropWhile isNumberChar)
  else (readWord cs).map fun x => (.word x.1, x.2)

mutual

def readValue : Nat → List Char → Option (Value × List Char)
  | 0, _ => none
  | n + 1, '"' :: cs => (readText (n + 1) cs).map fun x => (.str x.1, x.2)
  | n + 1, '[' :: cs =>
      match skipSpace cs with
      | ']' :: cs => some (.arr .nil, cs)
      | cs => do
          let (v, cs) ← readValue n cs
          let (rest, cs) ← readItems n (skipSpace cs)
          some (.arr (.cons v rest), cs)
  | n + 1, '{' :: cs =>
      match skipSpace cs with
      | '}' :: cs => some (.obj .nil, cs)
      | cs => do
          let (fields, cs) ← readField n cs
          some (.obj fields, cs)
  | _ + 1, cs => readAtom cs

/-- What follows an item of a list. -/
def readItems : Nat → List Char → Option (Items × List Char)
  | 0, _ => none
  | _ + 1, ']' :: cs => some (.nil, cs)
  | n + 1, ',' :: cs => do
      let (v, cs) ← readValue n (skipSpace cs)
      let (rest, cs) ← readItems n (skipSpace cs)
      some (.cons v rest, cs)
  | _, _ => none

/-- An item of a dict, and what follows it. -/
def readField : Nat → List Char → Option (Fields × List Char)
  | 0, _ => none
  | n + 1, '"' :: cs =>
      match readText (n + 1) cs with
      | none => none
      | some (key, cs) =>
          match skipSpace cs with
          | ':' :: cs => do
              let (v, cs) ← readValue n (skipSpace cs)
              match skipSpace cs with
              | '}' :: cs => some (.cons key v .nil, cs)
              | ',' :: cs => do
                  let (rest, cs) ← readField n (skipSpace cs)
                  some (.cons key v rest, cs)
              | _ => none
          | _ => none
  | _, _ => none

end

/-- The value a whole text holds. -/
def loads (text : List Char) : Option Value :=
  match readValue (text.length + 1) (skipSpace text) with
  | some (v, rest) => if skipSpace rest = [] then some v else none
  | none => none

/-! ### Texts -/

theorem hexValue_hexDigit : ∀ d < 16, hexValue (hexDigit d) = some d := by decide

theorem readHex_unicode {n : Nat} (hn : n < 65536) (rest : List Char) :
    readHex ((unicode n).drop 2 ++ rest) = some (n, rest) := by
  simp only [unicode, List.drop_succ_cons, List.drop_zero, List.cons_append, List.nil_append,
    readHex]
  rw [hexValue_hexDigit _ (by omega), hexValue_hexDigit _ (by omega),
    hexValue_hexDigit _ (by omega), hexValue_hexDigit _ (by omega)]
  simp only [Option.bind_eq_bind, Option.bind_some, Option.some.injEq, Prod.mk.injEq, and_true]
  omega

/-- A character is no half of a pair. -/
theorem toNat_range (c : Char) : c.toNat < 55296 ∨ 57344 ≤ c.toNat ∧ c.toNat < 1114112 := by
  have hvalid := c.valid
  unfold UInt32.isValidChar Nat.isValidChar at hvalid
  change c.toNat < 55296 ∨ 57343 < c.toNat ∧ c.toNat < 1114112 at hvalid
  omega

theorem readUnicode_small {c : Char} (hc : c.toNat < 65536) (rest : List Char) :
    readUnicode ((unicode c.toNat).drop 2 ++ rest) = some (c, rest) := by
  have hrange := toNat_range c
  unfold readUnicode
  rw [readHex_unicode hc]
  simp only [Option.bind_eq_bind, Option.bind_some]
  rw [if_neg (by omega), if_neg (by omega), Char.ofNat_toNat]

theorem readUnicode_halves {n m : Nat} (hn : 55296 ≤ n ∧ n < 56320) (hm : 56320 ≤ m ∧ m < 57344)
    (rest : List Char) : readUnicode ((unicode n).drop 2 ++ (unicode m ++ rest)) =
      some (Char.ofNat (65536 + (n - 55296) * 1024 + (m - 56320)), rest) := by
  have hsecond := readHex_unicode (n := m) (by omega) rest
  unfold readUnicode
  rw [readHex_unicode (by omega)]
  simp only [Option.bind_eq_bind, Option.bind_some]
  rw [if_pos hn]
  simp only [unicode, List.drop_succ_cons, List.drop_zero, List.cons_append,
    List.nil_append] at hsecond ⊢
  rw [hsecond]
  simp only [Option.bind_some]
  rw [if_pos hm]

theorem readUnicode_pair {c : Char} (hc : ¬ c.toNat < 65536) (rest : List Char) :
    readUnicode ((unicode (55296 + (c.toNat - 65536) / 1024)).drop 2 ++
      (unicode (56320 + (c.toNat - 65536) % 1024) ++ rest)) = some (c, rest) := by
  have hrange := toNat_range c
  have hback : 65536 + (55296 + (c.toNat - 65536) / 1024 - 55296) * 1024 +
      (56320 + (c.toNat - 65536) % 1024 - 56320) = c.toNat := by omega
  refine (readUnicode_halves (by omega) (by omega) rest).trans ?_
  rw [hback, Char.ofNat_toNat]

/-- An escaped character is read back. -/
theorem readChar_escape (c : Char) (rest : List Char) :
    readChar (escape c ++ rest) = some (some c, rest) := by
  unfold escape
  split_ifs with hquote hslash hline hreturn htab hfeed hback hplain hsmall
  · subst hquote; rfl
  · subst hslash; rfl
  · subst hline; rfl
  · subst hreturn; rfl
  · subst htab; rfl
  · subst hfeed; rfl
  · subst hback; rfl
  · rw [List.singleton_append, readChar]
    · rw [if_neg (by omega)]
    · exact hquote
    · exact hslash
  · have hread := readUnicode_small hsmall rest
    change (readUnicode ((unicode c.toNat).drop 2 ++ rest)).map _ = _
    rw [hread]
    rfl
  · have hread := readUnicode_pair hsmall rest
    rw [List.append_assoc]
    change (readUnicode ((unicode (55296 + (c.toNat - 65536) / 1024)).drop 2 ++ _)).map _ = _
    rw [hread]
    rfl

theorem readText_quote {s : List Char} {n : Nat} (hn : s.length < n) (rest : List Char) :
    readText n (s.flatMap escape ++ '"' :: rest) = some (s, rest) := by
  induction s generalizing n with
  | nil =>
      obtain ⟨m, rfl⟩ := Nat.exists_eq_add_of_lt hn
      rfl
  | cons c s ih =>
      cases n with
      | zero => exact absurd hn (Nat.not_lt_zero _)
      | succ n =>
          rw [List.flatMap_cons, List.append_assoc, readText, readChar_escape]
          dsimp only
          rw [ih (Nat.lt_of_succ_lt_succ hn)]
          rfl

theorem length_le_flatMap_escape (s : List Char) : s.length ≤ (s.flatMap escape).length := by
  induction s with
  | nil => exact Nat.le_refl 0
  | cons c s ih =>
      have hpos : 0 < (escape c).length := by
        unfold escape unicode
        split_ifs <;> simp
      rw [List.flatMap_cons, List.length_append, List.length_cons]
      omega

/-! ### Reading what was written -/

/-- What can follow a value: nothing a number goes on with. -/
def Follows (rest : List Char) : Prop := ∀ c cs, rest = c :: cs → isNumberChar c = false

theorem follows_cons {c : Char} {cs : List Char} (hc : isNumberChar c = false) :
    Follows (c :: cs) := by
  intro d ds h
  obtain ⟨rfl, rfl⟩ := List.cons.inj h
  exact hc

theorem span_number {text rest : List Char} (htext : text.all isNumberChar = true)
    (hrest : Follows rest) : (text ++ rest).takeWhile isNumberChar = text ∧
      (text ++ rest).dropWhile isNumberChar = rest := by
  have hall : ∀ c ∈ text, isNumberChar c = true := List.all_eq_true.mp htext
  rw [List.takeWhile_append_of_pos hall, List.dropWhile_append_of_pos hall]
  cases rest with
  | nil => simp
  | cons c cs =>
      have hc := hrest c cs rfl
      simp [hc]

theorem readAtom_number (n : Number) {rest : List Char} (hrest : Follows rest) :
    readAtom (n.text ++ rest) = some (.num n, rest) := by
  have hvalid := n.valid
  have hall : n.text.all isNumberChar = true := by
    unfold isNumber at hvalid
    exact (Bool.and_eq_true_iff.mp hvalid).1
  obtain ⟨htake, hdrop⟩ := span_number hall hrest
  unfold readAtom
  rw [dif_pos (by rw [htake]; exact hvalid)]
  simp only [htake, hdrop]

theorem readAtom_word (w : Word) (rest : List Char) :
    readAtom (w.text ++ rest) = some (.word w, rest) := by
  cases w <;> rfl

theorem skipSpace_cons {c : Char} (hc : isSpace c = false) (cs : List Char) :
    skipSpace (c :: cs) = c :: cs := by
  unfold skipSpace
  rw [List.dropWhile_cons_of_neg (by simp [hc])]

theorem readValue_atom {c : Char} {cs : List Char} (n : Nat) (hquote : c ≠ '"')
    (harr : c ≠ '[') (hobj : c ≠ '{') : readValue (n + 1) (c :: cs) = readAtom (c :: cs) := by
  rw [readValue]
  all_goals simp_all

/-- The characters a value can start with. -/
structure Starts (c : Char) : Prop where
  space : isSpace c = false
  close : c ≠ ']'

theorem starts_of_numberChar {c : Char} (h : isNumberChar c = true) :
    Starts c ∧ c ≠ '"' ∧ c ≠ '[' ∧ c ≠ '{' := by
  have hne : ∀ d, isNumberChar d = false → c ≠ d := by
    rintro d hd rfl
    exact absurd h (by simp [hd])
  refine ⟨⟨?_, hne _ (by decide)⟩, hne _ (by decide), hne _ (by decide), hne _ (by decide)⟩
  simp [isSpace, hne ' ' (by decide), hne '\t' (by decide), hne '\n' (by decide),
    hne '\r' (by decide)]

theorem number_head (n : Number) : ∃ c cs, n.text = c :: cs ∧ isNumberChar c = true := by
  have hvalid := n.valid
  cases htext : n.text with
  | nil =>
      rw [htext] at hvalid
      exact absurd hvalid (by decide)
  | cons c cs =>
      rw [htext] at hvalid
      unfold isNumber at hvalid
      have hall := (Bool.and_eq_true_iff.mp hvalid).1
      exact ⟨c, cs, rfl, List.all_eq_true.mp hall c List.mem_cons_self⟩

theorem dump_head (v : Value) : ∃ c cs, dump v = c :: cs ∧ Starts c := by
  cases v with
  | word w => cases w <;> exact ⟨_, _, rfl, by constructor <;> decide⟩
  | num n =>
      obtain ⟨c, cs, htext, hc⟩ := number_head n
      exact ⟨c, cs, htext, (starts_of_numberChar hc).1⟩
  | str s => exact ⟨_, _, rfl, by constructor <;> decide⟩
  | arr items => cases items <;> exact ⟨_, _, rfl, by constructor <;> decide⟩
  | obj fields => cases fields <;> exact ⟨_, _, rfl, by constructor <;> decide⟩

theorem skipSpace_dump (v : Value) (rest : List Char) :
    skipSpace (dump v ++ rest) = dump v ++ rest := by
  obtain ⟨c, cs, hdump, hc⟩ := dump_head v
  rw [hdump, List.cons_append, skipSpace_cons hc.space]

theorem dumpItems_head (items : Items) : ∃ c cs, dumpItems items = c :: cs ∧
    isSpace c = false ∧ isNumberChar c = false := by
  cases items <;> exact ⟨_, _, rfl, by decide, by decide⟩

theorem dumpFields_head (fields : Fields) : ∃ c cs, dumpFields fields = c :: cs ∧
    isSpace c = false ∧ isNumberChar c = false := by
  cases fields <;> exact ⟨_, _, rfl, by decide, by decide⟩

theorem readText_of_quote {key : List Char} {n : Nat} (hn : (quote key).length ≤ n + 1)
    (rest : List Char) : readText n ((quote key).tail ++ rest) = some (key, rest) := by
  have hlength := length_le_flatMap_escape key
  unfold quote at hn ⊢
  simp only [List.cons_append, List.length_cons, List.length_append, List.length_nil] at hn
  simp only [List.cons_append, List.tail_cons, List.append_assoc, List.nil_append]
  exact readText_quote (by omega) rest

theorem readValue_arr {c : Char} {xs cs : List Char} (n : Nat) (hxs : skipSpace xs = c :: cs)
    (hc : c ≠ ']') : readValue (n + 1) ('[' :: xs) = (do
      let (v, cs) ← readValue n (c :: cs)
      let (rest, cs) ← readItems n (skipSpace cs)
      some (.arr (.cons v rest), cs)) := by
  rw [readValue, hxs]
  split
  · rename_i h
    exact absurd (List.cons.inj h).1 hc
  · rfl

theorem readValue_obj {c : Char} {xs cs : List Char} (n : Nat) (hxs : skipSpace xs = c :: cs)
    (hc : c ≠ '}') : readValue (n + 1) ('{' :: xs) = (do
      let (fields, cs) ← readField n (c :: cs)
      some (.obj fields, cs)) := by
  rw [readValue, hxs]
  split
  · rename_i h
    exact absurd (List.cons.inj h).1 hc
  · rfl

mutual

/-- A written value is read back, by recursion on the value. -/
theorem readValue_dump (v : Value) {n : Nat} (hn : (dump v).length ≤ n) {rest : List Char}
    (hrest : Follows rest) : readValue n (dump v ++ rest) = some (v, rest) := by
  obtain ⟨n, rfl⟩ : ∃ m, n = m + 1 := by
    obtain ⟨c, cs, hdump, -⟩ := dump_head v
    rw [hdump, List.length_cons] at hn
    exact ⟨n - 1, by omega⟩
  cases v with
  | word w =>
      have hatom := readAtom_word w rest
      cases w <;> exact hatom
  | num num =>
      obtain ⟨c, cs, htext, hc⟩ := number_head num
      obtain ⟨-, hquote, harr, hobj⟩ := starts_of_numberChar hc
      rw [dump, htext, List.cons_append, readValue_atom n hquote harr hobj, ← List.cons_append,
        ← htext, readAtom_number num hrest]
  | str s =>
      have hread : readText (n + 1) ((quote s).tail ++ rest) = some (s, rest) :=
        readText_of_quote (by rw [dump] at hn; omega) rest
      change (readText (n + 1) ((quote s).tail ++ rest)).map _ = _
      rw [hread]
      rfl
  | arr items =>
      cases items with
      | nil => rfl
      | cons v items =>
          rw [dump, List.cons_append, List.length_cons, List.length_append] at hn
          obtain ⟨c, cs, hdump, hstarts⟩ := dump_head v
          obtain ⟨d, ds, hitems, hspace, hnum⟩ := dumpItems_head items
          have hskip : skipSpace (dump v ++ dumpItems items ++ rest) =
              c :: (cs ++ dumpItems items ++ rest) := by
            rw [hdump, List.cons_append, List.cons_append, skipSpace_cons hstarts.space]
          have hfollows : Follows (dumpItems items ++ rest) := by
            rw [hitems]
            exact follows_cons hnum
          rw [dump, List.cons_append, List.cons_append, readValue_arr n hskip hstarts.close,
            ← List.cons_append, ← List.cons_append, ← hdump, List.append_assoc,
            readValue_dump v (by omega) hfollows]
          simp only [Option.bind_eq_bind, Option.bind_some]
          rw [hitems, List.cons_append, skipSpace_cons hspace, ← List.cons_append, ← hitems,
            readItems_dump items (by omega)]
          rfl
  | obj fields =>
      cases hcase : fields with
      | nil => rfl
      | cons key v fields' =>
          have hfields : dumpFields fields = ',' :: (quote key ++ ':' :: dump v ++
              dumpFields fields') := by
            rw [hcase, dumpFields]
            rfl
          have htext : dump (.obj fields) = '{' :: (quote key ++ ':' :: dump v ++
              dumpFields fields') := by
            rw [hcase, dump]
            rfl
          have hquote : quote key = '"' :: (quote key).tail := rfl
          have hread : readField n ((quote key ++ ':' :: dump v ++ dumpFields fields') ++ rest) =
              some (fields, rest) := by
            apply readField_dump fields _ hfields rest
            rw [htext, List.length_cons] at hn
            rw [hfields, List.length_cons]
            exact hn
          rw [← hcase, htext, List.cons_append]
          rw [hquote, List.cons_append, List.cons_append, List.cons_append] at hread ⊢
          rw [readValue_obj n (skipSpace_cons (by decide) _) (by decide), hread]
          rfl

theorem readItems_dump (items : Items) {n : Nat} (hn : (dumpItems items).length ≤ n)
    (rest : List Char) : readItems n (dumpItems items ++ rest) = some (items, rest) := by
  obtain ⟨n, rfl⟩ : ∃ m, n = m + 1 := by
    obtain ⟨c, cs, hitems, -⟩ := dumpItems_head items
    rw [hitems, List.length_cons] at hn
    exact ⟨n - 1, by omega⟩
  cases items with
  | nil => rfl
  | cons v items =>
      rw [dumpItems, List.cons_append, List.length_cons, List.length_append] at hn
      obtain ⟨d, ds, hitems, hspace, hnum⟩ := dumpItems_head items
      have hfollows : Follows (dumpItems items ++ rest) := by
        rw [hitems]
        exact follows_cons hnum
      rw [dumpItems, List.cons_append, List.cons_append, readItems, List.append_assoc,
        skipSpace_dump, readValue_dump v (by omega) hfollows]
      simp only [Option.bind_eq_bind, Option.bind_some]
      rw [hitems, List.cons_append, skipSpace_cons hspace, ← List.cons_append, ← hitems,
        readItems_dump items (by omega)]
      rfl

theorem readField_dump (fields : Fields) {n : Nat} (hn : (dumpFields fields).length ≤ n + 1)
    {cs : List Char} (hcs : dumpFields fields = ',' :: cs) (rest : List Char) :
    readField n (cs ++ rest) = some (fields, rest) := by
  cases fields with
  | nil => exact absurd (List.cons.inj hcs).1 (by decide)
  | cons key v fields =>
      have hkey : dumpFields (.cons key v fields) = ',' :: (quote key ++ ':' :: dump v ++
          dumpFields fields) := by
        rw [dumpFields]
        rfl
      obtain rfl := (List.cons.inj (hcs.symm.trans hkey)).2
      rw [hkey] at hn
      simp only [List.length_cons, List.length_append, quote, List.length_nil] at hn
      obtain ⟨n, rfl⟩ : ∃ m, n = m + 1 := ⟨n - 1, by omega⟩
      have hquote : quote key = '"' :: (quote key).tail := rfl
      have htext : readText (n + 1) ((quote key).tail ++ (':' :: (dump v ++
          (dumpFields fields ++ rest)))) = some (key, ':' :: (dump v ++
            (dumpFields fields ++ rest))) := by
        apply readText_of_quote
        simp only [quote, List.length_cons, List.length_append, List.length_nil]
        omega
      obtain ⟨d, ds, hfields, hspace, hnum⟩ := dumpFields_head fields
      have hfollows : Follows (dumpFields fields ++ rest) := by
        rw [hfields]
        exact follows_cons hnum
      have hvalue : readValue n (skipSpace (dump v ++ (dumpFields fields ++ rest))) =
          some (v, dumpFields fields ++ rest) := by
        rw [skipSpace_dump]
        exact readValue_dump v (by omega) hfollows
      rw [hquote]
      simp only [List.cons_append, List.append_assoc]
      rw [readField, htext]
      simp only [skipSpace_cons (c := ':') (by decide), hvalue, Option.bind_eq_bind,
        Option.bind_some]
      rw [hfields, List.cons_append, skipSpace_cons hspace]
      cases fields with
      | nil =>
          obtain ⟨rfl, rfl⟩ := List.cons.inj hfields
          rfl
      | cons key' v' fields' =>
          have hnext : dumpFields (.cons key' v' fields') = ',' :: ds := by
            rw [hfields]
            rw [dumpFields] at hfields
            rw [← (List.cons.inj hfields).1]
          obtain ⟨rfl, -⟩ := List.cons.inj (hnext.symm.trans hfields)
          have hrest : readField n (ds ++ rest) = some (.cons key' v' fields', rest) := by
            apply readField_dump (.cons key' v' fields') _ hnext rest
            omega
          have hds : skipSpace (ds ++ rest) = ds ++ rest := by
            rw [dumpFields] at hfields
            rw [← (List.cons.inj hfields).2]
            exact skipSpace_cons (by decide) _
          simp only [hds, hrest, Option.bind_some]

end

/-! ### Reading on

What is read of a text is read of every longer text, unless a number ends it. -/

variable {p q r : List Char}

theorem skipSpace_append (h : skipSpace p ≠ []) : skipSpace (p ++ q) = skipSpace p ++ q := by
  unfold skipSpace at *
  induction p with
  | nil => exact absurd rfl h
  | cons c p ih =>
      rw [List.cons_append, List.dropWhile_cons, List.dropWhile_cons]
      rw [List.dropWhile_cons] at h
      split
      · rename_i hc
        rw [if_pos hc] at h
        exact ih h
      · rfl

theorem readHex_append {x : Nat} (h : readHex p = some (x, r)) :
    readHex (p ++ q) = some (x, r ++ q) := by
  match p, h with
  | a :: b :: c :: d :: cs, h =>
      simp only [readHex, List.cons_append] at h ⊢
      cases ha : hexValue a <;> cases hb : hexValue b <;> cases hc : hexValue c <;>
        cases hd : hexValue d <;> simp [ha, hb, hc, hd] at h ⊢
      exact ⟨h.1, by rw [h.2]⟩

theorem readUnicode_append {x : Char} (h : readUnicode p = some (x, r)) :
    readUnicode (p ++ q) = some (x, r ++ q) := by
  unfold readUnicode at *
  cases hhex : readHex p with
  | none =>
      rw [hhex] at h
      cases h
  | some first =>
      obtain ⟨n, cs⟩ := first
      rw [hhex] at h
      rw [readHex_append hhex]
      simp only [Option.bind_eq_bind, Option.bind_some] at h ⊢
      split at h
      · rename_i hhigh
        rw [if_pos hhigh]
        split at h
        · rename_i cs'
          cases hlow : readHex cs' with
          | none =>
              rw [hlow] at h
              cases h
          | some second =>
              obtain ⟨m, cs''⟩ := second
              rw [hlow] at h
              simp only [List.cons_append]
              rw [readHex_append hlow]
              simp only [Option.bind_some] at h ⊢
              split at h
              · rename_i hpair
                rw [if_pos hpair]
                obtain ⟨rfl, rfl⟩ := Prod.mk.inj (Option.some.inj h)
                rfl
              · cases h
        · cases h
      · rename_i hhigh
        rw [if_neg hhigh]
        split at h
        · cases h
        · rename_i hlow
          rw [if_neg hlow]
          obtain ⟨rfl, rfl⟩ := Prod.mk.inj (Option.some.inj h)
          rfl

theorem readEscape_append {x : Char} (h : readEscape p = some (x, r)) :
    readEscape (p ++ q) = some (x, r ++ q) := by
  unfold readEscape at h
  split at h
  case h_9 => exact readUnicode_append h
  case h_10 => cases h
  all_goals
    obtain ⟨rfl, rfl⟩ := Prod.mk.inj (Option.some.inj h)
    rfl

theorem readChar_append {x : Option Char} (h : readChar p = some (x, r)) :
    readChar (p ++ q) = some (x, r ++ q) := by
  unfold readChar at h
  split at h
  · cases h
  · obtain ⟨rfl, rfl⟩ := Prod.mk.inj (Option.some.inj h)
    rfl
  · rename_i cs
    obtain ⟨⟨c, cs'⟩, hesc, heq⟩ := Option.map_eq_some_iff.mp h
    obtain ⟨rfl, rfl⟩ := Prod.mk.inj heq
    change (readEscape (cs ++ q)).map _ = _
    rw [readEscape_append hesc]
    rfl
  · rename_i c cs hquote hslash
    rw [List.cons_append, readChar]
    · split at h
      · cases h
      · rename_i hlow
        rw [if_neg hlow]
        obtain ⟨rfl, rfl⟩ := Prod.mk.inj (Option.some.inj h)
        rfl
    · exact hquote
    · exact hslash

theorem readText_append {n m : Nat} (hnm : n ≤ m) {x : List Char}
    (h : readText n p = some (x, r)) : readText m (p ++ q) = some (x, r ++ q) := by
  induction n generalizing m p x with
  | zero => cases h
  | succ n ih =>
      obtain ⟨m, rfl⟩ : ∃ k, m = k + 1 := ⟨m - 1, by omega⟩
      rw [readText] at h ⊢
      cases hchar : readChar p with
      | none =>
          rw [hchar] at h
          cases h
      | some step =>
          obtain ⟨c, cs⟩ := step
          rw [hchar] at h
          rw [readChar_append hchar]
          cases c with
          | none =>
              obtain ⟨rfl, rfl⟩ := Prod.mk.inj (Option.some.inj h)
              rfl
          | some c =>
              obtain ⟨⟨y, r'⟩, hrest, heq⟩ := Option.map_eq_some_iff.mp h
              obtain ⟨rfl, rfl⟩ := Prod.mk.inj heq
              dsimp only
              rw [ih (by omega) hrest]
              rfl

theorem readWord_eq {w : Word} (h : readWord p = some (w, r)) : p = w.text ++ r := by
  unfold readWord at h
  split at h
  case h_7 => cases h
  all_goals
    obtain ⟨rfl, rfl⟩ := Prod.mk.inj (Option.some.inj h)
    rfl

/-- A value whose end shows where it stands. -/
def Value.closed : Value → Bool
  | .num _ => false
  | _ => true

theorem readAtom_append {v : Value} (h : readAtom p = some (v, r))
    (hend : r ≠ [] ∨ v.closed = true) : readAtom (p ++ q) = some (v, r ++ q) := by
  unfold readAtom at h
  split at h
  · rename_i hnum
    obtain ⟨rfl, rfl⟩ := Prod.mk.inj (Option.some.inj h)
    have hrest : p.dropWhile isNumberChar ≠ [] := hend.resolve_right (by simp [Value.closed])
    obtain ⟨c, cs, hdrop⟩ := List.exists_cons_of_ne_nil hrest
    have hc : isNumberChar c = false := by
      have hhead := List.head?_dropWhile_not isNumberChar p
      rw [hdrop] at hhead
      simpa using hhead
    have hsplit : p ++ q = p.takeWhile isNumberChar ++ (p.dropWhile isNumberChar ++ q) := by
      rw [← List.append_assoc, List.takeWhile_append_dropWhile]
    have hfollows : Follows (p.dropWhile isNumberChar ++ q) := by
      rw [hdrop, List.cons_append]
      exact follows_cons hc
    rw [hsplit]
    exact readAtom_number ⟨p.takeWhile isNumberChar, hnum⟩ hfollows
  · obtain ⟨⟨w, r'⟩, hword, heq⟩ := Option.map_eq_some_iff.mp h
    obtain ⟨rfl, rfl⟩ := Prod.mk.inj heq
    rw [readWord_eq hword, List.append_assoc]
    exact readAtom_word w _

/-- What every reader with this much fuel reads of a text, it reads of a longer one. -/
structure ReadsOn (n : Nat) : Prop where
  value : ∀ {m p q r v}, n ≤ m → readValue n p = some (v, r) → (r ≠ [] ∨ v.closed = true) →
    readValue m (p ++ q) = some (v, r ++ q)
  items : ∀ {m p q r items}, n ≤ m → readItems n p = some (items, r) →
    readItems m (p ++ q) = some (items, r ++ q)
  field : ∀ {m p q r fields}, n ≤ m → readField n p = some (fields, r) →
    readField m (p ++ q) = some (fields, r ++ q)

theorem readItems_ne_nil {n : Nat} {items : Items} (h : readItems n p = some (items, r)) :
    p ≠ [] := by
  rintro rfl
  cases n <;> cases h

theorem readValue_ne_nil {n : Nat} {v : Value} (h : readValue n p = some (v, r)) : p ≠ [] := by
  rintro rfl
  cases n with
  | zero => cases h
  | succ n => cases h

theorem readAtom_ne_nil {v : Value} (h : readAtom p = some (v, r)) : p ≠ [] := by
  rintro rfl
  cases h

theorem readField_ne_nil {n : Nat} {fields : Fields} (h : readField n p = some (fields, r)) :
    p ≠ [] := by
  rintro rfl
  cases n <;> cases h

theorem ne_nil_of_skipSpace (h : skipSpace p ≠ []) : p ≠ [] := by
  rintro rfl
  exact h rfl

theorem readsOn_items {n : Nat} (ih : ReadsOn n) {m : Nat} (hnm : n + 1 ≤ m) {items : Items}
    (h : readItems (n + 1) p = some (items, r)) : readItems m (p ++ q) = some (items, r ++ q) := by
  obtain ⟨m, rfl⟩ : ∃ k, m = k + 1 := ⟨m - 1, by omega⟩
  unfold readItems at h
  split at h
  · cases h
  · obtain ⟨rfl, rfl⟩ := Prod.mk.inj (Option.some.inj h)
    rfl
  · rename_i k cs hk
    obtain rfl := Nat.succ.inj hk
    obtain ⟨⟨v, r₁⟩, hv, h⟩ := Option.bind_eq_some_iff.mp h
    obtain ⟨⟨rest, r₂⟩, hitems, h⟩ := Option.bind_eq_some_iff.mp h
    obtain ⟨rfl, rfl⟩ := Prod.mk.inj (Option.some.inj h)
    have hr₁ := readItems_ne_nil hitems
    rw [List.cons_append, readItems, skipSpace_append (readValue_ne_nil hv),
      ih.value (by omega) hv (Or.inl (ne_nil_of_skipSpace hr₁))]
    simp only [Option.bind_eq_bind, Option.bind_some]
    rw [skipSpace_append hr₁, ih.items (by omega) hitems]
    rfl
  · cases h

theorem readsOn_field {n : Nat} (ih : ReadsOn n) {m : Nat} (hnm : n + 1 ≤ m) {fields : Fields}
    (h : readField (n + 1) p = some (fields, r)) :
    readField m (p ++ q) = some (fields, r ++ q) := by
  obtain ⟨m, rfl⟩ : ∃ k, m = k + 1 := ⟨m - 1, by omega⟩
  unfold readField at h
  split at h
  · cases h
  · rename_i k cs hk
    obtain rfl := Nat.succ.inj hk
    split at h
    · cases h
    · rename_i key cs' htext
      rw [List.cons_append, readField, readText_append hnm htext]
      split at h
      · rename_i cs'' hcolon
        have hcolon' : skipSpace (cs' ++ q) = ':' :: (cs'' ++ q) := by
          rw [skipSpace_append (by simp [hcolon]), hcolon]
          rfl
        obtain ⟨⟨v, r₁⟩, hv, h⟩ := Option.bind_eq_some_iff.mp h
        have hvalue : skipSpace r₁ ≠ [] → readValue m (skipSpace (cs'' ++ q)) =
            some (v, r₁ ++ q) := by
          intro hr₁
          rw [skipSpace_append (readValue_ne_nil hv)]
          exact ih.value (by omega) hv (Or.inl (ne_nil_of_skipSpace hr₁))
        dsimp only
        rw [hcolon']
        dsimp only at h ⊢
        split at h
        · rename_i cs₃ hclose
          obtain ⟨rfl, rfl⟩ := Prod.mk.inj (Option.some.inj h)
          simp only [hvalue (by simp [hclose]), Option.bind_eq_bind, Option.bind_some]
          rw [skipSpace_append (by simp [hclose]), hclose]
          rfl
        · rename_i cs₃ hcomma
          obtain ⟨⟨rest, r₂⟩, hfield, h⟩ := Option.bind_eq_some_iff.mp h
          obtain ⟨rfl, rfl⟩ := Prod.mk.inj (Option.some.inj h)
          simp only [hvalue (by simp [hcomma]), Option.bind_eq_bind, Option.bind_some]
          rw [skipSpace_append (by simp [hcomma]), hcomma]
          simp only [List.cons_append]
          rw [skipSpace_append (readField_ne_nil hfield), ih.field (by omega) hfield]
          rfl
        · cases h
      · cases h
  · cases h

theorem readsOn_value {n : Nat} (ih : ReadsOn n) {m : Nat} (hnm : n + 1 ≤ m) {v : Value}
    (h : readValue (n + 1) p = some (v, r)) (hend : r ≠ [] ∨ v.closed = true) :
    readValue m (p ++ q) = some (v, r ++ q) := by
  obtain ⟨m, rfl⟩ : ∃ k, m = k + 1 := ⟨m - 1, by omega⟩
  unfold readValue at h
  split at h
  · cases h
  · rename_i k cs hk
    obtain rfl := Nat.succ.inj hk
    obtain ⟨⟨s, r'⟩, htext, heq⟩ := Option.map_eq_some_iff.mp h
    obtain ⟨rfl, rfl⟩ := Prod.mk.inj heq
    rw [List.cons_append, readValue, readText_append hnm htext]
    rfl
  · rename_i k cs hk
    obtain rfl := Nat.succ.inj hk
    split at h
    · rename_i cs' hclose
      obtain ⟨rfl, rfl⟩ := Prod.mk.inj (Option.some.inj h)
      rw [List.cons_append, readValue, skipSpace_append (by simp [hclose]), hclose]
      rfl
    · rename_i hopen
      obtain ⟨⟨v, r₁⟩, hv, h⟩ := Option.bind_eq_some_iff.mp h
      obtain ⟨⟨rest, r₂⟩, hitems, h⟩ := Option.bind_eq_some_iff.mp h
      obtain ⟨rfl, rfl⟩ := Prod.mk.inj (Option.some.inj h)
      obtain ⟨c, cs', hcs⟩ := List.exists_cons_of_ne_nil (readValue_ne_nil hv)
      have hc : c ≠ ']' := by
        rintro rfl
        exact hopen cs' hcs
      have hr₁ := readItems_ne_nil hitems
      rw [List.cons_append, readValue_arr m (by rw [skipSpace_append (readValue_ne_nil hv), hcs,
        List.cons_append]) hc, ← List.cons_append, ← hcs,
        ih.value (by omega) hv (Or.inl (ne_nil_of_skipSpace hr₁))]
      simp only [Option.bind_eq_bind, Option.bind_some]
      rw [skipSpace_append hr₁, ih.items (by omega) hitems]
      rfl
  · rename_i k cs hk
    obtain rfl := Nat.succ.inj hk
    split at h
    · rename_i cs' hclose
      obtain ⟨rfl, rfl⟩ := Prod.mk.inj (Option.some.inj h)
      rw [List.cons_append, readValue, skipSpace_append (by simp [hclose]), hclose]
      rfl
    · rename_i hopen
      obtain ⟨⟨fields, r₁⟩, hfield, h⟩ := Option.bind_eq_some_iff.mp h
      obtain ⟨rfl, rfl⟩ := Prod.mk.inj (Option.some.inj h)
      obtain ⟨c, cs', hcs⟩ := List.exists_cons_of_ne_nil (readField_ne_nil hfield)
      have hc : c ≠ '}' := by
        rintro rfl
        exact hopen cs' hcs
      rw [List.cons_append, readValue_obj m (by rw [skipSpace_append (readField_ne_nil hfield),
        hcs, List.cons_append]) hc, ← List.cons_append, ← hcs, ih.field (by omega) hfield]
      rfl
  · rename_i cs k _ hquote harr hobj
    obtain ⟨c, cs', rfl⟩ := List.exists_cons_of_ne_nil (readAtom_ne_nil h)
    have hatom := readAtom_append (q := q) h hend
    rw [List.cons_append] at hatom ⊢
    rw [readValue_atom m, hatom]
    · rintro rfl
      exact hquote cs' rfl
    · rintro rfl
      exact harr cs' rfl
    · rintro rfl
      exact hobj cs' rfl

theorem readsOn (n : Nat) : ReadsOn n := by
  induction n with
  | zero =>
      refine ⟨?_, ?_, ?_⟩
      · intro m p q r v _ h
        cases h
      · intro m p q r items _ h
        cases h
      · intro m p q r fields _ h
        cases h
  | succ n ih =>
      refine ⟨?_, ?_, ?_⟩
      · intro m p q r v hnm h hend
        exact readsOn_value ih hnm h hend
      · intro m p q r items hnm h
        exact readsOn_items ih hnm h
      · intro m p q r fields hnm h
        exact readsOn_field ih hnm h

/-! ### Whole texts -/

theorem follows_nil : Follows [] := by
  intro c cs h
  cases h

/-- **A written value is loaded back.** -/
theorem loads_dump (v : Value) : loads (dump v) = some v := by
  have hskip : skipSpace (dump v) = dump v := by
    simpa using skipSpace_dump v []
  have hread : readValue ((dump v).length + 1) (dump v) = some (v, []) := by
    simpa using readValue_dump v (Nat.le_succ _) follows_nil
  unfold loads
  rw [hskip, hread]
  rfl

/-- So it is when a line's end follows it. -/
theorem loads_line (v : Value) : loads (dump v ++ ['\n']) = some v := by
  have hread : readValue ((dump v ++ ['\n']).length + 1) (dump v ++ ['\n']) =
      some (v, ['\n']) := by
    apply readValue_dump v
    · rw [List.length_append]
      omega
    · exact follows_cons (by decide)
  unfold loads
  rw [skipSpace_dump, hread]
  rfl

theorem obj_of_brace {n : Nat} {v : Value} (h : readValue n ('{' :: p) = some (v, r)) :
    v.closed = true := by
  cases n with
  | zero => cases h
  | succ n =>
      rw [readValue] at h
      split at h
      · obtain ⟨rfl, -⟩ := Prod.mk.inj (Option.some.inj h)
        rfl
      · obtain ⟨⟨fields, r₁⟩, -, h⟩ := Option.bind_eq_some_iff.mp h
        obtain ⟨rfl, -⟩ := Prod.mk.inj (Option.some.inj h)
        rfl

/-- **An object's text cut short is no text.** -/
theorem loads_of_torn {fields : Fields} (hq : q ≠ []) (htext : dump (.obj fields) = p ++ q) :
    loads p = none := by
  cases p with
  | nil => rfl
  | cons c p =>
      obtain rfl : c = '{' := by
        cases fields <;> exact (List.cons.inj htext).1.symm
      unfold loads
      rw [skipSpace_cons (by decide)]
      cases hread : readValue (('{' :: p).length + 1) ('{' :: p) with
      | none => rfl
      | some first =>
          obtain ⟨v, rest⟩ := first
          exfalso
          have hle : ('{' :: p).length + 1 ≤ (dump (.obj fields)).length + 1 := by
            rw [htext, List.length_append]
            omega
          have hlong := (readsOn _).value (q := q) hle hread (Or.inr (obj_of_brace hread))
          have hwhole : readValue ((dump (.obj fields)).length + 1) (dump (.obj fields)) =
              some (.obj fields, []) := by
            simpa using readValue_dump (.obj fields) (Nat.le_succ _) follows_nil
          rw [← htext, hwhole] at hlong
          have hend := (Prod.mk.inj (Option.some.inj hlong)).2
          exact hq (List.append_eq_nil_iff.mp hend.symm).2

/-! ### Integers -/

theorem toDigits_head {n : Nat} (hn : 0 < n) :
    ∃ c cs, Nat.toDigits 10 n = c :: cs ∧ c.isDigit = true ∧ c ≠ '0' := by
  induction n using Nat.strongRecOn with
  | ind n ih =>
      by_cases hlt : n < 10
      · refine ⟨n.digitChar, [], Nat.toDigits_of_lt_base hlt, ?_⟩
        have hdigits : ∀ m < 10, 0 < m → m.digitChar.isDigit = true ∧ m.digitChar ≠ '0' := by
          decide
        exact hdigits n hlt hn
      · obtain ⟨c, cs, hcs, hc⟩ := ih (n / 10) (by omega) (by omega)
        refine ⟨c, cs ++ [(n % 10).digitChar], ?_, hc⟩
        rw [Nat.toDigits_of_base_le (by decide) (by omega), hcs]
        rfl

theorem all_isDigit (n : Nat) : (Nat.toDigits 10 n).all Char.isDigit = true := by
  rw [List.all_eq_true]
  intro c hc
  exact Nat.isDigit_of_mem_toDigits (by decide) (by decide) hc

theorem naturalPart_toDigits (n : Nat) : naturalPart (Nat.toDigits 10 n) = some [] := by
  cases n with
  | zero => rfl
  | succ n =>
      obtain ⟨c, cs, hcs, hdigit, hzero⟩ := toDigits_head (Nat.succ_pos n)
      have hall := all_isDigit (n + 1)
      rw [Nat.succ_eq_add_one] at hcs
      rw [hcs] at hall ⊢
      have hdrop : cs.dropWhile Char.isDigit = [] := by
        rw [List.dropWhile_eq_nil_iff]
        rw [List.all_cons, Bool.and_eq_true, List.all_eq_true] at hall
        exact hall.2
      rw [naturalPart, digitsPart, if_pos hdigit, hdrop]
      intro cs' hcs'
      exact hzero (List.cons.inj hcs').1

theorem isNumber_repr (a : Int) : isNumber a.repr.toList = true := by
  have hdigits : ∀ n : Nat, (Nat.toDigits 10 n).all isNumberChar = true := by
    intro n
    rw [List.all_eq_true]
    intro c hc
    unfold isNumberChar
    rw [List.all_eq_true.mp (all_isDigit n) c hc]
    rfl
  unfold isNumber
  cases a with
  | ofNat n =>
      have hinteger : integerPart (Nat.toDigits 10 n) = some [] := by
        rw [← naturalPart_toDigits n]
        obtain ⟨c, cs, hcs⟩ := List.exists_cons_of_ne_nil (@Nat.toDigits_ne_nil n 10)
        have hc := List.all_eq_true.mp (all_isDigit n) c (by rw [hcs]; simp)
        rw [hcs, integerPart]
        intro cs' hcs'
        rw [(List.cons.inj hcs').1] at hc
        exact absurd hc (by decide)
      rw [Int.repr, Nat.toList_repr, hdigits, hinteger]
      rfl
  | negSucc n =>
      rw [Int.repr, String.toList_append, Nat.toList_repr]
      have hinteger : integerPart ("-".toList ++ Nat.toDigits 10 (n + 1)) = some [] :=
        naturalPart_toDigits (n + 1)
      rw [hinteger, List.all_append, hdigits]
      rfl

/-- An integer, as it is written. -/
def Number.ofInt (a : Int) : Number := ⟨a.repr.toList, isNumber_repr a⟩

/-! ### Characters -/

/-- Printable ASCII. -/
def isPrintable (c : Char) : Bool := 32 ≤ c.toNat && c.toNat < 127

theorem hexDigit_printable : ∀ d < 16, isPrintable (hexDigit d) = true := by decide

theorem unicode_printable {n : Nat} (hn : n < 65536) : (unicode n).all isPrintable = true := by
  unfold unicode
  simp only [List.all_cons, List.all_nil, Bool.and_true, Bool.and_eq_true]
  refine ⟨by decide, by decide, hexDigit_printable _ (by omega), hexDigit_printable _ (by omega),
    hexDigit_printable _ (by omega), hexDigit_printable _ (by omega)⟩

theorem escape_printable (c : Char) : (escape c).all isPrintable = true := by
  have hrange := toNat_range c
  unfold escape
  split_ifs with hquote hslash hline hreturn htab hfeed hback hplain hsmall
  · decide
  · decide
  · decide
  · decide
  · decide
  · decide
  · decide
  · simpa [isPrintable] using hplain
  · exact unicode_printable hsmall
  · rw [List.all_append, unicode_printable (by omega), unicode_printable (by omega)]
    rfl

theorem quote_printable (s : List Char) : (quote s).all isPrintable = true := by
  unfold quote
  simp only [List.cons_append, List.all_cons, List.all_append, List.all_nil, Bool.and_true,
    Bool.and_eq_true]
  refine ⟨by decide, ?_, by decide⟩
  rw [List.all_flatMap]
  simp [escape_printable]

theorem isPrintable_of_numberChar {c : Char} (h : isNumberChar c = true) :
    isPrintable c = true := by
  unfold isNumberChar at h
  simp only [Bool.or_eq_true, beq_iff_eq] at h
  rcases h with ((((hdigit | rfl) | rfl) | rfl) | rfl) | rfl
  · have hd : 48 ≤ c.toNat ∧ c.toNat ≤ 57 := Char.isDigit_iff_toNat.mp hdigit
    unfold isPrintable
    simp only [Bool.and_eq_true, decide_eq_true_eq]
    omega
  all_goals decide

mutual

theorem dump_printable (v : Value) : (dump v).all isPrintable = true := by
  cases v with
  | word w => cases w <;> decide
  | num n =>
      have hvalid := n.valid
      unfold isNumber at hvalid
      rw [Bool.and_eq_true_iff] at hvalid
      rw [dump, List.all_eq_true]
      intro c hc
      exact isPrintable_of_numberChar (List.all_eq_true.mp hvalid.1 c hc)
  | str s => exact quote_printable s
  | arr items =>
      cases items with
      | nil => decide
      | cons v rest =>
          rw [dump, List.cons_append, List.all_cons, List.all_append, dump_printable v,
            dumpItems_printable rest]
          decide
  | obj fields =>
      cases fields with
      | nil => decide
      | cons key v rest =>
          rw [dump, List.cons_append, List.cons_append, List.all_cons, List.all_append,
            List.all_append, List.all_cons, quote_printable, dump_printable v,
            dumpFields_printable rest]
          decide

theorem dumpItems_printable (items : Items) : (dumpItems items).all isPrintable = true := by
  cases items with
  | nil => decide
  | cons v rest =>
      rw [dumpItems, List.cons_append, List.all_cons, List.all_append, dump_printable v,
        dumpItems_printable rest]
      decide

theorem dumpFields_printable (fields : Fields) : (dumpFields fields).all isPrintable = true := by
  cases fields with
  | nil => decide
  | cons key v rest =>
      rw [dumpFields, List.cons_append, List.cons_append, List.all_cons, List.all_append,
        List.all_append, List.all_cons, quote_printable, dump_printable v,
        dumpFields_printable rest]
      decide

end

end JsonText
