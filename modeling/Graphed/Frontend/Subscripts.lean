import Graphed.Library.Attempts
import Graphed.Library.Integers

/-!
# Recorded subscripts

A tuple key is recorded as text, its members between commas and a slice's fields between colons. The
first member leaves the partitioned axis whole.
-/

namespace Graphed.Subscript

/-- A field of a slice; `other` is a bool, or no integer. -/
inductive SliceField where
  | none
  | int (value : Int)
  | other
deriving DecidableEq

/-- A member of a tuple key; `other` is a bool, an array, or anything else. -/
inductive Member where
  | slice (start stop step : SliceField)
  | int (value : Int)
  | none
  | ellipsis
  | other
deriving DecidableEq

inductive Refusal where
  | axis0 (first : Option Member)
  | sliceField
  | secondEllipsis (key : List Member)
  | unsupported (member : Member)
deriving DecidableEq

/-! ### Writing -/

/-- `_is_full_slice`. -/
def isFullSlice (member : Member) : Bool := member == .slice .none .none .none

def fieldText : SliceField → Except Refusal (List Char)
  | .none => .ok []
  | .int value => .ok value.repr.toList
  | .other => .error .sliceField

/-- The text of one member, by the texts before it. -/
def memberText (key : List Member) (parts : List (List Char)) : Member → Except Refusal (List Char)
  | .slice start stop step => do
      let bits ← [start, stop, step].mapM fieldText
      .ok ([':'].intercalate bits)
  | .none => .ok ['N']
  | .ellipsis => if parts.contains ['.', '.', '.'] then .error (.secondEllipsis key) else
      .ok ['.', '.', '.']
  | .int value => .ok value.repr.toList
  | .other => .error (.unsupported .other)

/-- The members after these. -/
def encodeFrom (key : List Member) : List (List Char) → List Member →
    Except Refusal (List (List Char))
  | parts, [] => .ok parts
  | parts, member :: rest => do
      let text ← memberText key parts member
      encodeFrom key (parts ++ [text]) rest

/-- `encode_subscript`. -/
def encodeSubscript (key : List Member) : Except Refusal (List Char) :=
  match key with
  | [] => .error (.axis0 none)
  | first :: _ =>
      if isFullSlice first || first == .ellipsis then do
        let parts ← encodeFrom key [] key
        .ok ([','].intercalate parts)
      else .error (.axis0 (some first))

/-! ### Reading -/

def readField (bit : List Char) : Option SliceField :=
  if bit = [] then some .none else (Integers.readInt bit).map .int

/-- `slice(*fields)`. -/
def sliceOf : List SliceField → Option Member
  | [stop] => some (.slice .none stop .none)
  | [start, stop] => some (.slice start stop .none)
  | [start, stop, step] => some (.slice start stop step)
  | _ => none

def decodePart (part : List Char) : Option Member :=
  if part = ['N'] then some .none
  else if part = ['.', '.', '.'] then some .ellipsis
  else if part.contains ':' then (part.splitOn ':').mapM readField >>= sliceOf
  else (Integers.readInt part).map .int

/-- `decode_subscript`. -/
def decodeSubscript (spec : List Char) : Option (List Member) :=
  (spec.splitOn ',').mapM decodePart

/-! ### Reading what is written -/

theorem readField_fieldText {field : SliceField} {bit : List Char} (h : fieldText field = .ok bit) :
    readField bit = some field ∧ ':' ∉ bit ∧ ',' ∉ bit := by
  cases field with
  | none =>
      obtain rfl := Except.ok.inj h
      exact ⟨rfl, List.not_mem_nil, List.not_mem_nil⟩
  | int value =>
      obtain rfl := Except.ok.inj h
      refine ⟨?_, Integers.notMem_repr value (by decide) (by decide),
        Integers.notMem_repr value (by decide) (by decide)⟩
      unfold readField
      rw [if_neg (Integers.repr_ne_nil value), Integers.readInt_repr]
      rfl
  | other => cases h

/-- What the text of a member has to say. -/
structure Spells (part : List Char) (member : Member) : Prop where
  decode : decodePart part = some member
  comma : ',' ∉ part
  ellipsis : part = ['.', '.', '.'] → member = .ellipsis

theorem spells_int (value : Int) : Spells value.repr.toList (.int value) := by
  have hne : ∀ {part : List Char} {c : Char}, c ∈ part → c ≠ '-' → c.isDigit = false →
      value.repr.toList ≠ part := by
    rintro part c hc hminus hdigit rfl
    exact Integers.notMem_repr value hminus hdigit hc
  have hdots : value.repr.toList ≠ ['.', '.', '.'] :=
    hne List.mem_cons_self (by decide) (by decide)
  refine ⟨?_, Integers.notMem_repr value (by decide) (by decide), fun h => absurd h hdots⟩
  have hcolon : (value.repr.toList).contains ':' = false := by
    rw [List.contains_eq_mem]
    exact decide_eq_false (Integers.notMem_repr value (by decide) (by decide))
  unfold decodePart
  rw [if_neg (hne (List.mem_singleton_self 'N') (by decide) (by decide)), if_neg hdots, hcolon,
    if_neg Bool.false_ne_true, Integers.readInt_repr]
  rfl

theorem spells_slice {start stop step : SliceField} {bits : List (List Char)}
    (h : [start, stop, step].mapM fieldText = .ok bits) :
    Spells ([':'].intercalate bits) (.slice start stop step) := by
  obtain ⟨a, as, ha, htail, rfl⟩ := Attempts.mapM_cons_eq_ok_iff.mp h
  obtain ⟨b, bs, hb, hlast, rfl⟩ := Attempts.mapM_cons_eq_ok_iff.mp htail
  obtain ⟨c, cs, hc, hnil, rfl⟩ := Attempts.mapM_cons_eq_ok_iff.mp hlast
  obtain rfl : cs = [] := (Except.ok.inj hnil).symm
  obtain ⟨hreada, hacolon, hacomma⟩ := readField_fieldText ha
  obtain ⟨hreadb, hbcolon, hbcomma⟩ := readField_fieldText hb
  obtain ⟨hreadc, hccolon, hccomma⟩ := readField_fieldText hc
  have hjoin : [':'].intercalate [a, b, c] = a ++ ':' :: (b ++ ':' :: c) := by
    simp [List.intercalate_cons_cons, List.intercalate_singleton]
  have hsplit : ([':'].intercalate [a, b, c]).splitOn ':' = [a, b, c] := by
    refine List.splitOn_intercalate ':' (fun l hl => ?_) (List.cons_ne_nil _ _)
    obtain rfl | hl := List.mem_cons.mp hl
    · exact hacolon
    · obtain rfl | hl := List.mem_cons.mp hl
      · exact hbcolon
      · rwa [List.mem_singleton.mp hl]
  have hmem : ':' ∈ [':'].intercalate [a, b, c] := by
    rw [hjoin]
    exact List.mem_append_right a List.mem_cons_self
  have hne : ∀ {part : List Char}, ':' ∉ part → [':'].intercalate [a, b, c] ≠ part := by
    rintro part hpart rfl
    exact hpart hmem
  refine ⟨?_, ?_, fun hdots => absurd hdots (hne (by decide))⟩
  · unfold decodePart
    rw [if_neg (hne (by decide)), if_neg (hne (by decide)), List.contains_eq_mem,
      if_pos (decide_eq_true hmem), hsplit]
    simp only [List.mapM_cons, List.mapM_nil, hreada, hreadb, hreadc, Option.bind_eq_bind,
      Option.bind_some, pure, sliceOf]
  · rw [hjoin]
    simp [hacomma, hbcomma, hccomma]

theorem spells_of_memberText {key : List Member} {parts : List (List Char)} {member : Member}
    {text : List Char} (h : memberText key parts member = .ok text) : Spells text member := by
  cases member with
  | slice start stop step =>
      obtain ⟨bits, hbits, htext⟩ := Attempts.bind_eq_ok_iff.mp h
      obtain rfl := Except.ok.inj htext
      exact spells_slice hbits
  | int value =>
      obtain rfl := Except.ok.inj h
      exact spells_int value
  | none =>
      obtain rfl := Except.ok.inj h
      exact ⟨rfl, by decide, by decide⟩
  | ellipsis =>
      change (if parts.contains ['.', '.', '.'] = true then Except.error _ else _) = _ at h
      split at h
      · cases h
      · obtain rfl := Except.ok.inj h
        exact ⟨rfl, by decide, fun _ => rfl⟩
  | other => cases h

/-- The texts spell the members, one by one. -/
theorem encodeFrom_spells {key rest : List Member} {parts texts : List (List Char)}
    (h : encodeFrom key parts rest = .ok texts) :
    ∃ added, texts = parts ++ added ∧ List.Forall₂ Spells added rest := by
  induction rest generalizing parts with
  | nil =>
      obtain rfl := Except.ok.inj h
      exact ⟨[], (List.append_nil parts).symm, .nil⟩
  | cons member rest ih =>
      obtain ⟨text, htext, hrest⟩ := Attempts.bind_eq_ok_iff.mp h
      obtain ⟨added, rfl, hadded⟩ := ih hrest
      refine ⟨text :: added, ?_, .cons (spells_of_memberText htext) hadded⟩
      rw [List.append_assoc, List.singleton_append]

theorem decode_spelled {parts : List (List Char)} {key : List Member}
    (h : List.Forall₂ Spells parts key) (hne : key ≠ []) :
    decodeSubscript ([','].intercalate parts) = some key := by
  have hcomma : ∀ part ∈ parts, ',' ∉ part := by
    induction h with
    | nil => exact fun part hpart => absurd hpart List.not_mem_nil
    | @cons part member parts key hspells hrest ih =>
        intro p hp
        obtain rfl | hp := List.mem_cons.mp hp
        · exact hspells.comma
        · cases key with
          | nil =>
              cases hrest
              exact absurd hp List.not_mem_nil
          | cons m ms => exact ih (List.cons_ne_nil _ _) p hp
  have hparts : parts ≠ [] := by
    rintro rfl
    cases h
    exact hne rfl
  unfold decodeSubscript
  rw [List.splitOn_intercalate ',' hcomma hparts]
  clear hcomma hparts hne
  induction h with
  | nil => rfl
  | cons hspells _ ih =>
      rw [List.mapM_cons, hspells.decode, ih]
      rfl

/-- **A recorded subscript decodes to its key.** -/
theorem decodeSubscript_encodeSubscript {key : List Member} {spec : List Char}
    (h : encodeSubscript key = .ok spec) : decodeSubscript spec = some key := by
  cases key with
  | nil => cases h
  | cons first rest =>
      unfold encodeSubscript at h
      dsimp only at h
      split at h
      · obtain ⟨parts, hparts, hspec⟩ := Attempts.bind_eq_ok_iff.mp h
        obtain rfl := Except.ok.inj hspec
        obtain ⟨added, rfl, hspells⟩ := encodeFrom_spells hparts
        exact decode_spelled hspells (List.cons_ne_nil _ _)
      · cases h

end Graphed.Subscript
