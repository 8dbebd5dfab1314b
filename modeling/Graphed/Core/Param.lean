import Graphed.Library.Text
import Mathlib.Data.List.Sort

/-!
# Parameter values

A parameter map is kept sorted by key, and a float compares by a canonical bit key: every NaN is one
value, while the two zeros stay distinct. Equality of parameters is therefore coarser than equality
of the stored bits, and `canon` names the representative the two share.
-/

namespace Graphed

/-- Canonical quiet-NaN bit pattern. -/
def canonNan : UInt64 := 0x7ff8000000000000

/-- An `f64` bit pattern is a NaN: exponent all ones, mantissa nonzero. -/
def isNan (bits : UInt64) : Bool :=
  bits &&& 0x7ff0000000000000 == 0x7ff0000000000000 && bits &&& 0x000fffffffffffff != 0

/-- A parameter value; a float is its `f64` bit pattern. -/
inductive ParamValue where
  | int (a : Int64)
  | float (bits : UInt64)
  | bool (a : Bool)
  | str (a : String)

namespace ParamValue

/-- Canonical bits used for equality, hashing and tokens. -/
def floatKey (bits : UInt64) : UInt64 := if isNan bits then canonNan else bits

/-- Equality of parameter values, floats by canonical bits. -/
def eq : ParamValue → ParamValue → Bool
  | int a, int b => a == b
  | float a, float b => floatKey a == floatKey b
  | bool a, bool b => a == b
  | str a, str b => a == b
  | _, _ => false

instance : BEq ParamValue := ⟨eq⟩

end ParamValue

/-- Escape the separator characters, `%` first. -/
def escapeToken (s : String) : String :=
  String.ofList (Text.replaceChar '|' "%7C".toList (Text.replaceChar '=' "%3D".toList
    (Text.replaceChar ';' "%3B".toList (Text.replaceChar '%' "%25".toList s.toList))))

/-- Type-tagged token of a value. -/
def ParamValue.token : ParamValue → String
  | int a => "i" ++ a.toInt.repr
  | float bits => "f" ++ String.ofList (Text.hexDigits 16 (floatKey bits).toNat)
  | bool a => "b" ++ (if a then "true" else "false")
  | str a => "s" ++ escapeToken a

/-- Entries with keys in a total order. -/
structure ParamMap where
  entries : List (String × ParamValue)
  sorted : entries.Pairwise fun a b => a.1 ≤ b.1

namespace ParamMap

/-- The key order parameter entries are sorted by. -/
def keyLE (a b : String × ParamValue) : Prop := a.1 ≤ b.1

instance : DecidableRel keyLE := fun a b => inferInstanceAs (Decidable (a.1 ≤ b.1))
instance : Std.Total keyLE := ⟨fun a b => le_total a.1 b.1⟩
instance : IsTrans (String × ParamValue) keyLE := ⟨fun _ _ _ => le_trans⟩

/-- Sort the entries by key; entries of one key keep their order. -/
def new (entries : List (String × ParamValue)) : ParamMap :=
  ⟨entries.insertionSort keyLE, List.pairwise_insertionSort keyLE entries⟩

instance : BEq ParamMap := ⟨fun a b => a.entries == b.entries⟩

def isEmpty (p : ParamMap) : Bool := p.entries.isEmpty

/-- The separator-escaped encoding used in operator tokens. -/
def token (p : ParamMap) : String :=
  ";".intercalate (p.entries.map fun e => escapeToken e.1 ++ "=" ++ e.2.token)

@[ext]
theorem ext {p q : ParamMap} (h : p.entries = q.entries) : p = q := by
  cases p; cases q; simpa using h

/-- A sorted list of entries is stored as it is. -/
theorem new_entries (p : ParamMap) : new p.entries = p := by
  ext1
  exact List.Pairwise.insertionSort_eq (r := keyLE) p.sorted

end ParamMap

/-! ### The representative of an equality class -/

/-- The value with a NaN replaced by the canonical one. -/
def ParamValue.canon : ParamValue → ParamValue
  | float bits => .float (floatKey bits)
  | v => v

namespace ParamValue

theorem isNan_canonNan : isNan canonNan = true := by decide

@[simp]
theorem floatKey_floatKey (bits : UInt64) : floatKey (floatKey bits) = floatKey bits := by
  unfold floatKey
  split
  · rw [if_pos isNan_canonNan]
  · rfl

/-- Values are equal when their representatives are the same. -/
@[simp]
theorem beq_iff {a b : ParamValue} : (a == b) = true ↔ a.canon = b.canon := by
  cases a <;> cases b <;> simp [BEq.beq, eq, canon]

@[simp]
theorem canon_canon (a : ParamValue) : a.canon.canon = a.canon := by
  cases a <;> simp [canon]

@[simp]
theorem token_canon (a : ParamValue) : a.canon.token = a.token := by
  cases a <;> simp [canon, token]

end ParamValue

namespace ParamMap

/-- The entries with every NaN replaced by the canonical one. -/
def canon (p : ParamMap) : ParamMap :=
  ⟨p.entries.map fun e => (e.1, e.2.canon), by
    rw [List.pairwise_map]
    exact p.sorted⟩

@[simp]
theorem beq_iff {p q : ParamMap} : (p == q) = true ↔ p.canon = q.canon := by
  have hlist : ∀ xs ys : List (String × ParamValue), (xs == ys) = true ↔
      xs.map (fun e => (e.1, e.2.canon)) = ys.map (fun e => (e.1, e.2.canon)) := by
    intro xs
    induction xs with
    | nil => intro ys; cases ys <;> simp
    | cons x xs ih =>
        intro ys
        cases ys with
        | nil => simp
        | cons y ys =>
            obtain ⟨kx, vx⟩ := x
            obtain ⟨ky, vy⟩ := y
            have hpair : ((kx, vx) == (ky, vy)) = (kx == ky && vx == vy) := rfl
            simp [ih, hpair]
  rw [show (p == q) = (p.entries == q.entries) from rfl, hlist, canon, canon]
  simp

@[simp]
theorem canon_canon (p : ParamMap) : p.canon.canon = p.canon := by
  ext1
  simp [canon, Function.comp_def]

@[simp]
theorem token_canon (p : ParamMap) : p.canon.token = p.token := by
  simp [canon, token, Function.comp_def]

@[simp]
theorem isEmpty_canon (p : ParamMap) : p.canon.isEmpty = p.isEmpty := by
  simp [canon, isEmpty]

end ParamMap

end Graphed
