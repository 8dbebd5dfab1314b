import Graphed.Library.Bytes

/-!
# Readers and writers of byte strings

A reader consumes a prefix of its input and a writer appends to its output; both stop at the first
fault. `Reads` says exactly which prefixes a reader accepts, as the spellings of some values;
`Writes` says what a writer appends and which of its length fields can make it fail. `PrefixFree`
spellings can be told apart inside any longer input.
-/

namespace Codec

open Bytes

variable {ε α β γ δ σ : Type}

/-! ### Readers -/

/-- A reader of the bytes left. -/
abbrev ByteReader (ε α : Type) := StateT (List UInt8) (Except ε) α

theorem bind_eq_ok {r : ByteReader ε α} {f : α → ByteReader ε β} {s rest : List UInt8} {b : β} :
    (r >>= f) s = .ok (b, rest) ↔ ∃ a mid, r s = .ok (a, mid) ∧ f a mid = .ok (b, rest) := by
  change (r s >>= fun p => f p.1 p.2) = _ ↔ _
  cases hr : r s with
  | error e => simp [bind, Except.bind]
  | ok p => simp [bind, Except.bind, Prod.ext_iff]

theorem pure_eq_ok {a b : α} {s rest : List UInt8} :
    (pure a : ByteReader ε α) s = .ok (b, rest) ↔ a = b ∧ s = rest := by
  change (.ok (a, s) : Except ε (α × List UInt8)) = _ ↔ _
  simp [Prod.ext_iff]

theorem throw_ne_ok {e : ε} {b : α} {s rest : List UInt8} :
    (throw e : ByteReader ε α) s ≠ .ok (b, rest) := by
  change (.error e : Except ε (α × List UInt8)) ≠ _
  simp

/-- The next `n` bytes. -/
def take (short : ε) (n : Nat) : ByteReader ε (List UInt8) := fun s =>
  if n ≤ s.length then .ok (s.take n, s.drop n) else .error short

theorem take_eq_ok {short : ε} {n : Nat} {s bs rest : List UInt8} :
    take short n s = .ok (bs, rest) ↔ bs.length = n ∧ s = bs ++ rest := by
  unfold take
  constructor
  · intro h
    split_ifs at h with hn
    simp only [Except.ok.injEq, Prod.mk.injEq] at h
    obtain ⟨rfl, rfl⟩ := h
    exact ⟨List.length_take_of_le hn, (List.take_append_drop n s).symm⟩
  · rintro ⟨rfl, rfl⟩
    rw [if_pos (by simp), List.take_left, List.drop_left]

/-- A little-endian number of `k` bytes. -/
def number (short : ε) (k : Nat) : ByteReader ε Nat := do return ofLeBytes (← take short k)

theorem number_eq_ok {short : ε} {k n : Nat} {s rest : List UInt8} :
    number short k s = .ok (n, rest) ↔ n < 256 ^ k ∧ s = leBytes k n ++ rest := by
  simp only [number, bind_eq_ok, take_eq_ok, pure_eq_ok]
  constructor
  · rintro ⟨bs, mid, ⟨rfl, rfl⟩, rfl, rfl⟩
    exact ⟨ofLeBytes_lt bs, by rw [leBytes_ofLeBytes]⟩
  · rintro ⟨hn, rfl⟩
    exact ⟨leBytes k n, rest, ⟨length_leBytes k n, rfl⟩, ofLeBytes_leBytes hn, rfl⟩

/-- One byte. -/
def byte (short : ε) : ByteReader ε UInt8 := fun s =>
  match s with
  | [] => .error short
  | b :: rest => .ok (b, rest)

theorem byte_eq_ok {short : ε} {b : UInt8} {s rest : List UInt8} :
    byte short s = .ok (b, rest) ↔ s = b :: rest := by
  cases s <;> simp [byte, Prod.ext_iff]

/-- `r` accepts exactly the spellings `enc` of the values `P`, and gives `val` of the value. -/
def Reads (r : ByteReader ε α) (P : β → Prop) (val : β → α) (enc : β → List UInt8) : Prop :=
  ∀ (s : List UInt8) (a : α) (rest : List UInt8),
    r s = .ok (a, rest) ↔ ∃ w, P w ∧ val w = a ∧ s = enc w ++ rest

/-- Read `n` items numbered from `i`, and take a step with each. -/
def forEach (item : Nat → ByteReader ε α) (step : σ → α → Except ε σ) : Nat → Nat → σ → ByteReader ε σ
  | 0, _, acc => pure acc
  | n + 1, i, acc => do
      let a ← item i
      match step acc a with
      | .ok acc => forEach item step n (i + 1) acc
      | .error e => throw e

theorem forEach_eq_ok {item : Nat → ByteReader ε α} {step : σ → α → Except ε σ} {P : Nat → β → Prop}
    {val : β → α} {enc : β → List UInt8} (hitem : ∀ i, Reads (item i) (P i) val enc) {n i : Nat}
    {acc t : σ} {s rest : List UInt8} : forEach item step n i acc s = .ok (t, rest) ↔
      ∃ ws : List β, ws.length = n ∧ (∀ (k : Nat) (w : β), ws[k]? = some w → P (i + k) w) ∧
        (ws.map val).foldlM step acc = .ok t ∧ s = ws.flatMap enc ++ rest := by
  induction n generalizing i acc s with
  | zero =>
      rw [forEach, pure_eq_ok]
      constructor
      · rintro ⟨rfl, rfl⟩
        exact ⟨[], by simp [pure, Except.pure]⟩
      · rintro ⟨ws, hlen, -, hfold, rfl⟩
        obtain rfl := List.length_eq_zero_iff.mp hlen
        simpa [pure, Except.pure] using hfold
  | succ n ih =>
      rw [forEach, bind_eq_ok]
      constructor
      · rintro ⟨a, mid, ha, hrest⟩
        obtain ⟨w, hw, rfl, rfl⟩ := (hitem i _ _ _).mp ha
        cases hstep : step acc (val w) with
        | error e =>
            rw [hstep] at hrest
            exact absurd hrest throw_ne_ok
        | ok acc' =>
            rw [hstep] at hrest
            obtain ⟨ws, rfl, hws, hfold, rfl⟩ := ih.mp hrest
            refine ⟨w :: ws, rfl, fun k w' hk => ?_, ?_, by simp⟩
            · cases k with
              | zero =>
                  obtain rfl : w = w' := by simpa using hk
                  exact hw
              | succ k =>
                  have hP := hws k w' (by simpa using hk)
                  rwa [Nat.add_assoc, Nat.add_comm 1] at hP
            · rw [List.map_cons, List.foldlM_cons, hstep]
              exact hfold
      · rintro ⟨ws, hlen, hws, hfold, rfl⟩
        obtain ⟨w, ws, rfl⟩ := List.exists_cons_of_length_eq_add_one hlen
        refine ⟨val w, ws.flatMap enc ++ rest,
          (hitem i _ _ _).mpr ⟨w, by simpa using hws 0 w rfl, rfl, by simp⟩, ?_⟩
        rw [List.map_cons, List.foldlM_cons] at hfold
        cases hstep : step acc (val w) with
        | error e =>
            rw [hstep] at hfold
            exact absurd hfold (by simp [bind, Except.bind])
        | ok acc' =>
            rw [hstep] at hfold
            refine ih.mpr ⟨ws, by simpa using hlen, fun k w' hk => ?_, hfold, rfl⟩
            have hP := hws (k + 1) w' (by simpa using hk)
            rwa [Nat.add_comm k, ← Nat.add_assoc] at hP

/-- Read `n` items into a list. -/
def collect (n : Nat) (item : Nat → ByteReader ε α) : ByteReader ε (List α) :=
  forEach item (fun xs x => .ok (xs ++ [x])) n 0 []

theorem collect_eq_ok {item : Nat → ByteReader ε α} {P : Nat → β → Prop} {val : β → α}
    {enc : β → List UInt8} (hitem : ∀ i, Reads (item i) (P i) val enc) {n : Nat} {xs : List α}
    {s rest : List UInt8} : collect n item s = .ok (xs, rest) ↔
      ∃ ws : List β, ws.length = n ∧ (∀ (k : Nat) (w : β), ws[k]? = some w → P k w) ∧
        ws.map val = xs ∧ s = ws.flatMap enc ++ rest := by
  have hpush : ∀ acc ys : List α, ys.foldlM (fun xs x => (.ok (xs ++ [x]) : Except ε (List α)))
      acc = .ok (acc ++ ys) := by
    intro acc ys
    induction ys generalizing acc with
    | nil => simp [pure, Except.pure]
    | cons y ys ih =>
        rw [List.foldlM_cons]
        exact (ih (acc ++ [y])).trans (by simp)
  rw [collect, forEach_eq_ok hitem]
  simp only [hpush, List.nil_append, Except.ok.injEq, Nat.zero_add]

/-! ### Writers -/

/-- A writer, which appends to its output. -/
abbrev ByteWriter (ε : Type) := StateT (List UInt8) (Except ε)

/-- Append bytes. -/
def append (bs : List UInt8) : ByteWriter ε Unit := fun out => .ok ((), out ++ bs)

/-- `w` appends `bytes`, unless one of its length fields reaches the limit: then it fails with the
first that does. -/
def Writes (limit : Nat) (fault : Nat → ε) (w : ByteWriter ε Unit) (fields : List Nat)
    (bytes : List UInt8) : Prop :=
  ∀ out, w out = match fields.find? fun n => decide (limit ≤ n) with
    | some n => .error (fault n)
    | none => .ok ((), out ++ bytes)

section Writes

variable {limit : Nat} {fault : Nat → ε} {w w' : ByteWriter ε Unit} {fields fields' : List Nat}
  {bytes bytes' : List UInt8}

theorem writes_append (bs : List UInt8) : Writes limit fault (append bs) [] bs := fun _ => rfl

theorem writes_pure : Writes limit fault (pure ()) [] [] := by
  intro out
  change (.ok ((), out) : Except ε (Unit × List UInt8)) = .ok ((), out ++ [])
  rw [List.append_nil]

/-- One write after another. -/
theorem Writes.bind (h : Writes limit fault w fields bytes)
    (h' : Writes limit fault w' fields' bytes') :
    Writes limit fault (w >>= fun _ => w') (fields ++ fields') (bytes ++ bytes') := by
  intro out
  change (w out >>= fun p => w' p.2) = _
  rw [h out, List.find?_append]
  cases hfind : fields.find? fun n => decide (limit ≤ n) with
  | some n => rfl
  | none =>
      change w' (out ++ bytes) = _
      rw [h', Option.none_or]
      simp only [List.append_assoc]

/-- One write for each element. -/
theorem Writes.forM {put : α → ByteWriter ε Unit} {fieldsOf : α → List Nat} {bytesOf : α → List UInt8}
    (hput : ∀ a, Writes limit fault (put a) (fieldsOf a) (bytesOf a)) (xs : List α) :
    Writes limit fault (forM xs put) (xs.flatMap fieldsOf) (xs.flatMap bytesOf) := by
  induction xs with
  | nil => exact writes_pure
  | cons x xs ih =>
      rw [List.forM_cons, List.flatMap_cons, List.flatMap_cons]
      exact (hput x).bind ih

theorem Writes.eq_ok_iff (h : Writes limit fault w fields bytes) {out out' : List UInt8} :
    w out = .ok ((), out') ↔ (∀ n ∈ fields, n < limit) ∧ out' = out ++ bytes := by
  rw [h out]
  cases hfind : fields.find? fun n => decide (limit ≤ n) with
  | some n =>
      have hn : limit ≤ n := by simpa using List.find?_some hfind
      simp only [reduceCtorEq, false_iff, not_and]
      intro hall
      exact absurd (hall n (List.mem_of_find?_eq_some hfind)) (Nat.not_lt.mpr hn)
  | none =>
      have hall : ∀ n ∈ fields, n < limit := by simpa using hfind
      simp only [Except.ok.injEq, Prod.mk.injEq, true_and]
      exact ⟨fun h => ⟨hall, h.symm⟩, fun h => h.2.symm⟩

theorem Writes.eq_error (h : Writes limit fault w fields bytes) {out : List UInt8} {e : ε}
    (hw : w out = .error e) : ∃ n ∈ fields, limit ≤ n ∧ e = fault n := by
  rw [h out] at hw
  cases hfind : fields.find? fun n => decide (limit ≤ n) with
  | none => simp [hfind] at hw
  | some n =>
      rw [hfind] at hw
      exact ⟨n, List.mem_of_find?_eq_some hfind, by simpa using List.find?_some hfind,
        (Except.error.inj hw).symm⟩

end Writes

/-! ### Spellings that can be told apart -/

/-- No spelling of a value in `P` is a proper prefix of another. -/
def PrefixFree (P : α → Prop) (enc : α → List UInt8) : Prop :=
  ∀ (a b : α) (r r' : List UInt8), P a → P b → enc a ++ r = enc b ++ r' → a = b ∧ r = r'

theorem prefixFree_leBytes (k : Nat) : PrefixFree (· < 256 ^ k) (leBytes k) := by
  intro a b r r' ha hb h
  obtain ⟨hbytes, hrest⟩ := List.append_inj h (by simp)
  exact ⟨by rw [← ofLeBytes_leBytes ha, hbytes, ofLeBytes_leBytes hb], hrest⟩

/-- What a reader accepts is told apart up to the value it gives. -/
theorem Reads.prefixFree {r : ByteReader ε α} {P : β → Prop} {val : β → α} {enc : β → List UInt8}
    (h : Reads r P val enc)
    (hinj : ∀ a b, P a → P b → val a = val b → enc a = enc b → a = b) : PrefixFree P enc := by
  intro a b s s' ha hb heq
  have hread := (h (enc a ++ s) (val a) s).mpr ⟨a, ha, rfl, rfl⟩
  rw [heq, (h _ _ _).mpr ⟨b, hb, rfl, rfl⟩, Except.ok.injEq, Prod.mk.injEq] at hread
  obtain ⟨hval, rfl⟩ := hread
  exact ⟨hinj a b ha hb hval.symm (List.append_cancel_right heq), rfl⟩

/-- Lists of one length are told apart element by element. -/
theorem PrefixFree.flatMap {P : α → Prop} {enc : α → List UInt8} (h : PrefixFree P enc)
    {xs ys : List α} (hlen : xs.length = ys.length) (hxs : ∀ x ∈ xs, P x) (hys : ∀ y ∈ ys, P y)
    {r r' : List UInt8} (heq : xs.flatMap enc ++ r = ys.flatMap enc ++ r') : xs = ys ∧ r = r' := by
  induction xs generalizing ys with
  | nil =>
      obtain rfl := List.length_eq_zero_iff.mp hlen.symm
      exact ⟨rfl, by simpa using heq⟩
  | cons x xs ih =>
      obtain ⟨y, ys, rfl⟩ := List.exists_cons_of_length_eq_add_one hlen.symm
      simp only [List.flatMap_cons, List.append_assoc] at heq
      obtain ⟨rfl, htail⟩ := h x y _ _ (hxs x (by simp)) (hys y (by simp)) heq
      obtain ⟨rfl, hr⟩ := ih (by simpa using hlen) (fun z hz => hxs z (by simp [hz]))
        (fun z hz => hys z (by simp [hz])) htail
      exact ⟨rfl, hr⟩

end Codec
