import Graphed.Library.Folding
import Graphed.Library.Packing
import Graphed.Relational.PackKey

/-!
# What a packed key says of its row

Each row's key is the packing of the row's key fields; a row with a null among them has none where
nulls are kept. Either backend stops at a field too wide for its place, or gives every other column as
it reads it and the key.
-/

namespace Graphed

variable {α : Type}

/-! ### One row -/

/-- The fields of a row, shifted to their places. -/
def rowKey (values : List (BitVec 64)) : BitVec 64 :=
  values.zipIdx.foldl (fun key c => key ||| placed values.length c.2 c.1) 0

/-- The same, from the last field on. -/
def orShift : List (BitVec 64) → BitVec 64
  | [] => 0
  | v :: vs => (v <<< (packStride * vs.length)) ||| orShift vs

theorem rowKey_eq (values : List (BitVec 64)) : rowKey values = orShift values := by
  have hfrom : ∀ (vs : List (BitVec 64)) (n start : Nat) (acc : BitVec 64), n = start + vs.length →
      (vs.zipIdx start).foldl (fun key c => key ||| placed n c.2 c.1) acc =
        acc ||| orShift vs := by
    intro vs
    induction vs with
    | nil =>
        intro n start acc _
        exact (BitVec.or_zero).symm
    | cons v vs ih =>
        intro n start acc hn
        rw [List.length_cons] at hn
        rw [List.zipIdx_cons, List.foldl_cons, ih n (start + 1) _ (by omega), orShift, placed,
          BitVec.or_assoc, show n - 1 - start = vs.length by omega]
  rw [rowKey, hfrom values values.length 0 0 (by omega)]
  exact BitVec.zero_or

/-- In range, a row's key is its fields packed. -/
theorem toNat_rowKey {values : List (BitVec 64)} (hlength : values.length ≤ 3)
    (hrange : ∀ v ∈ values, v.toNat < 2 ^ packStride) :
    (rowKey values).toNat = packed packStride (values.map BitVec.toNat) := by
  rw [rowKey_eq]
  induction values with
  | nil => rfl
  | cons v vs ih =>
      have hrest : ∀ u ∈ vs, u.toNat < 2 ^ packStride :=
        fun u hu => hrange u (List.mem_cons_of_mem _ hu)
      have hlt : packed packStride (vs.map BitVec.toNat) < 2 ^ (packStride * vs.length) := by
        have h : packed packStride (vs.map BitVec.toNat) <
            2 ^ (packStride * (vs.map BitVec.toNat).length) := packed_lt (by simpa using hrest)
        rwa [List.length_map] at h
      have hv := hrange v List.mem_cons_self
      have hlength' : vs.length ≤ 2 := Nat.le_of_succ_le_succ hlength
      have hfits : v.toNat <<< (packStride * vs.length) < 2 ^ 64 := by
        rw [Nat.shiftLeft_eq]
        calc v.toNat * 2 ^ (packStride * vs.length)
          _ < 2 ^ packStride * 2 ^ (packStride * vs.length) :=
              Nat.mul_lt_mul_of_pos_right hv (Nat.two_pow_pos _)
          _ = 2 ^ (packStride + packStride * vs.length) := (Nat.pow_add _ _ _).symm
          _ ≤ 2 ^ 64 := by
              refine Nat.pow_le_pow_right (by decide) ?_
              unfold packStride
              omega
      rw [orShift, BitVec.toNat_or, BitVec.toNat_shiftLeft, Nat.mod_eq_of_lt hfits,
        ih (Nat.le_of_succ_le hlength) hrest, List.map_cons, packed, List.length_map,
        ← Nat.shiftLeft_add_eq_or_of_lt hlt, Nat.shiftLeft_eq]

/-! ### The rows of a block -/

namespace Block

variable (record : Block α) (on : List String)

/-- What one field holds at a row. -/
def cellAt (field : String) (i : Nat) : Option (Cell α) :=
  (record.columns.lookup field).bind (·[i]?)

/-- The key fields of a row, a null as a missing one. -/
def row (i : Nat) : List (Option α) := on.map fun field => (record.cellAt field i).bind Cell.value

/-- The key fields' data at a row, also under a null. -/
def rowData (i : Nat) : List (Option α) := on.map fun field => (record.cellAt field i).map Cell.data

def Has : Prop := ∀ field ∈ on, ∃ cells, record.columns.lookup field = some cells

variable {record on}

theorem length_of_lookup {field : String} {cells : List (Cell α)}
    (h : record.columns.lookup field = some cells) : cells.length = record.length := by
  obtain ⟨l₁, l₂, heq, -⟩ := List.lookup_eq_some_iff.mp h
  refine record.lengths (field, cells) ?_
  rw [heq]
  exact List.mem_append_right _ List.mem_cons_self

end Block

theorem columnOf_ok {β : Type} {columns : List (String × β)} {field : String} {column : β}
    (h : columns.lookup field = some column) : columnOf columns field = .ok column := by
  unfold columnOf
  rw [h]

/-- Columns folded into one hold, at every row, the fold of the rows. -/
theorem foldl_zipWith {β γ κ : Type} (f : κ → β → γ → β) (columns : κ → List γ) {keys : List κ}
    {n : Nat} (hcolumns : ∀ key ∈ keys, (columns key).length = n) {start : List β}
    (hstart : start.length = n) :
    (keys.foldl (fun acc key => List.zipWith (f key) acc (columns key)) start).length = n ∧
      ∀ i < n, ∀ b, start[i]? = some b → ∀ cell : κ → γ,
        (∀ key ∈ keys, (columns key)[i]? = some (cell key)) →
          (keys.foldl (fun acc key => List.zipWith (f key) acc (columns key)) start)[i]? =
            some (keys.foldl (fun b key => f key b (cell key)) b) := by
  induction keys generalizing start with
  | nil => exact ⟨hstart, fun i _ b hb _ _ => hb⟩
  | cons key keys ih =>
      have hzip : (List.zipWith (f key) start (columns key)).length = n := by
        rw [List.length_zipWith, hstart, hcolumns key List.mem_cons_self, Nat.min_self]
      obtain ⟨hlength, hrows⟩ := ih (fun k hk => hcolumns k (List.mem_cons_of_mem _ hk)) hzip
      refine ⟨hlength, fun i hi b hb cell hcell => ?_⟩
      refine hrows i hi (f key b (cell key)) ?_ cell fun k hk => hcell k (List.mem_cons_of_mem _ hk)
      rw [List.getElem?_zipWith, hb, hcell key List.mem_cons_self]

/-! ### Keys where nulls are kept -/

namespace Awkward

variable {S : Scalars α} {record : Block α} {on : List String} {route : Bool}

/-- A field with a value too wide for its place. -/
def Overflows (S : Scalars α) (record : Block α) (field : String) : Prop :=
  ∃ values, record.values field = some values ∧ ∃ a, some a ∈ values ∧ overflows (S.astype a) = true

/-- A field's column, shifted to its place. -/
def shifted (S : Scalars α) (record : Block α) (count : Nat) (field : String × Nat) :
    List (Option (BitVec 64)) :=
  ((record.values field.1).getD []).map fun a => a.map fun a => placed count field.2 (S.astype a)

theorem packField_cases (S : Scalars α) (route : Bool) (count : Nat)
    (key : Option (List (Option (BitVec 64)))) {field : String × Nat}
    (h : ∃ cells, record.columns.lookup field.1 = some cells) :
    (route = false ∧ Overflows S record field.1 ∧
      packField S record count route key field = .error (.overflow field.1)) ∨
    (¬(route = false ∧ Overflows S record field.1) ∧
      packField S record count route key field = .ok (some (key.elim (shifted S record count field)
        fun key => List.zipWith orKey key (shifted S record count field)))) := by
  obtain ⟨cells, hcells⟩ := h
  have hvalues : record.values field.1 = some (cells.map Cell.value) := by
    unfold Block.values
    rw [hcells]
    rfl
  have hany : ((cells.map fun cell => cell.value.map S.astype).any fun c => c.any overflows) =
      true ↔ Overflows S record field.1 := by
    rw [List.any_map, List.any_eq_true]
    constructor
    · rintro ⟨cell, hcell, hover⟩
      cases hvalue : cell.value with
      | none =>
          rw [Function.comp_apply, hvalue] at hover
          cases hover
      | some a =>
          rw [Function.comp_apply, hvalue] at hover
          exact ⟨_, hvalues, a, List.mem_map.mpr ⟨cell, hcell, hvalue⟩, hover⟩
    · rintro ⟨values, hvalues', a, ha, hover⟩
      rw [hvalues] at hvalues'
      obtain rfl := Option.some.inj hvalues'
      obtain ⟨cell, hcell, hvalue⟩ := List.mem_map.mp ha
      refine ⟨cell, hcell, ?_⟩
      simp only [Function.comp_apply, hvalue, Option.map_some, Option.any_some, hover]
  have hshifted : (cells.map fun cell => cell.value.map S.astype).map
      (fun c => c.map (placed count field.2)) = shifted S record count field := by
    unfold shifted
    rw [hvalues, Option.getD_some, List.map_map, List.map_map]
    refine List.map_congr_left fun cell _ => ?_
    rw [Function.comp_apply, Function.comp_apply, Option.map_map]
    rfl
  have hfield : packField S record count route key field =
      if !route && (cells.map fun cell => cell.value.map S.astype).any fun c => c.any overflows then
        .error (.overflow field.1)
      else .ok (some (key.elim (shifted S record count field)
        fun key => List.zipWith orKey key (shifted S record count field))) := by
    unfold packField
    rw [columnOf_ok hcells, ← hshifted]
    rfl
  rw [hfield]
  by_cases hstop : route = false ∧ Overflows S record field.1
  · refine .inl ⟨hstop.1, hstop.2, if_pos ?_⟩
    rw [hstop.1, hany.mpr hstop.2]
    rfl
  · refine .inr ⟨hstop, if_neg fun h => hstop ?_⟩
    obtain ⟨hroute, hover⟩ := Bool.and_eq_true_iff.mp h
    exact ⟨by simpa using hroute, hany.mp hover⟩

/-- The fold over the fields stops at one too wide or runs through. -/
theorem foldlM_packField (S : Scalars α) (route : Bool) (count : Nat)
    {fields : List (String × Nat)}
    (h : ∀ field ∈ fields, ∃ cells, record.columns.lookup field.1 = some cells)
    (key : Option (List (Option (BitVec 64)))) :
    (∃ field ∈ fields, route = false ∧ Overflows S record field.1 ∧
      fields.foldlM (packField S record count route) key = .error (.overflow field.1)) ∨
    (∀ field ∈ fields, ¬(route = false ∧ Overflows S record field.1)) ∧
      fields.foldlM (packField S record count route) key = .ok (fields.foldl (fun key field =>
        some (key.elim (shifted S record count field)
          fun key => List.zipWith orKey key (shifted S record count field)))
        key) := by
  induction fields generalizing key with
  | nil => exact .inr ⟨fun field hfield => absurd hfield List.not_mem_nil, rfl⟩
  | cons field fields ih =>
      rw [List.foldlM_cons]
      obtain ⟨hroute, hover, hstop⟩ | ⟨hpass, hok⟩ :=
        packField_cases S route count key (h field List.mem_cons_self)
      · rw [hstop]
        exact .inl ⟨field, List.mem_cons_self, hroute, hover, rfl⟩
      · rw [hok, List.foldl_cons]
        obtain ⟨other, hother, hroute, hover, hstop⟩ | ⟨hpasses, hrest⟩ :=
          ih (fun f hf => h f (List.mem_cons_of_mem _ hf)) _
        · exact .inl ⟨other, List.mem_cons_of_mem _ hother, hroute, hover, hstop⟩
        · refine .inr ⟨fun f hf => ?_, hrest⟩
          obtain rfl | hf := List.mem_cons.mp hf
          · exact hpass
          · exact hpasses f hf

theorem shifted_spec (S : Scalars α) (count : Nat) {field : String × Nat}
    (h : ∃ cells, record.columns.lookup field.1 = some cells) :
    (shifted S record count field).length = record.length ∧ ∀ i < record.length,
      (shifted S record count field)[i]? = some (((record.cellAt field.1 i).bind Cell.value).map
        fun a => placed count field.2 (S.astype a)) := by
  obtain ⟨cells, hcells⟩ := h
  have hlength := Block.length_of_lookup hcells
  have hshifted : shifted S record count field = cells.map fun cell =>
      cell.value.map fun a => placed count field.2 (S.astype a) := by
    unfold shifted Block.values
    rw [hcells, Option.map_some, Option.getD_some, List.map_map]
    rfl
  rw [hshifted, List.length_map]
  refine ⟨hlength, fun i hi => ?_⟩
  rw [← hlength] at hi
  have hcell : record.cellAt field.1 i = some cells[i] := by
    unfold Block.cellAt
    rw [hcells, Option.bind_some, List.getElem?_eq_getElem hi]
  rw [List.getElem?_map, List.getElem?_eq_getElem hi, hcell]
  rfl

/-- One field's value onto a row's key. -/
def orField (S : Scalars α) (record : Block α) (count i : Nat) (key : Option (BitVec 64))
    (field : String × Nat) : Option (BitVec 64) :=
  orKey key (((record.cellAt field.1 i).bind Cell.value).map
    fun a => placed count field.2 (S.astype a))

/-- The folded columns hold the folded rows. -/
theorem foldl_shifted {count : Nat} {fields : List (String × Nat)}
    (h : ∀ field ∈ fields, ∃ cells, record.columns.lookup field.1 = some cells)
    {key : List (Option (BitVec 64))} (hlength : key.length = record.length) :
    ∃ keys, fields.foldl (fun key field => some (key.elim (shifted S record count field)
        fun key => List.zipWith orKey key (shifted S record count field)))
        (some key) = some keys ∧ keys.length = record.length ∧
      ∀ i < record.length, ∀ k, key[i]? = some k →
        keys[i]? = some (fields.foldl (orField S record count i) k) := by
  have hsome : ∀ key, fields.foldl (fun key field => some (key.elim (shifted S record count field)
      fun key => List.zipWith orKey key (shifted S record count field))) (some key) =
        some (fields.foldl (fun key field =>
          List.zipWith orKey key (shifted S record count field)) key) := by
    clear h
    induction fields with
    | nil => exact fun _ => rfl
    | cons field fields ih => exact fun key => ih _
  obtain ⟨hlength', hrows⟩ := foldl_zipWith (fun _ => orKey) (shifted S record count)
    (fun field hfield => (shifted_spec S count (h field hfield)).1) hlength
  refine ⟨_, hsome key, hlength', fun i hi k hk => ?_⟩
  exact hrows i hi k hk _ fun field hfield => (shifted_spec S count (h field hfield)).2 i hi

def orValue (S : Scalars α) (count : Nat) (key : Option (BitVec 64)) (value : Option α × Nat) :
    Option (BitVec 64) :=
  orKey key (value.1.map fun a => placed count value.2 (S.astype a))

/-- A row's key: none where a field is null, and otherwise its fields packed. -/
def keyOf (S : Scalars α) (values : List (Option α)) : Option (BitVec 64) :=
  values.zipIdx.foldl (orValue S values.length) (some 0)

theorem keyOf_some (values : List α) :
    keyOf S (values.map some) = some (rowKey (values.map S.astype)) := by
  have hfrom : ∀ (vs : List α) (n start : Nat) (acc : BitVec 64),
      ((vs.map some).zipIdx start).foldl (orValue S n) (some acc) =
      some (((vs.map S.astype).zipIdx start).foldl (fun key c => key ||| placed n c.2 c.1) acc) := by
    intro vs
    induction vs with
    | nil => exact fun _ _ _ => rfl
    | cons v vs ih => exact fun n start acc => ih n (start + 1) _
  unfold keyOf rowKey
  rw [hfrom, List.length_map, List.length_map]

theorem keyOf_none {values : List (Option α)} (h : none ∈ values) : keyOf S values = none := by
  have hnone : ∀ (vs : List (Option α × Nat)) (n : Nat),
      vs.foldl (orValue S n) none = none := by
    intro vs n
    induction vs with
    | nil => rfl
    | cons v vs ih => exact ih
  have hfrom : ∀ (vs : List (Option α)) (n start : Nat) (acc : Option (BitVec 64)), none ∈ vs →
      (vs.zipIdx start).foldl (orValue S n) acc = none := by
    intro vs
    induction vs with
    | nil => exact fun _ _ _ h => absurd h List.not_mem_nil
    | cons v vs ih =>
        intro n start acc hmem
        obtain rfl | hmem := List.mem_cons.mp hmem
        · rw [List.zipIdx_cons, List.foldl_cons, orValue, Option.map_none, orKey,
            Option.map₂_none_right]
          exact hnone _ _
        · exact ih n (start + 1) _ hmem
  exact hfrom values values.length 0 (some 0) h

/-- The folded columns of some fields are the keys of their rows. -/
theorem exists_keys (hhas : record.Has on) (hne : on ≠ []) :
    ∃ keys, on.zipIdx.foldl (fun key field => some (key.elim (shifted S record on.length field)
        fun key => List.zipWith orKey key (shifted S record on.length field))) none = some keys ∧
      keys.length = record.length ∧
      ∀ i < record.length, keys[i]? = some (keyOf S (record.row on i)) := by
  cases on with
  | nil => exact absurd rfl hne
  | cons field rest =>
      have hhead : ∃ cells, record.columns.lookup ((field, 0) : String × Nat).1 = some cells :=
        hhas field List.mem_cons_self
      obtain ⟨hlength, hread⟩ := shifted_spec S (field :: rest).length hhead
      have hrest : ∀ f ∈ rest.zipIdx 1, ∃ cells, record.columns.lookup f.1 = some cells :=
        fun f hf => hhas f.1 (List.mem_cons_of_mem _ (List.fst_mem_of_mem_zipIdx hf))
      obtain ⟨keys, hkeys, hlength', hrows⟩ := foldl_shifted (S := S) hrest hlength
      refine ⟨keys, hkeys, hlength', fun i hi => ?_⟩
      rw [hrows i hi _ (hread i hi)]
      have hzip : ∀ (fields : List String) (start : Nat),
          (record.row fields i).zipIdx start = (fields.zipIdx start).map fun f =>
            ((record.cellAt f.1 i).bind Cell.value, f.2) := by
        intro fields start
        unfold Block.row
        rw [List.zipIdx_map]
        rfl
      unfold keyOf
      rw [hzip, List.foldl_map, Block.row, List.length_map, List.zipIdx_cons, List.foldl_cons]
      congr 2
      change ((record.cellAt field i).bind Cell.value).map _ =
        orKey (some 0) (((record.cellAt field i).bind Cell.value).map _)
      cases (record.cellAt field i).bind Cell.value with
      | none => rfl
      | some a => exact congrArg some (BitVec.zero_or).symm

/-- **Where nulls are kept.** The packing stops at a field too wide for its place, or gives every
other column and the key of each row. -/
theorem packKey_cases (S : Scalars α) (route : Bool) (hhas : record.Has on) (hne : on ≠ [])
    (hfew : on.length ≤ 3) :
    (∃ field ∈ on, route = false ∧ Overflows S record field ∧
      packKey S record on route = .error (.overflow field)) ∨
    (∀ field ∈ on, ¬(route = false ∧ Overflows S record field)) ∧
      ∃ keys, packKey S record on route =
          .ok (dictUpdate
            (record.columns.map fun column => (column.1, .kept (column.2.map Cell.value)))
            [("__joinkey__", .key keys)]) ∧ keys.length = record.length ∧
        ∀ i < record.length, keys[i]? = some (keyOf S (record.row on i)) := by
  have hhas' : ∀ field ∈ on.zipIdx, ∃ cells, record.columns.lookup field.1 = some cells :=
    fun field hfield => hhas field.1 (List.fst_mem_of_mem_zipIdx hfield)
  have hfits : ¬64 < on.length * packStride := by
    unfold packStride
    omega
  have hempty : on.isEmpty = false := by
    cases on with
    | nil => exact absurd rfl hne
    | cons _ _ => rfl
  unfold packKey
  rw [hempty, if_neg Bool.false_ne_true, if_neg hfits]
  obtain ⟨field, hfield, hroute, hover, hstop⟩ | ⟨hpass, hok⟩ :=
    foldlM_packField S route on.length hhas' none
  · rw [hstop]
    exact .inl ⟨field.1, List.fst_mem_of_mem_zipIdx hfield, hroute, hover, rfl⟩
  · refine .inr ⟨fun field hfield => ?_, ?_⟩
    · obtain ⟨i, hi⟩ := List.getElem?_of_mem hfield
      exact hpass (field, i) (List.mk_mem_zipIdx_iff_getElem?.mpr hi)
    · rw [hok]
      obtain ⟨keys, hkeys, hlength, hrows⟩ := exists_keys (S := S) hhas hne
      rw [hkeys]
      exact ⟨keys, rfl, hlength, hrows⟩

end Awkward

/-! ### Keys of the data -/

namespace Numpy

variable {S : Scalars α} {record : Block α} {on : List String} {route : Bool}

/-- A field with data too wide for its place, maybe under a null. -/
def Overflows (S : Scalars α) (record : Block α) (field : String) : Prop :=
  ∃ cells, record.columns.lookup field = some cells ∧
    ∃ cell ∈ cells, overflows (S.astype cell.data) = true

def dataOf (record : Block α) (field : String) : List α :=
  ((record.columns.lookup field).getD []).map Cell.data

theorem lookup_asColumns {field : String} (h : ∃ cells, record.columns.lookup field = some cells) :
    (asColumns record).lookup field = some (dataOf record field) := by
  obtain ⟨cells, hcells⟩ := h
  unfold asColumns dataOf
  rw [lookup_map_snd, hcells]
  rfl

theorem checkField_cases (S : Scalars α) (route : Bool) {field : String}
    (h : ∃ cells, record.columns.lookup field = some cells) :
    (route = false ∧ Overflows S record field ∧
      checkField S (asColumns record) route field = .error (.overflow field)) ∨
    (¬(route = false ∧ Overflows S record field) ∧
      checkField S (asColumns record) route field = .ok ()) := by
  have hcolumn := columnOf_ok (lookup_asColumns h)
  obtain ⟨cells, hcells⟩ := h
  have hany : ((dataOf record field).any fun c => overflows (S.astype c)) = true ↔
      Overflows S record field := by
    unfold dataOf
    rw [hcells, Option.getD_some, List.any_map, List.any_eq_true]
    constructor
    · rintro ⟨cell, hcell, hover⟩
      exact ⟨cells, hcells, cell, hcell, hover⟩
    · rintro ⟨cells', hcells', cell, hcell, hover⟩
      rw [hcells] at hcells'
      obtain rfl := Option.some.inj hcells'
      exact ⟨cell, hcell, hover⟩
  unfold checkField
  cases route with
  | true => exact .inr ⟨fun h => absurd h.1 (by decide), rfl⟩
  | false =>
      rw [if_neg Bool.false_ne_true, hcolumn]
      by_cases hover : Overflows S record field
      · exact .inl ⟨rfl, hover, if_pos (hany.mpr hover)⟩
      · exact .inr ⟨fun h => hover h.2, if_neg fun h => hover (hany.mp h)⟩

theorem mapM_checkField (S : Scalars α) (route : Bool) (hhas : record.Has on) :
    (∃ field ∈ on, route = false ∧ Overflows S record field ∧
      on.mapM (checkField S (asColumns record) route) = .error (.overflow field)) ∨
    (∀ field ∈ on, ¬(route = false ∧ Overflows S record field)) ∧
      ∃ us, on.mapM (checkField S (asColumns record) route) = .ok us := by
  induction on with
  | nil => exact .inr ⟨fun field hfield => absurd hfield List.not_mem_nil, [], rfl⟩
  | cons field on ih =>
      rw [List.mapM_cons]
      obtain ⟨hroute, hover, hstop⟩ | ⟨hpass, hok⟩ :=
        checkField_cases S route (hhas field List.mem_cons_self)
      · rw [hstop]
        exact .inl ⟨field, List.mem_cons_self, hroute, hover, rfl⟩
      · rw [hok]
        obtain ⟨other, hother, hroute, hover, hstop⟩ | ⟨hpasses, us, hrest⟩ :=
          ih fun f hf => hhas f (List.mem_cons_of_mem _ hf)
        · refine .inl ⟨other, List.mem_cons_of_mem _ hother, hroute, hover, ?_⟩
          rw [hstop]
          rfl
        · refine .inr ⟨fun f hf => ?_, () :: us, ?_⟩
          · obtain rfl | hf := List.mem_cons.mp hf
            · exact hpass
            · exact hpasses f hf
          · rw [hrest]
            rfl

theorem mapM_columnOf (hhas : record.Has on) :
    on.mapM (columnOf (asColumns record)) = .ok (on.map (dataOf record)) := by
  induction on with
  | nil => rfl
  | cons field on ih =>
      rw [List.mapM_cons, columnOf_ok (lookup_asColumns (hhas field List.mem_cons_self)),
        ih fun f hf => hhas f (List.mem_cons_of_mem _ hf)]
      rfl

/-- A row's key is the packing of its data. -/
theorem packKeyColumn_row (hhas : record.Has on) :
    (packKeyColumn S record.length (on.map (dataOf record))).length = record.length ∧
      ∀ i < record.length, ∀ values : List α, record.rowData on i = values.map some →
        (packKeyColumn S record.length (on.map (dataOf record)))[i]? =
          some (rowKey (values.map S.astype)) := by
  have hread : ∀ field ∈ on, (dataOf record field).length = record.length ∧
      ∀ i < record.length, (dataOf record field)[i]? = (record.cellAt field i).map Cell.data := by
    intro field hfield
    obtain ⟨cells, hcells⟩ := hhas field hfield
    unfold dataOf Block.cellAt
    rw [hcells, Option.getD_some, List.length_map]
    exact ⟨Block.length_of_lookup hcells, fun i _ => List.getElem?_map⟩
  have hcolumns : ∀ column ∈ (on.map (dataOf record)).zipIdx, column.1.length = record.length := by
    intro column hcolumn
    obtain ⟨field, hfield, heq⟩ := List.mem_map.mp (List.fst_mem_of_mem_zipIdx hcolumn)
    rw [← heq]
    exact (hread field hfield).1
  obtain ⟨hlength, hrows⟩ := foldl_zipWith
    (fun (column : List α × Nat) (k : BitVec 64) c =>
      k ||| placed (on.map (dataOf record)).length column.2 (S.astype c)) Prod.fst hcolumns
    (List.length_replicate (a := (0 : BitVec 64)))
  refine ⟨hlength, fun i hi values hvalues => ?_⟩
  cases values with
  | nil =>
      obtain rfl := List.map_eq_nil_iff.mp hvalues
      exact List.getElem?_replicate_of_lt hi
  | cons v vs =>
      have hcells : v :: vs = on.map fun field => ((dataOf record field)[i]?).getD v := by
        calc v :: vs
          _ = ((v :: vs).map some).map (·.getD v) := by
              rw [List.map_map]
              exact (List.map_id _).symm
          _ = (on.map fun field => (record.cellAt field i).map Cell.data).map (·.getD v) := by
              rw [← hvalues]
              rfl
          _ = on.map fun field => ((dataOf record field)[i]?).getD v := by
              rw [List.map_map]
              refine List.map_congr_left fun field hfield => ?_
              rw [(hread field hfield).2 i hi]
              rfl
      have hfold := hrows i hi 0 (List.getElem?_replicate_of_lt hi)
        (fun column => (column.1[i]?).getD v) fun column hcolumn => ?_
      · refine hfold.trans (congrArg some ?_)
        unfold rowKey
        rw [hcells]
        simp only [List.zipIdx_map, List.foldl_map, List.length_map]
        rfl
      · have hlt : i < column.1.length := by rwa [hcolumns column hcolumn]
        rw [List.getElem?_eq_getElem hlt, Option.getD_some]

/-- **Where data are read.** The packing stops at a field too wide for its place, or gives every other
column's data and the key of each row's data. -/
theorem packKey_cases (S : Scalars α) (route : Bool) (hhas : record.Has on) (hne : on ≠ [])
    (hfew : on.length ≤ 3) :
    (∃ field ∈ on, route = false ∧ Overflows S record field ∧
      packKey S record on route = .error (.overflow field)) ∨
    (∀ field ∈ on, ¬(route = false ∧ Overflows S record field)) ∧
      ∃ keys : List (BitVec 64), packKey S record on route =
          .ok (dictUpdate
            (record.columns.map fun column => (column.1, .kept (column.2.map fun cell =>
              some cell.data)))
            [("__joinkey__", .key (keys.map some))]) ∧ keys.length = record.length ∧
        ∀ i < record.length, ∀ values : List α, record.rowData on i = values.map some →
          keys[i]? = some (rowKey (values.map S.astype)) := by
  have hfits : ¬64 < on.length * packStride := by
    unfold packStride
    omega
  have hempty : (on.map (dataOf record)).isEmpty = false := by
    cases on with
    | nil => exact absurd rfl hne
    | cons _ _ => rfl
  have hkept : ((asColumns record).map fun column =>
      (column.1, (PackedColumn.kept (column.2.map some)))) =
        record.columns.map fun column => (column.1, .kept (column.2.map fun cell =>
          some cell.data)) := by
    unfold asColumns
    rw [List.map_map]
    refine List.map_congr_left fun column _ => ?_
    rw [Function.comp_apply, List.map_map]
    rfl
  unfold packKey
  rw [if_neg hfits, mapM_columnOf hhas]
  obtain ⟨field, hfield, hroute, hover, hstop⟩ | ⟨hpass, us, hok⟩ := mapM_checkField S route hhas
  · rw [hstop]
    exact .inl ⟨field, hfield, hroute, hover, rfl⟩
  · obtain ⟨hlength, hrows⟩ := packKeyColumn_row (S := S) hhas
    refine .inr ⟨hpass, _, ?_, hlength, hrows⟩
    rw [hok]
    change (if (on.map (dataOf record)).isEmpty then _ else _) = _
    rw [hempty, if_neg Bool.false_ne_true, hkept]

end Numpy

end Graphed
