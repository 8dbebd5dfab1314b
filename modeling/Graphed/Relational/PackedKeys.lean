import Graphed.Relational.PackedRows
import Mathlib.Data.List.Forall2

/-!
# Faithful keys

On integers, the packing is faithful on both backends exactly where no column it reads or keeps has a
null, or where a key value that is not null stops it: the numpy backend reads masked columns without
their masks.
-/

namespace Graphed

variable {α : Type}

/-! ### What a faithful packing is -/

/-- Some key value that is not null is negative, or `2 ** 20` or more. -/
def SomeWide (S : Scalars α) (record : Block α) (on : List String) : Prop :=
  ∃ field ∈ on, ∃ values, record.values field = some values ∧ ∃ a, some a ∈ values ∧ S.wide a

/-- Two rows agree on all key fields, a null with a null. -/
def RowsAgree (S : Scalars α) (row row' : List (Option α)) : Prop :=
  List.Forall₂ (Option.Rel S.eq) row row'

/-- The order of the fields, the first differing one deciding. -/
def FieldsBefore (S : Scalars α) : List α → List α → Prop
  | v :: vs, w :: ws => S.lt v w ∨ S.eq v w ∧ FieldsBefore S vs ws
  | _, _ => False

/-- Keys of the rows, which tell the rows apart unless they only route. -/
structure FaithfulKeys (S : Scalars α) (record : Block α) (on : List String) (route : Bool)
    (keys : List (Option (BitVec 64))) : Prop where
  length : keys.length = record.length
  equal : ∀ i < record.length, ∀ j < record.length,
    RowsAgree S (record.row on i) (record.row on j) → keys[i]? = keys[j]?
  separate : route = false → ∀ i < record.length, ∀ j < record.length,
    keys[i]? = keys[j]? → RowsAgree S (record.row on i) (record.row on j)
  last : route = false → ∀ i < record.length, ∀ zeros e v,
    record.row on i = (zeros ++ [e]).map some → (∀ z ∈ zeros, S.int z = some 0) →
      S.int e = some v → keys[i]? = some (some (BitVec.ofInt 64 v))
  ordered : route = false → ∀ i < record.length, ∀ j < record.length, ∀ vs ws,
    record.row on i = vs.map some → record.row on j = ws.map some →
      (FieldsBefore S vs ws ↔ ∃ k l, keys[i]? = some (some k) ∧ keys[j]? = some (some l) ∧ k < l)

/-- A packing stops exactly at a wide key value, and otherwise adds faithful keys and leaves every
other column as it was. -/
structure FaithfulPack (S : Scalars α) (record : Block α) (on : List String) (route : Bool)
    (result : Except PackKeyError (PackedRecord α)) : Prop where
  raises : (∃ field, result = .error (.overflow field)) ↔ route = false ∧ SomeWide S record on
  others : ∀ result', result = .ok result' → ∀ name, name ≠ "__joinkey__" →
    result'.lookup name = (record.values name).map .kept
  keys : (∃ field, result = .error (.overflow field)) ∨ ∃ result', result = .ok result' ∧
    ∃ keys, result'.lookup "__joinkey__" = some (.key keys) ∧ FaithfulKeys S record on route keys

/-- Both backends pack a record faithfully, with the same keys. -/
structure PacksFaithfully (S : Scalars α) (record : Block α) (on : List String) (route : Bool) :
    Prop where
  numpy : FaithfulPack S record on route (Numpy.packKey S record on route)
  awkward : FaithfulPack S record on route (Awkward.packKey S record on route)
  same : ∀ left right, Numpy.packKey S record on route = .ok left →
    Awkward.packKey S record on route = .ok right →
      left.lookup "__joinkey__" = right.lookup "__joinkey__"

/-- No column the packing reads or keeps has a null. -/
def NoNulls (record : Block α) (on : List String) : Prop :=
  ∀ column ∈ record.columns, column.1 ∈ on ∨ column.1 ≠ "__joinkey__" →
    ∀ cell ∈ column.2, cell.null = false

/-- Every key value that is not null is an integer. -/
def IntegerKeys (S : Scalars α) (record : Block α) (on : List String) : Prop :=
  ∀ field ∈ on, ∀ values, record.values field = some values → ∀ a, some a ∈ values →
    ∃ v, S.int a = some v

/-! ### Integers in range -/

variable {S : Scalars α}

/-- An integer that fits its place. -/
def Narrow (S : Scalars α) (a : α) : Prop := (∃ v, S.int a = some v) ∧ ¬S.wide a

theorem overflows_iff {a : α} (h : ∃ v, S.int a = some v) :
    overflows (S.astype a) = true ↔ S.wide a := by
  obtain ⟨v, hv⟩ := h
  obtain ⟨hlow, hhigh⟩ := S.int_range hv
  rw [S.wide_int hv, overflows, decide_eq_true_iff, S.astype_int hv, BitVec.toNat_ofInt]
  unfold packStride
  omega

theorem Narrow.exists_nat {a : α} (h : Narrow S a) :
    ∃ n : Nat, S.int a = some (n : Int) ∧ (S.astype a).toNat = n ∧ n < 2 ^ packStride := by
  obtain ⟨⟨v, hv⟩, hwide⟩ := h
  rw [S.wide_int hv] at hwide
  unfold packStride
  refine ⟨v.toNat, ?_, ?_, by omega⟩
  · rw [hv, Int.toNat_of_nonneg (by omega)]
  · rw [S.astype_int hv, BitVec.toNat_ofInt]
    omega

theorem Narrow.eq_iff {a b : α} (ha : Narrow S a) (hb : Narrow S b) :
    S.eq a b ↔ (S.astype a).toNat = (S.astype b).toNat := by
  obtain ⟨m, hm, hma, -⟩ := ha.exists_nat
  obtain ⟨n, hn, hnb, -⟩ := hb.exists_nat
  rw [S.eq_int hm hn, hma, hnb, Int.ofNat_inj]

theorem Narrow.lt_iff {a b : α} (ha : Narrow S a) (hb : Narrow S b) :
    S.lt a b ↔ (S.astype a).toNat < (S.astype b).toNat := by
  obtain ⟨m, hm, hma, -⟩ := ha.exists_nat
  obtain ⟨n, hn, hnb, -⟩ := hb.exists_nat
  rw [S.lt_int hm hn, hma, hnb, Int.ofNat_lt]

/-- The fields of a row as the numbers its key packs. -/
def fieldNumbers (S : Scalars α) (vs : List α) : List Nat := vs.map fun v => (S.astype v).toNat

theorem fieldNumbers_lt {vs : List α} (h : ∀ v ∈ vs, Narrow S v) :
    ∀ n ∈ fieldNumbers S vs, n < 2 ^ packStride := by
  intro n hn
  obtain ⟨v, hv, rfl⟩ := List.mem_map.mp hn
  obtain ⟨m, -, hm, hlt⟩ := (h v hv).exists_nat
  rwa [hm]

theorem toNat_rowKey_fields {vs : List α} (hlength : vs.length ≤ 3) (h : ∀ v ∈ vs, Narrow S v) :
    (rowKey (vs.map S.astype)).toNat = packed packStride (fieldNumbers S vs) := by
  have hmap : (vs.map S.astype).map BitVec.toNat = fieldNumbers S vs := List.map_map
  rw [toNat_rowKey (by rwa [List.length_map]), hmap]
  intro v hv
  obtain ⟨a, ha, rfl⟩ := List.mem_map.mp hv
  exact fieldNumbers_lt h _ (List.mem_map_of_mem ha)

theorem forall₂_eq_iff {vs ws : List α} (hlength : vs.length = ws.length)
    (hvs : ∀ v ∈ vs, Narrow S v) (hws : ∀ w ∈ ws, Narrow S w) :
    List.Forall₂ S.eq vs ws ↔ fieldNumbers S vs = fieldNumbers S ws := by
  induction vs generalizing ws with
  | nil =>
      obtain rfl := List.length_eq_zero_iff.mp hlength.symm
      exact ⟨fun _ => rfl, fun _ => .nil⟩
  | cons v vs ih =>
      cases ws with
      | nil => exact absurd hlength (Nat.succ_ne_zero _)
      | cons w ws =>
          rw [List.forall₂_cons, ih (Nat.succ.inj hlength)
            (fun u hu => hvs u (List.mem_cons_of_mem _ hu))
            (fun u hu => hws u (List.mem_cons_of_mem _ hu)),
            (hvs v List.mem_cons_self).eq_iff (hws w List.mem_cons_self)]
          exact (List.cons_eq_cons (b := (S.astype w).toNat)).symm

theorem fieldsBefore_iff {vs ws : List α} (hlength : vs.length = ws.length)
    (hvs : ∀ v ∈ vs, Narrow S v) (hws : ∀ w ∈ ws, Narrow S w) :
    FieldsBefore S vs ws ↔
      packed packStride (fieldNumbers S vs) < packed packStride (fieldNumbers S ws) := by
  induction vs generalizing ws with
  | nil =>
      obtain rfl := List.length_eq_zero_iff.mp hlength.symm
      exact ⟨fun h => h.elim, fun h => absurd h (Nat.lt_irrefl _)⟩
  | cons v vs ih =>
      cases ws with
      | nil => exact absurd hlength (Nat.succ_ne_zero _)
      | cons w ws =>
          have hlength' : vs.length = ws.length := Nat.succ.inj hlength
          have hvs' : ∀ u ∈ vs, Narrow S u := fun u hu => hvs u (List.mem_cons_of_mem _ hu)
          have hws' : ∀ u ∈ ws, Narrow S u := fun u hu => hws u (List.mem_cons_of_mem _ hu)
          have hnumbers : (fieldNumbers S vs).length = (fieldNumbers S ws).length := by
            rwa [fieldNumbers, fieldNumbers, List.length_map, List.length_map]
          rw [FieldsBefore, ih hlength' hvs' hws',
            (hvs v List.mem_cons_self).lt_iff (hws w List.mem_cons_self),
            (hvs v List.mem_cons_self).eq_iff (hws w List.mem_cons_self)]
          exact (packed_cons_lt hnumbers (fieldNumbers_lt hvs') (fieldNumbers_lt hws')).symm

/-! ### Rows without nulls -/

variable {record : Block α} {on : List String} {route : Bool}

theorem rowsAgree_map_some {vs ws : List α} :
    RowsAgree S (vs.map some) (ws.map some) ↔ List.Forall₂ S.eq vs ws := by
  unfold RowsAgree
  rw [List.forall₂_map_left_iff, List.forall₂_map_right_iff]
  simp only [Option.rel_some_some]

theorem mem_row {i : Nat} {a : α} (h : some a ∈ record.row on i) :
    ∃ field ∈ on, ∃ values, record.values field = some values ∧ some a ∈ values := by
  obtain ⟨field, hfield, hvalue⟩ := List.mem_map.mp h
  obtain ⟨cell, hcell, hcellvalue⟩ := Option.bind_eq_some_iff.mp hvalue
  obtain ⟨cells, hcells, hread⟩ := Option.bind_eq_some_iff.mp hcell
  refine ⟨field, hfield, cells.map Cell.value, ?_, ?_⟩
  · unfold Block.values
    rw [hcells]
    rfl
  · exact List.mem_map.mpr ⟨cell, List.mem_of_getElem? hread, hcellvalue⟩

theorem mem_columns_of_lookup {field : String} {cells : List (Cell α)}
    (h : record.columns.lookup field = some cells) : (field, cells) ∈ record.columns := by
  obtain ⟨l₁, l₂, heq, -⟩ := List.lookup_eq_some_iff.mp h
  rw [heq]
  exact List.mem_append_right _ List.mem_cons_self

/-- Without nulls, the values of a row are its data. -/
theorem NoNulls.exists_row (hnull : NoNulls record on) (hhas : record.Has on) {i : Nat}
    (hi : i < record.length) :
    ∃ vs : List α, record.row on i = vs.map some ∧ record.rowData on i = vs.map some := by
  have hcell : ∀ field ∈ on, ∃ a, record.cellAt field i = some ⟨a, false⟩ := by
    intro field hfield
    obtain ⟨cells, hcells⟩ := hhas field hfield
    have hlt : i < cells.length := by rwa [Block.length_of_lookup hcells]
    have hvalid : cells[i].null = false :=
      hnull _ (mem_columns_of_lookup hcells) (.inl hfield) _ (List.getElem_mem hlt)
    refine ⟨cells[i].data, ?_⟩
    unfold Block.cellAt
    rw [hcells, Option.bind_some, List.getElem?_eq_getElem hlt, ← hvalid]
  clear hnull hhas
  induction on with
  | nil => exact ⟨[], rfl, rfl⟩
  | cons field on ih =>
      obtain ⟨a, ha⟩ := hcell field List.mem_cons_self
      obtain ⟨vs, hrow, hdata⟩ := ih fun f hf => hcell f (List.mem_cons_of_mem _ hf)
      refine ⟨a :: vs, ?_, ?_⟩
      · rw [List.map_cons, ← hrow, Block.row, List.map_cons, ha]
        rfl
      · rw [List.map_cons, ← hdata, Block.rowData, List.map_cons, ha]
        rfl

/-- Keys that pack full rows are faithful. -/
theorem faithfulKeys_of_rows (hfew : on.length ≤ 3) {keys : List (Option (BitVec 64))}
    (hlength : keys.length = record.length)
    (hrows : ∀ i < record.length, ∃ vs : List α, record.row on i = vs.map some ∧
      keys[i]? = some (some (rowKey (vs.map S.astype))))
    (hnarrow : route = false → ∀ i a, some a ∈ record.row on i → Narrow S a) :
    FaithfulKeys S record on route keys := by
  have hcount : ∀ {i : Nat} {vs : List α}, record.row on i = vs.map some →
      vs.length = on.length := by
    intro i vs hvs
    have h := congrArg List.length hvs
    rw [Block.row, List.length_map, List.length_map] at h
    exact h.symm
  have hfits : ∀ {i : Nat} {vs : List α}, route = false → record.row on i = vs.map some →
      ∀ v ∈ vs, Narrow S v := by
    intro i vs hroute hvs v hv
    refine hnarrow hroute i v ?_
    rw [hvs]
    exact List.mem_map_of_mem hv
  have hnumber : ∀ {i : Nat} {vs : List α}, route = false → record.row on i = vs.map some →
      (rowKey (vs.map S.astype)).toNat = packed packStride (fieldNumbers S vs) :=
    fun hroute hvs => toNat_rowKey_fields ((hcount hvs).trans_le hfew) (hfits hroute hvs)
  refine ⟨hlength, fun i hi j hj hagree => ?_, fun hroute i hi j hj hkeys => ?_,
    fun hroute i hi zeros e v hrow hzeros he => ?_, fun hroute i hi j hj vs ws hvs hws => ?_⟩
  · obtain ⟨vs, hvs, hi'⟩ := hrows i hi
    obtain ⟨ws, hws, hj'⟩ := hrows j hj
    rw [hvs, hws, rowsAgree_map_some] at hagree
    have hcast : vs.map S.astype = ws.map S.astype := by
      clear hvs hws hi' hj'
      induction hagree with
      | nil => rfl
      | cons heq _ ih => rw [List.map_cons, List.map_cons, S.astype_eq heq, ih]
    rw [hi', hj', hcast]
  · obtain ⟨vs, hvs, hi'⟩ := hrows i hi
    obtain ⟨ws, hws, hj'⟩ := hrows j hj
    rw [hi', hj', Option.some.injEq, Option.some.injEq, ← BitVec.toNat_inj, hnumber hroute hvs,
      hnumber hroute hws] at hkeys
    have hsame : vs.length = ws.length := (hcount hvs).trans (hcount hws).symm
    rw [hvs, hws, rowsAgree_map_some,
      forall₂_eq_iff hsame (hfits hroute hvs) (hfits hroute hws)]
    refine (packed_inj ?_ (fieldNumbers_lt (hfits hroute hvs))
      (fieldNumbers_lt (hfits hroute hws))).mp hkeys
    rwa [fieldNumbers, fieldNumbers, List.length_map, List.length_map]
  · obtain ⟨vs, hvs, hi'⟩ := hrows i hi
    have heq : vs = zeros ++ [e] := by
      refine List.map_injective_iff.mpr (Option.some_injective α) ?_
      rw [← hvs, hrow]
    have hnumbers : fieldNumbers S vs =
        List.replicate zeros.length 0 ++ [(S.astype e).toNat] := by
      rw [heq, fieldNumbers, List.map_append]
      refine congrArg (· ++ _) ?_
      rw [List.map_eq_replicate_iff]
      intro z hz
      rw [S.astype_int (hzeros z hz)]
      rfl
    rw [hi', Option.some.injEq, Option.some.injEq, ← S.astype_int he, ← BitVec.toNat_inj,
      hnumber hroute hvs, hnumbers, packed_zeros]
  · obtain ⟨vs', hvs', hi'⟩ := hrows i hi
    obtain ⟨ws', hws', hj'⟩ := hrows j hj
    have hinj := List.map_injective_iff.mpr (Option.some_injective α)
    obtain rfl : vs = vs' := hinj (hvs.symm.trans hvs')
    obtain rfl : ws = ws' := hinj (hws.symm.trans hws')
    have hsame : vs.length = ws.length := (hcount hvs).trans (hcount hws).symm
    rw [fieldsBefore_iff hsame (hfits hroute hvs) (hfits hroute hws), ← hnumber hroute hvs,
      ← hnumber hroute hws]
    constructor
    · exact fun hlt => ⟨_, _, hi', hj', hlt⟩
    · rintro ⟨k, l, hk, hl, hlt⟩
      rw [hi', Option.some.injEq, Option.some.injEq] at hk
      rw [hj', Option.some.injEq, Option.some.injEq] at hl
      rw [hk, hl]
      exact hlt

/-! ### Stopping -/

theorem awkward_overflows_iff (hints : IntegerKeys S record on) :
    (∃ field ∈ on, Awkward.Overflows S record field) ↔ SomeWide S record on := by
  constructor
  · rintro ⟨field, hfield, values, hvalues, a, ha, hover⟩
    exact ⟨field, hfield, values, hvalues, a, ha,
      (overflows_iff (hints field hfield values hvalues a ha)).mp hover⟩
  · rintro ⟨field, hfield, values, hvalues, a, ha, hwide⟩
    exact ⟨field, hfield, values, hvalues, a, ha,
      (overflows_iff (hints field hfield values hvalues a ha)).mpr hwide⟩

/-- A value that is not null is data. -/
theorem numpy_overflows {field : String} (h : Awkward.Overflows S record field) :
    Numpy.Overflows S record field := by
  obtain ⟨values, hvalues, a, ha, hover⟩ := h
  obtain ⟨cells, hcells, rfl⟩ := Option.map_eq_some_iff.mp hvalues
  obtain ⟨cell, hcell, hvalue⟩ := List.mem_map.mp ha
  refine ⟨cells, hcells, cell, hcell, ?_⟩
  unfold Cell.value at hvalue
  split at hvalue
  · cases hvalue
  · rwa [Option.some.inj hvalue]

theorem NoNulls.awkward_overflows (hnull : NoNulls record on) {field : String} (hfield : field ∈ on)
    (h : Numpy.Overflows S record field) : Awkward.Overflows S record field := by
  obtain ⟨cells, hcells, cell, hcell, hover⟩ := h
  refine ⟨cells.map Cell.value, ?_, cell.data, ?_, hover⟩
  · unfold Block.values
    rw [hcells]
    rfl
  · refine List.mem_map.mpr ⟨cell, hcell, if_neg ?_⟩
    rw [hnull _ (mem_columns_of_lookup hcells) (.inl hfield) cell hcell]
    exact Bool.false_ne_true

theorem narrow_of_row (hints : IntegerKeys S record on) (hfits : ¬SomeWide S record on) (i : Nat)
    (a : α) (h : some a ∈ record.row on i) : Narrow S a := by
  obtain ⟨field, hfield, values, hvalues, ha⟩ := mem_row h
  exact ⟨hints field hfield values hvalues a ha,
    fun hwide => hfits ⟨field, hfield, values, hvalues, a, ha, hwide⟩⟩

/-! ### The record packed -/

theorem lookup_packed_key (columns : PackedRecord α) (key : PackedColumn α) :
    (dictUpdate columns [("__joinkey__", key)]).lookup "__joinkey__" = some key := by
  rw [lookup_dictUpdate, List.lookup_cons_self]
  rfl

theorem lookup_packed_other (g : List (Cell α) → PackedColumn α) (key : PackedColumn α)
    {name : String} (h : name ≠ "__joinkey__") :
    (dictUpdate (record.columns.map fun column => (column.1, g column.2))
      [("__joinkey__", key)]).lookup name = (record.columns.lookup name).map g := by
  have hne : (name == "__joinkey__") = false := beq_eq_false_iff_ne.mpr h
  rw [lookup_dictUpdate, lookup_map_snd _ g, List.lookup_cons, hne]
  rfl

/-- A packing that stops at a wide key value is faithful. -/
theorem faithfulPack_error {field : String} (hroute : route = false)
    (hwide : SomeWide S record on) :
    FaithfulPack S record on route (.error (.overflow field)) :=
  ⟨⟨fun _ => ⟨hroute, hwide⟩, fun _ => ⟨field, rfl⟩⟩, (fun _ h => nomatch h), .inl ⟨field, rfl⟩⟩

/-- So is one that adds faithful keys to the block's values. -/
theorem faithfulPack_ok (hfits : ¬(route = false ∧ SomeWide S record on))
    {g : List (Cell α) → PackedColumn α} {keys : List (Option (BitVec 64))}
    (hkept : ∀ name cells, name ≠ "__joinkey__" → record.columns.lookup name = some cells →
      g cells = .kept (cells.map Cell.value))
    (hkeys : FaithfulKeys S record on route keys) :
    FaithfulPack S record on route (.ok (dictUpdate
      (record.columns.map fun column => (column.1, g column.2)) [("__joinkey__", .key keys)])) := by
  refine ⟨⟨fun ⟨_, h⟩ => (nomatch h), fun h => absurd h hfits⟩, ?_, .inr ⟨_, rfl, keys, ?_, hkeys⟩⟩
  · intro result' hresult name hname
    cases hresult
    rw [lookup_packed_other g _ hname]
    unfold Block.values
    cases hcells : record.columns.lookup name with
    | none => rfl
    | some cells => exact congrArg some (hkept name cells hname hcells)
  · exact lookup_packed_key _ _

/-! ### Both backends -/

/-- A wide key value that is not null stops both. -/
theorem both_stop (hhas : record.Has on) (hne : on ≠ []) (hfew : on.length ≤ 3)
    (hints : IntegerKeys S record on) (hroute : route = false) (hwide : SomeWide S record on) :
    (∃ field, Numpy.packKey S record on route = .error (.overflow field)) ∧
      ∃ field, Awkward.packKey S record on route = .error (.overflow field) := by
  obtain ⟨field, hfield, hover⟩ := (awkward_overflows_iff hints).mpr hwide
  constructor
  · obtain ⟨other, -, -, -, hstop⟩ | ⟨hpass, -⟩ := Numpy.packKey_cases S route hhas hne hfew
    · exact ⟨other, hstop⟩
    · exact absurd ⟨hroute, numpy_overflows hover⟩ (hpass field hfield)
  · obtain ⟨other, -, -, -, hstop⟩ | ⟨hpass, -⟩ := Awkward.packKey_cases S route hhas hne hfew
    · exact ⟨other, hstop⟩
    · exact absurd ⟨hroute, hover⟩ (hpass field hfield)

/-- Without nulls, the backends agree and are faithful. -/
theorem NoNulls.packsFaithfully (hnull : NoNulls record on) (hhas : record.Has on) (hne : on ≠ [])
    (hfew : on.length ≤ 3) (hints : IntegerKeys S record on)
    (hpass : ¬(route = false ∧ SomeWide S record on)) : PacksFaithfully S record on route := by
  have hnarrow : route = false → ∀ i a, some a ∈ record.row on i → Narrow S a :=
    fun hroute => narrow_of_row hints fun hwide => hpass ⟨hroute, hwide⟩
  obtain ⟨field, hfield, hroute, hover, -⟩ | ⟨-, keysN, hnumpy, hlengthN, hrowsN⟩ :=
    Numpy.packKey_cases S route hhas hne hfew
  · exact absurd ⟨hroute, (awkward_overflows_iff hints).mp
      ⟨field, hfield, hnull.awkward_overflows hfield hover⟩⟩ hpass
  obtain ⟨field, hfield, hroute, hover, -⟩ | ⟨-, keysA, hawkward, hlengthA, hrowsA⟩ :=
    Awkward.packKey_cases S route hhas hne hfew
  · exact absurd ⟨hroute, (awkward_overflows_iff hints).mp ⟨field, hfield, hover⟩⟩ hpass
  have hkeys : keysA = keysN.map some := by
    refine List.ext_getElem? fun i => ?_
    by_cases hi : i < record.length
    · obtain ⟨vs, hrow, hdata⟩ := hnull.exists_row hhas hi
      rw [hrowsA i hi, hrow, Awkward.keyOf_some, List.getElem?_map, hrowsN i hi vs hdata]
      rfl
    · rw [List.getElem?_eq_none (by omega),
        List.getElem?_eq_none (by rw [List.length_map]; omega)]
  have hfaithful : FaithfulKeys S record on route keysA := by
    refine faithfulKeys_of_rows hfew hlengthA (fun i hi => ?_) hnarrow
    obtain ⟨vs, hrow, -⟩ := hnull.exists_row hhas hi
    refine ⟨vs, hrow, ?_⟩
    rw [hrowsA i hi, hrow, Awkward.keyOf_some]
  rw [hkeys] at hawkward hfaithful
  refine ⟨?_, ?_, fun left right hleft hright => ?_⟩
  · rw [hnumpy]
    refine faithfulPack_ok hpass (fun name cells hname hcells => congrArg _ ?_) hfaithful
    refine List.map_congr_left fun cell hcell => (if_neg ?_).symm
    rw [hnull _ (mem_columns_of_lookup hcells) (.inr hname) cell hcell]
    exact Bool.false_ne_true
  · rw [hawkward]
    exact faithfulPack_ok hpass (fun _ _ _ _ => rfl) hfaithful
  · rw [hnumpy] at hleft
    rw [hawkward] at hright
    cases hleft
    cases hright
    rw [lookup_packed_key, lookup_packed_key]

/-- Where nothing stops the packing, a null column is not the numpy backend's. -/
theorem PacksFaithfully.noNulls (h : PacksFaithfully S record on route) (hhas : record.Has on)
    (hne : on ≠ []) (hfew : on.length ≤ 3) (hints : IntegerKeys S record on)
    (hpass : ¬(route = false ∧ SomeWide S record on)) : NoNulls record on := by
  obtain ⟨field, -, -, -, hstop⟩ | ⟨-, keysN, hnumpy, hlengthN, hrowsN⟩ :=
    Numpy.packKey_cases S route hhas hne hfew
  · exact absurd (h.numpy.raises.mp ⟨field, hstop⟩) hpass
  obtain ⟨field, hfield, hroute, hover, -⟩ | ⟨-, keysA, hawkward, hlengthA, hrowsA⟩ :=
    Awkward.packKey_cases S route hhas hne hfew
  · exact absurd ⟨hroute, (awkward_overflows_iff hints).mp ⟨field, hfield, hover⟩⟩ hpass
  intro column hcolumn hread cell hcell
  have hlookup : record.columns.lookup column.1 = some column.2 :=
    lookup_of_nodup record.nodup hcolumn
  by_cases hname : column.1 = "__joinkey__"
  · have hsame := h.same _ _ hnumpy hawkward
    rw [lookup_packed_key, lookup_packed_key, Option.some.injEq,
      PackedColumn.key.injEq] at hsame
    obtain ⟨i, hi⟩ := List.getElem?_of_mem hcell
    have hlt : i < record.length := by
      rw [← record.lengths column hcolumn]
      exact (List.getElem?_eq_some_iff.mp hi).1
    have hfield : column.1 ∈ on := hread.resolve_right fun hne => hne hname
    by_contra hnull
    have hnone : none ∈ record.row on i := by
      refine List.mem_map.mpr ⟨column.1, hfield, ?_⟩
      unfold Block.cellAt
      rw [hlookup, Option.bind_some, hi, Option.bind_some]
      exact if_pos (by simpa using hnull)
    have hkey := hrowsA i hlt
    rw [Awkward.keyOf_none hnone, ← hsame, List.getElem?_map] at hkey
    have hsome : i < keysN.length := by rwa [hlengthN]
    rw [List.getElem?_eq_getElem hsome] at hkey
    cases hkey
  · have hkept := h.numpy.others _ hnumpy column.1 hname
    rw [lookup_packed_other (fun cells => .kept (cells.map fun cell => some cell.data)) _ hname,
      Block.values, hlookup, Option.map_some, Option.map_some,
      Option.map_some, Option.some.injEq, PackedColumn.kept.injEq] at hkept
    have hvalue := List.map_inj_left.mp hkept cell hcell
    unfold Cell.value at hvalue
    by_contra hnull
    rw [if_pos (by simpa using hnull)] at hvalue
    cases hvalue

/-- **Faithful packing.** On integer key values, both backends pack a record faithfully and alike
exactly when no column they read or keep has a null, or a key value that is not null stops them. -/
theorem packsFaithfully_iff (S : Scalars α) (record : Block α) (on : List String) (route : Bool)
    (hhas : record.Has on) (hne : on ≠ []) (hfew : on.length ≤ 3)
    (hints : IntegerKeys S record on) :
    PacksFaithfully S record on route ↔
      NoNulls record on ∨ route = false ∧ SomeWide S record on := by
  by_cases hstop : route = false ∧ SomeWide S record on
  · obtain ⟨⟨left, hleft⟩, ⟨right, hright⟩⟩ := both_stop hhas hne hfew hints hstop.1 hstop.2
    refine ⟨fun _ => .inr hstop, fun _ => ⟨?_, ?_, fun _ _ h => ?_⟩⟩
    · rw [hleft]
      exact faithfulPack_error hstop.1 hstop.2
    · rw [hright]
      exact faithfulPack_error hstop.1 hstop.2
    · rw [hleft] at h
      cases h
  · constructor
    · exact fun h => .inl (h.noNulls hhas hne hfew hints hstop)
    · exact fun h => (h.resolve_right hstop).packsFaithfully hhas hne hfew hints hstop

/-! ### Integer columns -/

/-- The scalars of integer columns. -/
def intScalars : Scalars Int where
  astype a := BitVec.ofInt 64 a
  eq a b := a = b
  lt a b := a < b
  wide a := a < 0 ∨ 2 ^ 20 ≤ a
  int a := if -(2 ^ 63) ≤ a ∧ a < 2 ^ 64 then some a else none
  int_range {a v} h := by
    split at h
    · obtain rfl := Option.some.inj h
      assumption
    · cases h
  astype_int {a v} h := by
    split at h
    · rw [Option.some.inj h]
    · cases h
  astype_eq {a b} h := by rw [h]
  eq_int {a b v w} ha hb := by
    split at ha <;> split at hb <;> cases ha <;> cases hb
    exact Iff.rfl
  lt_int {a b v w} ha hb := by
    split at ha <;> split at hb <;> cases ha <;> cases hb
    exact Iff.rfl
  wide_int {a v} h := by
    split at h <;> cases h
    exact Iff.rfl

/-- Two events of one run. -/
def twoEvents : Block Int where
  length := 2
  columns := [("run", [⟨1, false⟩, ⟨1, false⟩]), ("event", [⟨5, false⟩, ⟨6, false⟩])]
  lengths := by decide
  nodup := by decide

/-- An event whose other column is null, over some data. -/
def maskedEvent : Block Int where
  length := 1
  columns := [("event", [⟨5, false⟩]), ("weight", [⟨7, true⟩])]
  lengths := by decide
  nodup := by decide

/-- The two events are packed faithfully. -/
theorem packsFaithfully_twoEvents :
    PacksFaithfully intScalars twoEvents ["run", "event"] false := by
  have hnull : NoNulls twoEvents ["run", "event"] := by
    have hall : ∀ column ∈ twoEvents.columns, ∀ cell ∈ column.2, cell.null = false := by decide
    exact fun column hcolumn _ => hall column hcolumn
  have hhas : twoEvents.Has ["run", "event"] := by
    intro field hfield
    obtain rfl | hfield := List.mem_cons.mp hfield
    · exact ⟨_, rfl⟩
    · obtain rfl := List.mem_singleton.mp hfield
      exact ⟨_, rfl⟩
  have hvalues : ∀ field values, twoEvents.values field = some values →
      ∀ a, some a ∈ values → 0 ≤ a ∧ a < 7 := by
    intro field values hvalues a ha
    obtain ⟨cells, hcells, rfl⟩ := Option.map_eq_some_iff.mp hvalues
    obtain ⟨cell, hcell, hvalue⟩ := List.mem_map.mp ha
    have hall : ∀ column ∈ twoEvents.columns, ∀ cell ∈ column.2,
        cell.null = false ∧ 0 ≤ cell.data ∧ cell.data < 7 := by decide
    obtain ⟨hvalid, hrange⟩ := hall _ (mem_columns_of_lookup hcells) cell hcell
    rw [Cell.value, hvalid, if_neg Bool.false_ne_true] at hvalue
    rwa [← Option.some.inj hvalue]
  refine (packsFaithfully_iff intScalars twoEvents ["run", "event"] false hhas (by decide)
    (by decide) ?_).mpr (.inl hnull)
  intro field _ values hfield a ha
  obtain ⟨hlow, hhigh⟩ := hvalues field values hfield a ha
  exact ⟨a, if_pos ⟨by omega, by omega⟩⟩

/-- A null weight is read as the data under its mask. -/
theorem masked_unfaithful : ¬PacksFaithfully intScalars maskedEvent ["event"] false := by
  intro h
  have hpack : Numpy.packKey intScalars maskedEvent ["event"] false = .ok
      [("event", .kept [some 5]), ("weight", .kept [some 7]),
        ("__joinkey__", .key [some 5])] := by decide
  have hweight := h.numpy.others _ hpack "weight" (by decide)
  revert hweight
  decide

end Graphed
