import Graphed.Frontend.MethodCalls
import Graphed.Frontend.Subscripts

/-!
# What a recorded call decodes to

A recorded method call is the call that was written, on the evaluated arrays, unless its keywords
have a reserved shape or NumPy does not make one of its scalars again.
-/

namespace Graphed.MethodCalls

open JsonText

variable {F A S V : Type}

/-! ### Keys in order -/

mutual

/-- Every dict has its keys in order. -/
def Arg.InOrder : Arg F A S → Prop
  | .list items => items.InOrder
  | .tuple items => items.InOrder
  | .dict entries => entries.InOrder
  | _ => True

def Args.InOrder : Args F A S → Prop
  | .nil => True
  | .cons item rest => item.InOrder ∧ rest.InOrder

def Entries.InOrder : Entries F A S → Prop
  | .nil => True
  | .cons key value rest => (∀ k ∈ rest.keys, key ≤ k) ∧ value.InOrder ∧ rest.InOrder

end

theorem Entries.mem_keys_insert {key k : List Char} {value : Arg F A S} :
    ∀ {entries : Entries F A S}, k ∈ (entries.insert key value).keys ↔ k = key ∨ k ∈ entries.keys
  | .nil => by simp [Entries.insert, Entries.keys]
  | .cons k' v rest => by
      rw [Entries.insert]
      split
      · simp [Entries.keys]
      · simp [Entries.keys, Entries.mem_keys_insert, or_left_comm]

theorem Entries.inOrder_insert {key : List Char} {value : Arg F A S} (hvalue : value.InOrder) :
    ∀ {entries : Entries F A S}, entries.InOrder → (entries.insert key value).InOrder
  | .nil, _ => ⟨fun _ hk => absurd hk List.not_mem_nil, hvalue, trivial⟩
  | .cons k v rest, ⟨hfirst, hv, hrest⟩ => by
      rw [Entries.insert]
      split
      · rename_i hle
        refine ⟨fun k' hk' => ?_, hvalue, hfirst, hv, hrest⟩
        obtain rfl | hk' := List.mem_cons.mp hk'
        · exact hle
        · exact hle.trans (hfirst k' hk')
      · rename_i hnle
        refine ⟨fun k' hk' => ?_, hv, Entries.inOrder_insert hvalue hrest⟩
        obtain rfl | hk' := Entries.mem_keys_insert.mp hk'
        · exact le_of_not_ge hnle
        · exact hfirst k' hk'

mutual

theorem Arg.inOrder_ordered : ∀ v : Arg F A S, v.ordered.InOrder
  | .list items => Args.inOrder_ordered items
  | .tuple items => Args.inOrder_ordered items
  | .dict entries => Entries.inOrder_ordered entries
  | .array _ => trivial
  | .scalar _ => trivial
  | .none => trivial
  | .bool _ => trivial
  | .int _ => trivial
  | .float _ => trivial
  | .str _ => trivial
  | .other _ => trivial

theorem Args.inOrder_ordered : ∀ items : Args F A S, items.ordered.InOrder
  | .nil => trivial
  | .cons item rest => ⟨item.inOrder_ordered, rest.inOrder_ordered⟩

theorem Entries.inOrder_ordered : ∀ entries : Entries F A S, entries.ordered.InOrder
  | .nil => trivial
  | .cons _ value rest => Entries.inOrder_insert value.inOrder_ordered rest.inOrder_ordered

end

theorem insertField_of_le {key : List Char} {v : Value} :
    ∀ {fields : Fields}, (∀ k ∈ fields.keys, key ≤ k) →
      insertField key v fields = .cons key v fields
  | .nil, _ => rfl
  | .cons _ _ _, h => if_pos (h _ List.mem_cons_self)

/-! ### Recording keeps the inputs so far -/

section Encode

variable {repr : F → Number} {scalar : Place → S → Except Refusal Value}

theorem map_pair_ok {x : Except Refusal Value} {value : Value} {inputs out : List A}
    (h : x.map (fun value => (value, inputs)) = .ok (value, out)) :
    x = .ok value ∧ out = inputs := by
  obtain ⟨v, hv, heq⟩ := Attempts.map_eq_ok_iff.mp h
  cases heq
  exact ⟨hv, rfl⟩

theorem encodeItems_cons {under : Nat → Place} {i : Nat} {item : Arg F A S} {rest : Args F A S}
    {inputs out : List A} {values : Items}
    (h : encodeItems repr scalar under i (.cons item rest) inputs = .ok (values, out)) :
    ∃ value vs mid, encode repr scalar (under i) item inputs = .ok (value, mid) ∧
      encodeItems repr scalar under (i + 1) rest mid = .ok (vs, out) ∧ values = .cons value vs := by
  obtain ⟨⟨value, mid⟩, hvalue, h⟩ := Attempts.bind_eq_ok_iff.mp h
  obtain ⟨⟨vs, last⟩, hvs, h⟩ := Attempts.bind_eq_ok_iff.mp h
  cases h
  exact ⟨value, vs, mid, hvalue, hvs, rfl⟩

theorem encodeEntries_cons {under : List Char → Place} {key : List Char} {item : Arg F A S}
    {rest : Entries F A S} {inputs out : List A} {fields : Fields}
    (h : encodeEntries repr scalar under (.cons key item rest) inputs = .ok (fields, out)) :
    ∃ value fs mid, encode repr scalar (under key) item inputs = .ok (value, mid) ∧
      encodeEntries repr scalar under rest mid = .ok (fs, out) ∧
      fields = .cons key value fs := by
  obtain ⟨⟨value, mid⟩, hvalue, h⟩ := Attempts.bind_eq_ok_iff.mp h
  obtain ⟨⟨fs, last⟩, hfs, h⟩ := Attempts.bind_eq_ok_iff.mp h
  cases h
  exact ⟨value, fs, mid, hvalue, hfs, rfl⟩

theorem encode_list {place : Place} {items : Args F A S} {inputs out : List A} {value : Value}
    (h : encode repr scalar place (.list items) inputs = .ok (value, out)) :
    ∃ values, encodeItems repr scalar place.item 0 items inputs = .ok (values, out) ∧
      value = .arr values := by
  obtain ⟨⟨values, last⟩, hvalues, h⟩ := Attempts.bind_eq_ok_iff.mp h
  cases h
  exact ⟨values, hvalues, rfl⟩

theorem encode_dict {place : Place} {entries : Entries F A S} {inputs out : List A} {value : Value}
    (h : encode repr scalar place (.dict entries) inputs = .ok (value, out)) :
    isReserved entries.keys = false ∧
    ∃ fields, encodeEntries repr scalar place.entry entries inputs = .ok (fields, out) ∧
      value = .obj fields := by
  rw [encode] at h
  split at h
  · cases h
  · rename_i hreserved
    obtain ⟨⟨fields, last⟩, hfields, h⟩ := Attempts.bind_eq_ok_iff.mp h
    cases h
    exact ⟨Bool.eq_false_iff.mpr hreserved, fields, hfields, rfl⟩

theorem encodeEntries_keys {under : List Char → Place} : ∀ {entries : Entries F A S}
    {inputs out : List A} {fields : Fields},
    encodeEntries repr scalar under entries inputs = .ok (fields, out) →
      fields.keys = entries.keys
  | .nil, _, _, _, h => by
      cases h
      rfl
  | .cons key item rest, _, _, _, h => by
      obtain ⟨value, fs, mid, -, hfs, rfl⟩ := encodeEntries_cons h
      exact congrArg (key :: ·) (encodeEntries_keys hfs)

mutual

/-- Inputs join at the end. -/
theorem encode_inputs : ∀ {v : Arg F A S} {place : Place} {inputs out : List A} {value : Value},
    encode repr scalar place v inputs = .ok (value, out) → inputs <+: out
  | .array a, _, inputs, _, _, h => by
      cases h
      exact List.prefix_append inputs [a]
  | .list items, _, _, _, _, h => by
      obtain ⟨values, hvalues, -⟩ := encode_list h
      exact encodeItems_inputs hvalues
  | .tuple items, _, _, _, _, h => by
      obtain ⟨values, hvalues, -⟩ := encode_list h
      exact encodeItems_inputs hvalues
  | .dict entries, _, _, _, _, h => by
      obtain ⟨-, fields, hfields, -⟩ := encode_dict h
      exact encodeEntries_inputs hfields
  | .scalar s, _, _, _, _, h => by
      obtain ⟨-, rfl⟩ := map_pair_ok h
      exact List.prefix_rfl
  | .none, _, _, _, _, h => by
      cases h
      exact List.prefix_rfl
  | .bool _, _, _, _, _, h => by
      cases h
      exact List.prefix_rfl
  | .int _, _, _, _, _, h => by
      cases h
      exact List.prefix_rfl
  | .float _, _, _, _, _, h => by
      cases h
      exact List.prefix_rfl
  | .str _, _, _, _, _, h => by
      cases h
      exact List.prefix_rfl
  | .other _, _, _, _, _, h => by cases h

theorem encodeItems_inputs : ∀ {items : Args F A S} {under : Nat → Place} {i : Nat}
    {inputs out : List A} {values : Items},
    encodeItems repr scalar under i items inputs = .ok (values, out) → inputs <+: out
  | .nil, _, _, _, _, _, h => by
      cases h
      exact List.prefix_rfl
  | .cons item rest, _, _, _, _, _, h => by
      obtain ⟨value, vs, mid, hvalue, hvs, -⟩ := encodeItems_cons h
      exact (encode_inputs hvalue).trans (encodeItems_inputs hvs)

theorem encodeEntries_inputs : ∀ {entries : Entries F A S} {under : List Char → Place}
    {inputs out : List A} {fields : Fields},
    encodeEntries repr scalar under entries inputs = .ok (fields, out) → inputs <+: out
  | .nil, _, _, _, _, h => by
      cases h
      exact List.prefix_rfl
  | .cons key item rest, _, _, _, _, h => by
      obtain ⟨value, fs, mid, hvalue, hfs, -⟩ := encodeEntries_cons h
      exact (encode_inputs hvalue).trans (encodeEntries_inputs hfs)

end

mutual

/-- What is recorded of arguments in order has its keys in order. -/
theorem sortKeys_encode (hscalar : ∀ place s value, scalar place s = .ok value →
      sortKeys value = value) :
    ∀ {v : Arg F A S} {place : Place} {inputs out : List A} {value : Value}, v.InOrder →
      encode repr scalar place v inputs = .ok (value, out) → sortKeys value = value
  | .array a, _, _, _, _, _, h => by
      cases h
      rfl
  | .list items, _, _, _, _, hv, h => by
      obtain ⟨values, hvalues, rfl⟩ := encode_list h
      exact congrArg Value.arr (sortItems_encode hscalar hv hvalues)
  | .tuple items, _, _, _, _, hv, h => by
      obtain ⟨values, hvalues, rfl⟩ := encode_list h
      exact congrArg Value.arr (sortItems_encode hscalar hv hvalues)
  | .dict entries, _, _, _, _, hv, h => by
      obtain ⟨-, fields, hfields, rfl⟩ := encode_dict h
      exact congrArg Value.obj (sortFields_encode hscalar hv hfields)
  | .scalar s, _, _, _, _, _, h => hscalar _ _ _ (map_pair_ok h).1
  | .none, _, _, _, _, _, h => by
      cases h
      rfl
  | .bool _, _, _, _, _, _, h => by
      cases h
      rfl
  | .int _, _, _, _, _, _, h => by
      cases h
      rfl
  | .float _, _, _, _, _, _, h => by
      cases h
      rfl
  | .str _, _, _, _, _, _, h => by
      cases h
      rfl
  | .other _, _, _, _, _, _, h => by cases h

theorem sortItems_encode (hscalar : ∀ place s value, scalar place s = .ok value →
      sortKeys value = value) :
    ∀ {items : Args F A S} {under : Nat → Place} {i : Nat} {inputs out : List A} {values : Items},
      items.InOrder → encodeItems repr scalar under i items inputs = .ok (values, out) →
        sortItems values = values
  | .nil, _, _, _, _, _, _, h => by
      cases h
      rfl
  | .cons item rest, _, _, _, _, _, ⟨hitem, hrest⟩, h => by
      obtain ⟨value, vs, mid, hvalue, hvs, rfl⟩ := encodeItems_cons h
      rw [sortItems, sortKeys_encode hscalar hitem hvalue, sortItems_encode hscalar hrest hvs]

theorem sortFields_encode (hscalar : ∀ place s value, scalar place s = .ok value →
      sortKeys value = value) :
    ∀ {entries : Entries F A S} {under : List Char → Place} {inputs out : List A}
      {fields : Fields}, entries.InOrder →
        encodeEntries repr scalar under entries inputs = .ok (fields, out) →
          sortFields fields = fields
  | .nil, _, _, _, _, _, h => by
      cases h
      rfl
  | .cons key item rest, _, _, _, _, ⟨hfirst, hitem, hrest⟩, h => by
      obtain ⟨value, fs, mid, hvalue, hfs, rfl⟩ := encodeEntries_cons h
      rw [sortFields, sortKeys_encode hscalar hitem hvalue, sortFields_encode hscalar hrest hfs]
      apply insertField_of_le
      rw [encodeEntries_keys hfs]
      exact hfirst

end

mutual

/-- Where an argument stands changes nothing but what a refusal says. -/
theorem encode_place (hscalar : ∀ place place' s value, scalar place s = .ok value →
      scalar place' s = .ok value) :
    ∀ {v : Arg F A S} {place : Place} (place' : Place) {inputs : List A} {x : Value × List A},
      encode repr scalar place v inputs = .ok x → encode repr scalar place' v inputs = .ok x
  | .array _, _, _, _, _, h => h
  | .list items, _, place', _, (value, out), h => by
      obtain ⟨values, hvalues, rfl⟩ := encode_list h
      exact Attempts.bind_eq_ok_iff.mpr ⟨_, encodeItems_place hscalar place'.item 0 hvalues, rfl⟩
  | .tuple items, _, place', _, (value, out), h => by
      obtain ⟨values, hvalues, rfl⟩ := encode_list h
      exact Attempts.bind_eq_ok_iff.mpr ⟨_, encodeItems_place hscalar place'.item 0 hvalues, rfl⟩
  | .dict entries, _, place', _, (value, out), h => by
      obtain ⟨hreserved, fields, hfields, rfl⟩ := encode_dict h
      rw [encode, hreserved, if_neg Bool.false_ne_true]
      exact Attempts.bind_eq_ok_iff.mpr ⟨_, encodeEntries_place hscalar place'.entry hfields, rfl⟩
  | .scalar s, _, place', _, (value, out), h => by
      obtain ⟨hvalue, rfl⟩ := map_pair_ok h
      rw [encode, hscalar _ place' s value hvalue]
      rfl
  | .none, _, _, _, _, h => h
  | .bool _, _, _, _, _, h => h
  | .int _, _, _, _, _, h => h
  | .float _, _, _, _, _, h => h
  | .str _, _, _, _, _, h => h
  | .other _, _, _, _, _, h => by cases h

theorem encodeItems_place (hscalar : ∀ place place' s value, scalar place s = .ok value →
      scalar place' s = .ok value) :
    ∀ {items : Args F A S} {under : Nat → Place} {i : Nat} (under' : Nat → Place) (j : Nat)
      {inputs : List A} {x : Items × List A},
      encodeItems repr scalar under i items inputs = .ok x →
        encodeItems repr scalar under' j items inputs = .ok x
  | .nil, _, _, _, _, _, _, h => h
  | .cons item rest, _, _, under', j, _, (values, out), h => by
      obtain ⟨value, vs, mid, hvalue, hvs, rfl⟩ := encodeItems_cons h
      refine Attempts.bind_eq_ok_iff.mpr ⟨_, encode_place hscalar (under' j) hvalue, ?_⟩
      exact Attempts.bind_eq_ok_iff.mpr ⟨_, encodeItems_place hscalar under' (j + 1) hvs, rfl⟩

theorem encodeEntries_place (hscalar : ∀ place place' s value, scalar place s = .ok value →
      scalar place' s = .ok value) :
    ∀ {entries : Entries F A S} {under : List Char → Place} (under' : List Char → Place)
      {inputs : List A} {x : Fields × List A},
      encodeEntries repr scalar under entries inputs = .ok x →
        encodeEntries repr scalar under' entries inputs = .ok x
  | .nil, _, _, _, _, h => h
  | .cons key item rest, _, under', _, (fields, out), h => by
      obtain ⟨value, fs, mid, hvalue, hfs, rfl⟩ := encodeEntries_cons h
      refine Attempts.bind_eq_ok_iff.mpr ⟨_, encode_place hscalar (under' key) hvalue, ?_⟩
      exact Attempts.bind_eq_ok_iff.mpr ⟨_, encodeEntries_place hscalar under' hfs, rfl⟩

end

end Encode

/-! ### Scalars -/

variable {P : Floats} {N : NumpyScalars P}

theorem encodeItem_place {place : Place} (place' : Place) {s : N.Scalar} {item : Value}
    (h : encodeItem N place s = .ok item) : encodeItem N place' s = .ok item := by
  obtain ⟨x, hx, rfl⟩ := Attempts.map_eq_ok_iff.mp h
  exact Attempts.map_eq_ok_iff.mpr ⟨x, encode_place (fun _ _ s => s.elim) place' hx, rfl⟩

theorem encodeScalar_ok {place : Place} {s : N.Scalar} {value : Value}
    (h : encodeScalar N place s = .ok value) : ∃ item, encodeItem N place s = .ok item ∧
      value = .obj (.cons dtypeKey (.str (N.dtype s)) (.cons valueKey item .nil)) := by
  obtain ⟨item, hitem, hvalue⟩ := Attempts.bind_eq_ok_iff.mp h
  exact ⟨item, hitem, (Except.ok.inj hvalue).symm⟩

theorem revives_iff {place : Place} {s : N.Scalar} {item : Value}
    (h : encodeItem N place s = .ok item) :
    N.Revives s ↔ N.typed (.str (N.dtype s)) item = some s := by
  refine ⟨fun hrevives => hrevives place item h, fun htyped place' item' hitem' => ?_⟩
  have hsame := (encodeItem_place place hitem').symm.trans h
  rwa [Except.ok.inj hsame]

theorem sortKeys_encodeScalar (place : Place) (s : N.Scalar) (value : Value)
    (h : encodeScalar N place s = .ok value) : sortKeys value = value := by
  obtain ⟨item, hitem, rfl⟩ := encodeScalar_ok h
  obtain ⟨⟨value, out⟩, hvalue, rfl⟩ := Attempts.map_eq_ok_iff.mp hitem
  have hsorted := sortKeys_encode (fun _ s => s.elim) (N.item s).inOrder_ordered hvalue
  change Value.obj (insertField _ _ (insertField _ (sortKeys value) .nil)) = _
  rw [hsorted]
  rfl

/-! ### Walking what was recorded -/

theorem isWhole_ofInt (a : Int) : isWhole (.ofInt a) = true := by
  refine List.all_eq_true.mpr fun c hc => ?_
  obtain rfl | hdigit := Integers.repr_chars a c hc
  · rfl
  · rw [hdigit, Bool.true_or]

theorem getItem_prefix {eval : A → V} {inputs : List A} {a : A} {operands : List V}
    (h : (inputs ++ [a]).map eval <+: operands) :
    getItem operands (inputs.length : Int) = some (eval a) := by
  obtain ⟨rest, rfl⟩ := h
  unfold getItem
  rw [if_pos (Int.natCast_nonneg _), Int.toNat_natCast, List.map_append, List.append_assoc,
    List.getElem?_append_right (by rw [List.length_map]), List.length_map, Nat.sub_self]
  rfl

theorem bind_map_eq_some {α β δ : Type} {x : Option α} {y : Option β} {f : α → β → δ} {a : α}
    {b : β} (hf : ∀ a' b', f a' b' = f a b ↔ a' = a ∧ b' = b) :
    (x.bind fun a => y.map (f a)) = some (f a b) ↔ x = some a ∧ y = some b := by
  cases x with
  | none => simp
  | some a' =>
      cases y with
      | none => simp
      | some b' => simp [hf]

mutual

/-- **Decoding an argument**: it is read as it was written just when its scalars are made again. -/
theorem walk_encode (eval : A → V) {operands : List V} :
    ∀ {v : Arg P.Float A N.Scalar} {place : Place} {inputs out : List A} {value : Value},
      encode P.repr (encodeScalar N) place v inputs = .ok (value, out) →
        out.map eval <+: operands →
          (walk N operands value = some (v.asRead eval) ↔ v.Revives)
  | .array a, _, inputs, _, _, h, hout => by
      cases h
      refine iff_of_true ?_ trivial
      have hget : (Fields.cons refKey (.num (.ofInt inputs.length)) .nil).get refKey =
          some (.num (.ofInt inputs.length)) := rfl
      have hint : toInt P (.num (.ofInt inputs.length)) = some (inputs.length : Int) := by
        change (if isWhole _ then _ else _) = _
        rw [isWhole_ofInt, if_pos rfl]
        exact Integers.readInt_repr _
      have hkeys : (Fields.cons refKey (.num (.ofInt inputs.length)) .nil).keys.isPerm [refKey] =
          true := by
        change [refKey].isPerm [refKey] = true
        decide
      rw [walk, if_pos hkeys, hget, Option.bind_some, hint, Option.bind_some,
        getItem_prefix hout]
      rfl
  | .list items, _, _, _, _, h, hout => by
      obtain ⟨values, hvalues, rfl⟩ := encode_list h
      have hitems := walkItems_encode eval hvalues hout
      rw [walk, Arg.Revives, ← hitems]
      change _ = some (Arg.list (items.asRead eval)) ↔ _
      rw [Option.map_eq_some_iff]
      simp
  | .tuple items, _, _, _, _, h, hout => by
      obtain ⟨values, hvalues, rfl⟩ := encode_list h
      have hitems := walkItems_encode eval hvalues hout
      rw [walk, Arg.Revives, ← hitems]
      change _ = some (Arg.list (items.asRead eval)) ↔ _
      rw [Option.map_eq_some_iff]
      simp
  | .dict entries, _, _, _, _, h, hout => by
      obtain ⟨hreserved, fields, hfields, rfl⟩ := encode_dict h
      have hentries := walkFields_encode eval hfields hout
      obtain ⟨href, hdtype⟩ := Bool.or_eq_false_iff.mp hreserved
      rw [walk, encodeEntries_keys hfields, href, hdtype, if_neg Bool.false_ne_true,
        if_neg Bool.false_ne_true, Arg.Revives, ← hentries]
      change _ = some (Arg.dict (entries.asRead eval)) ↔ _
      rw [Option.map_eq_some_iff]
      simp
  | .scalar s, _, _, _, _, h, _ => by
      obtain ⟨hvalue, -⟩ := map_pair_ok h
      obtain ⟨item, hitem, rfl⟩ := encodeScalar_ok hvalue
      have hdtype : (Fields.cons dtypeKey (.str (N.dtype s)) (.cons valueKey item .nil)).get
          dtypeKey = some (.str (N.dtype s)) := rfl
      have hget : (Fields.cons dtypeKey (.str (N.dtype s)) (.cons valueKey item .nil)).get
          valueKey = some item := rfl
      have hkeys : (Fields.cons dtypeKey (.str (N.dtype s)) (.cons valueKey item .nil)).keys =
          [dtypeKey, valueKey] := rfl
      rw [walk, hkeys, if_neg (by decide), if_pos (by decide), hdtype, Option.bind_some, hget,
        Option.bind_some, Arg.Revives, revives_iff hitem]
      change _ = some (Arg.scalar s) ↔ _
      rw [Option.map_eq_some_iff]
      simp
  | .none, _, _, _, _, h, _ => by
      cases h
      exact iff_of_true rfl trivial
  | .bool value, _, _, _, _, h, _ => by
      cases h
      cases value <;> exact iff_of_true rfl trivial
  | .int value, _, _, _, _, h, _ => by
      cases h
      refine iff_of_true ?_ trivial
      have hread : Integers.readInt (Number.ofInt value).text = some value :=
        Integers.readInt_repr value
      rw [walk, isWhole_ofInt, if_pos rfl, hread]
      rfl
  | .float x, _, _, _, _, h, _ => by
      cases h
      refine iff_of_true ?_ trivial
      rw [walk, P.repr_real, if_neg Bool.false_ne_true, P.read_repr]
      rfl
  | .str _, _, _, _, _, h, _ => by
      cases h
      exact iff_of_true rfl trivial
  | .other _, _, _, _, _, h, _ => by cases h

theorem walkItems_encode (eval : A → V) {operands : List V} :
    ∀ {items : Args P.Float A N.Scalar} {under : Nat → Place} {i : Nat} {inputs out : List A}
      {values : Items}, encodeItems P.repr (encodeScalar N) under i items inputs =
          .ok (values, out) → out.map eval <+: operands →
        (walkItems N operands values = some (items.asRead eval) ↔ items.Revives)
  | .nil, _, _, _, _, _, h, _ => by
      cases h
      exact iff_of_true rfl trivial
  | .cons item rest, _, _, _, _, _, h, hout => by
      obtain ⟨value, vs, mid, hvalue, hvs, rfl⟩ := encodeItems_cons h
      have hmid := ((encodeItems_inputs hvs).map eval).trans hout
      rw [Args.Revives, ← walk_encode eval hvalue hmid, ← walkItems_encode eval hvs hout, walkItems]
      exact bind_map_eq_some (f := Args.cons) fun a b => Args.cons.injEq _ _ _ _ ▸ Iff.rfl

theorem walkFields_encode (eval : A → V) {operands : List V} :
    ∀ {entries : Entries P.Float A N.Scalar} {under : List Char → Place} {inputs out : List A}
      {fields : Fields}, encodeEntries P.repr (encodeScalar N) under entries inputs =
          .ok (fields, out) → out.map eval <+: operands →
        (walkFields N operands fields = some (entries.asRead eval) ↔ entries.Revives)
  | .nil, _, _, _, _, h, _ => by
      cases h
      exact iff_of_true rfl trivial
  | .cons key item rest, _, _, _, _, h, hout => by
      obtain ⟨value, fs, mid, hvalue, hfs, rfl⟩ := encodeEntries_cons h
      have hmid := ((encodeEntries_inputs hfs).map eval).trans hout
      rw [Entries.Revives, ← walk_encode eval hvalue hmid, ← walkFields_encode eval hfs hout,
        walkFields]
      refine bind_map_eq_some (f := Entries.cons key) fun a b => ?_
      rw [Entries.cons.injEq, and_iff_right rfl]

end

/-! ### Calls -/

theorem Entries.keys_insert (key : List Char) (value : Arg F A S) : ∀ entries : Entries F A S,
    (entries.insert key value).keys.Perm (key :: entries.keys)
  | .nil => .refl _
  | .cons k v rest => by
      rw [Entries.insert]
      split
      · exact .refl _
      · exact ((Entries.keys_insert key value rest).cons k).trans (.swap _ _ _)

theorem Entries.keys_ordered : ∀ entries : Entries F A S, entries.ordered.keys.Perm entries.keys
  | .nil => .refl _
  | .cons key value rest =>
      (Entries.keys_insert key value.ordered rest.ordered).trans (rest.keys_ordered.cons key)

theorem isReserved_perm {keys keys' : List (List Char)} (h : keys.Perm keys') :
    isReserved keys = isReserved keys' := by
  have hsame : ∀ names : List (List Char), keys.isPerm names = keys'.isPerm names := by
    intro names
    rw [Bool.eq_iff_iff, List.isPerm_iff, List.isPerm_iff]
    exact ⟨h.symm.trans, h.trans⟩
  unfold isReserved
  rw [hsame, hsame]

theorem Entries.revives_insert {key : List Char} {value : Arg P.Float A N.Scalar} :
    ∀ {entries : Entries P.Float A N.Scalar},
      (entries.insert key value).Revives ↔ value.Revives ∧ entries.Revives
  | .nil => Iff.rfl
  | .cons k v rest => by
      rw [Entries.insert]
      split
      · exact Iff.rfl
      · rw [Entries.Revives, Entries.revives_insert, Entries.Revives, and_left_comm]

mutual

theorem Arg.revives_ordered : ∀ v : Arg P.Float A N.Scalar, v.ordered.Revives ↔ v.Revives
  | .list items => Args.revives_ordered items
  | .tuple items => Args.revives_ordered items
  | .dict entries => Entries.revives_ordered entries
  | .array _ => Iff.rfl
  | .scalar _ => Iff.rfl
  | .none => Iff.rfl
  | .bool _ => Iff.rfl
  | .int _ => Iff.rfl
  | .float _ => Iff.rfl
  | .str _ => Iff.rfl
  | .other _ => Iff.rfl

theorem Args.revives_ordered : ∀ items : Args P.Float A N.Scalar,
    items.ordered.Revives ↔ items.Revives
  | .nil => Iff.rfl
  | .cons item rest => and_congr item.revives_ordered rest.revives_ordered

theorem Entries.revives_ordered : ∀ entries : Entries P.Float A N.Scalar,
    entries.ordered.Revives ↔ entries.Revives
  | .nil => Iff.rfl
  | .cons _ value rest => by
      rw [Entries.ordered, Entries.revives_insert, value.revives_ordered, rest.revives_ordered]
      exact Iff.rfl

end

/-- The call, decoded on evaluated inputs, is the call that was written. -/
def Decodes (N : NumpyScalars P) (eval : A → V) (args : Args P.Float A N.Scalar)
    (kwargs : Entries P.Float A N.Scalar) (inputs : List A) (params : Params) : Prop :=
  decodeCall N params.args (inputs.map eval) = some (.list (args.ordered.asRead eval)) ∧
    decodeCall N params.kwargs (inputs.map eval) = some (.dict (kwargs.ordered.asRead eval))

/-- No keyword names of a reserved shape, and no scalar that NumPy does not make again. -/
structure Decodable (N : NumpyScalars P) (args : Args P.Float A N.Scalar)
    (kwargs : Entries P.Float A N.Scalar) : Prop where
  keywords : isReserved kwargs.keys = false
  args : args.Revives
  kwargs : kwargs.Revives

/-- Keywords of a reserved shape are no keywords any more. -/
theorem walk_reserved {operands : List V} {fields : Fields} (h : isReserved fields.keys = true)
    (entries : Entries P.Float V N.Scalar) :
    walk N operands (.obj fields) ≠ some (.dict entries) := by
  rw [walk]
  split
  · intro hdict
    obtain ⟨i, -, hitem⟩ := Option.bind_eq_some_iff.mp hdict
    obtain ⟨v, -, hv⟩ := Option.map_eq_some_iff.mp hitem
    cases hv
  · rename_i href
    have hdtype : fields.keys.isPerm [dtypeKey, valueKey] = true := by
      rw [isReserved, Bool.eq_false_iff.mpr href, Bool.false_or] at h
      exact h
    rw [if_pos hdtype]
    intro hdict
    obtain ⟨dtype, -, hrest⟩ := Option.bind_eq_some_iff.mp hdict
    obtain ⟨value, -, hvalue⟩ := Option.bind_eq_some_iff.mp hrest
    obtain ⟨s, -, hs⟩ := Option.map_eq_some_iff.mp hvalue
    cases hs

/-- When a recorded call decodes. -/
theorem decodes_iff {receiver : A} {name : String} {args : Args P.Float A N.Scalar}
    {kwargs : Entries P.Float A N.Scalar} {inputs : List A} {params : Params} (eval : A → V)
    (h : methodParams N receiver name args kwargs = .ok (inputs, params)) :
    Decodes N eval args kwargs inputs params ↔ Decodable N args kwargs := by
  obtain ⟨⟨values, mid⟩, hvalues, h⟩ := Attempts.bind_eq_ok_iff.mp h
  obtain ⟨⟨fields, out⟩, hfields, h⟩ := Attempts.bind_eq_ok_iff.mp h
  cases h
  have hsorted := sortItems_encode sortKeys_encodeScalar args.inOrder_ordered hvalues
  have hsorted' := sortFields_encode sortKeys_encodeScalar kwargs.inOrder_ordered hfields
  have hkeys : isReserved fields.keys = isReserved kwargs.keys := by
    rw [encodeEntries_keys hfields]
    exact isReserved_perm kwargs.keys_ordered
  have hargs : decodeCall N (dumps (sortKeys (.arr values))) (inputs.map eval) =
      some (.list (args.ordered.asRead eval)) ↔ args.Revives := by
    rw [sortKeys, hsorted, decodeCall, loads_dumps, Option.bind_some, walk, ← args.revives_ordered,
      ← walkItems_encode eval hvalues ((encodeEntries_inputs hfields).map eval),
      Option.map_eq_some_iff]
    simp
  have hkwargs : decodeCall N (dumps (sortKeys (.obj fields))) (inputs.map eval) =
      some (.dict (kwargs.ordered.asRead eval)) ↔
        isReserved kwargs.keys = false ∧ kwargs.Revives := by
    rw [sortKeys, hsorted', decodeCall, loads_dumps, Option.bind_some, ← hkeys]
    cases hreserved : isReserved fields.keys with
    | true => exact iff_of_false (walk_reserved hreserved _) fun hfalse => Bool.noConfusion hfalse.1
    | false =>
        obtain ⟨href, hdtype⟩ := Bool.or_eq_false_iff.mp hreserved
        rw [walk, href, hdtype, if_neg Bool.false_ne_true, if_neg Bool.false_ne_true,
          ← kwargs.revives_ordered, ← walkFields_encode eval hfields List.prefix_rfl,
          Option.map_eq_some_iff]
        simp
  unfold Decodes
  rw [hargs, hkwargs]
  exact ⟨fun hall => ⟨hall.2.1, hall.1, hall.2.2⟩,
    fun hall => ⟨hall.args, hall.keywords, hall.kwargs⟩⟩

/-- Floats by their text. -/
def textFloats : Floats where
  Float := { n : Number // isWhole n = false }
  repr := Subtype.val
  read n := if h : isWhole n = false then ⟨n, h⟩ else ⟨⟨['0', '.', '0'], by decide⟩, by decide⟩
  trunc x := (Integers.readInt (x.val.text.takeWhile (· ≠ '.'))).getD 0
  repr_real x := x.property
  read_repr x := dif_pos x.property

/-- NumPy's two booleans. -/
def boolScalars : NumpyScalars textFloats where
  Scalar := Bool
  item := .bool
  dtype _ := ['b', 'o', 'o', 'l']
  typed
    | .str name, .word .true => if name = ['b', 'o', 'o', 'l'] then some true else none
    | .str name, .word .false => if name = ['b', 'o', 'o', 'l'] then some false else none
    | _, _ => none

end Graphed.MethodCalls
