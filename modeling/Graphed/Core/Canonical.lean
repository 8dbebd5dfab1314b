import Graphed.Core.Wire

/-!
# Canonical records

The record the writer spells for a node: parameters in key order, booleans as zero or one, a present
flag of one. A spelling determines its record, so a record is the writer's exactly when it is
canonical.
-/

namespace Graphed

open Bytes Codec

/-! ### The record of a node -/

def ParamValue.wire : ParamValue → WireValue
  | int a => .int a
  | float bits => .float bits
  | bool a => .bool (if a then 1 else 0)
  | str a => .str a

def ParamMap.wire (p : ParamMap) : List WireEntry := p.entries.map fun e => (e.1, e.2.wire)

def wireOption : Option String → WireOption
  | some s => .present 1 s
  | none => .absent

def NodeKey.wire : NodeKey → WireNode
  | source name params => .source name params.wire
  | op name params ins => .op name params.wire ins
  | reduction name params ins => .reduction name params.wire ins
  | external d params ins => .external d.kind d.contentHash d.framework d.version d.ioSchema
      (wireOption d.preprocessingRef) params.wire ins
  | stage ins members => .stage ins members
  | exchange scheme ins => .exchange scheme.wire ins
  | join scheme ins => .join scheme.wire ins

@[simp]
theorem ParamValue.value_wire (v : ParamValue) : v.wire.value = v := by
  cases v with
  | bool a => cases a <;> rfl
  | _ => rfl

@[simp]
theorem ParamMap.value_wire (p : ParamMap) : paramsValue p.wire = p := by
  have hmap : p.wire.map entryValue = p.entries := by
    rw [ParamMap.wire, List.map_map]
    refine (List.map_congr_left fun e _ => ?_).trans (List.map_id _)
    simp [entryValue]
  rw [paramsValue, hmap, ParamMap.new_entries]

@[simp]
theorem value_wireOption (r : Option String) : (wireOption r).value = r := by
  cases r <;> rfl

/-- A node's record denotes the node. -/
@[simp]
theorem NodeKey.key_wire (key : NodeKey) : key.wire.key = key := by
  cases key <;> simp [NodeKey.wire, WireNode.key]

/-! ### The writer spells the record -/

/-- The writer's faults are lengths that do not fit a `u32` field. -/
abbrev Puts := Writes (2 ^ 32) EncodeError.mk

theorem puts_len (n : Nat) : Puts (putLen n) [n] (leBytes 4 n) := by
  intro out
  by_cases hn : 2 ^ 32 ≤ n
  · rw [putLen, if_pos hn, List.find?_cons_of_pos (by simpa using hn)]
    rfl
  · rw [putLen, if_neg hn, List.find?_cons_of_neg (by simpa using hn)]
    rfl

theorem puts_str (s : String) : Puts (putStr s) [s.utf8ByteSize] (strBytes s) :=
  (puts_len _).bind (writes_append _)

theorem puts_value (v : ParamValue) : Puts (putValue v) v.wire.fields v.wire.bytes := by
  cases v with
  | int a => exact (writes_append _).bind (writes_append _)
  | float bits => exact (writes_append _).bind (writes_append _)
  | bool a => exact (writes_append _).bind (writes_append _)
  | str a => exact (writes_append _).bind (puts_str a)

theorem puts_params (p : ParamMap) :
    Puts (putParams p) (paramsFields p.wire) (paramsBytes p.wire) := by
  have hentries := Writes.forM (fun e : String × ParamValue =>
    (puts_str e.1).bind (puts_value e.2)) p.entries
  have hall := (puts_len p.entries.length).bind hentries
  have hfields : paramsFields p.wire = [p.entries.length] ++ p.entries.flatMap fun e =>
      [e.1.utf8ByteSize] ++ e.2.wire.fields := by
    simp [paramsFields, ParamMap.wire, List.flatMap_map, entryFields]
  have hbytes : paramsBytes p.wire = leBytes 4 p.entries.length ++ p.entries.flatMap fun e =>
      strBytes e.1 ++ e.2.wire.bytes := by
    simp [paramsBytes, ParamMap.wire, List.flatMap_map, entryBytes]
  rw [hfields, hbytes]
  exact hall

theorem puts_inputs (ins : List Nat) : Puts (putInputs ins) [ins.length] (inputsBytes ins) := by
  have hids : Puts (forM ins putU64) (ins.flatMap fun _ => []) (ins.flatMap (leBytes 8)) :=
    Writes.forM (fun i => writes_append (leBytes 8 i)) ins
  have hall := (puts_len ins.length).bind hids
  have hnil : ins.flatMap (fun _ => ([] : List Nat)) = [] := by simp
  rw [hnil, List.append_nil] at hall
  exact hall

theorem puts_preprocessingRef (r : Option String) :
    Puts (putPreprocessingRef r) (wireOption r).fields (wireOption r).bytes := by
  cases r with
  | none => exact writes_append _
  | some s => exact (writes_append _).bind (puts_str s)

theorem puts_ref (r : StageRef) : Puts (putRef r) [r.index] r.bytes := by
  cases r <;> exact (writes_append _).bind (puts_len _)

theorem puts_member (m : StageOp) : Puts (putMember m) m.fields m.bytes := by
  have hrefs := Writes.forM puts_ref m.inputs
  have hall := (puts_str m.token).bind ((puts_len m.inputs.length).bind hrefs)
  have hindex : m.inputs.flatMap (fun r => [r.index]) = m.inputs.map StageRef.index :=
    List.flatMap_pure_eq_map ..
  rw [hindex] at hall
  exact hall

theorem puts_members (members : List StageOp) :
    Puts (putLen members.length >>= fun _ => forM members putMember) (membersFields members)
      (membersBytes members) :=
  (puts_len members.length).bind (Writes.forM puts_member members)

/-- **Writing a node** spells its record. -/
theorem puts_node (key : NodeKey) : Puts (putNode key) key.wire.fields key.wire.bytes := by
  cases key with
  | source name params => exact (writes_append _).bind ((puts_str _).bind (puts_params _))
  | op name params ins =>
      exact (writes_append _).bind ((puts_str _).bind ((puts_params _).bind (puts_inputs _)))
  | reduction name params ins =>
      exact (writes_append _).bind ((puts_str _).bind ((puts_params _).bind (puts_inputs _)))
  | external d params ins =>
      exact (writes_append _).bind ((puts_str _).bind ((puts_str _).bind ((puts_str _).bind
        ((puts_str _).bind ((puts_str _).bind ((puts_preprocessingRef _).bind
          ((puts_params _).bind (puts_inputs _))))))))
  | stage ins members => exact (writes_append _).bind ((puts_inputs _).bind (puts_members _))
  | exchange scheme ins => exact (writes_append _).bind ((puts_params _).bind (puts_inputs _))
  | join scheme ins => exact (writes_append _).bind ((puts_params _).bind (puts_inputs _))

/-! ### Spellings determine records -/

theorem prefixFree_value :
    PrefixFree (fun w => ∀ n ∈ w.fields, n < 2 ^ 32) WireValue.bytes := by
  refine Read.reads_value.prefixFree fun a b _ _ hval hbytes => ?_
  cases a <;> cases b <;> simp_all [WireValue.value, WireValue.bytes]

theorem prefixFree_entry :
    PrefixFree (fun e => ∀ n ∈ entryFields e, n < 2 ^ 32) entryBytes := by
  refine Read.reads_entry.prefixFree fun ⟨k, v⟩ ⟨k', v'⟩ ha hb hval hbytes => ?_
  simp only [entryValue, Prod.mk.injEq] at hval
  obtain ⟨rfl, -⟩ := hval
  simp only [entryFields, List.mem_cons, forall_eq_or_imp] at ha hb
  simp only [entryBytes, List.append_cancel_left_eq] at hbytes
  obtain ⟨rfl, -⟩ := prefixFree_value v v' [] [] ha.2 hb.2 (by simpa using hbytes)
  rfl

theorem prefixFree_params :
    PrefixFree (fun es => ∀ n ∈ paramsFields es, n < 2 ^ 32) paramsBytes := by
  intro es es' r r' hes hes' heq
  simp only [paramsFields, List.mem_cons, List.mem_flatMap, forall_eq_or_imp] at hes hes'
  simp only [paramsBytes, List.append_assoc] at heq
  obtain ⟨hlen, heq⟩ := prefixFree_leBytes 4 _ _ _ _ hes.1 hes'.1 heq
  exact prefixFree_entry.flatMap hlen (fun e he n hn => hes.2 n ⟨e, he, hn⟩)
    (fun e he n hn => hes'.2 n ⟨e, he, hn⟩) heq

theorem prefixFree_option :
    PrefixFree (fun o : WireOption => (∀ n ∈ o.fields, n < 2 ^ 32) ∧ o.WellFormed)
      WireOption.bytes := by
  have hreads : Reads Read.preprocessingRef
      (fun o : WireOption => (∀ n ∈ o.fields, n < 2 ^ 32) ∧ o.WellFormed) WireOption.value
      WireOption.bytes := fun _ _ _ => Read.preprocessingRef_eq_ok
  refine hreads.prefixFree fun a b _ _ hval hbytes => ?_
  cases a <;> cases b <;> simp_all [WireOption.value, WireOption.bytes]

/-- Two well-formed records spelled the same, up to what follows, are one record. -/
theorem prefixFree_node (idx : Nat) : PrefixFree (WireNode.WellFormed idx) WireNode.bytes := by
  have hparams : ∀ es es' : List WireEntry, (∀ n ∈ paramsFields es, n < 2 ^ 32) →
      (∀ n ∈ paramsFields es', n < 2 ^ 32) → paramsBytes es = paramsBytes es' → es = es' := by
    intro es es' hes hes' heq
    exact (prefixFree_params es es' [] [] hes hes' (by simpa using heq)).1
  refine (Read.reads_node idx).prefixFree fun a b ha hb hval hbytes => ?_
  have hfa := ha.fields_lt
  have hfb := hb.fields_lt
  cases a <;> cases b <;>
    simp only [WireNode.key, NodeKey.source.injEq, NodeKey.op.injEq, NodeKey.reduction.injEq,
      NodeKey.external.injEq, NodeKey.stage.injEq, NodeKey.exchange.injEq, NodeKey.join.injEq,
      PayloadDescriptor.mk.injEq, reduceCtorEq] at hval <;>
    simp only [WireNode.fields, List.mem_cons, List.mem_append, or_imp, forall_and] at hfa hfb
  case source.source =>
    obtain ⟨rfl, -⟩ := hval
    simp only [WireNode.bytes, List.cons.injEq, List.append_cancel_left_eq, true_and] at hbytes
    rw [hparams _ _ hfa.2 hfb.2 hbytes]
  case op.op | reduction.reduction =>
    obtain ⟨rfl, -, rfl⟩ := hval
    simp only [WireNode.bytes, List.cons.injEq, List.append_cancel_left_eq,
      List.append_cancel_right_eq, true_and] at hbytes
    rw [hparams _ _ hfa.2.1 hfb.2.1 hbytes]
  case external.external =>
    obtain ⟨⟨rfl, rfl, rfl, rfl, rfl, -⟩, -, rfl⟩ := hval
    simp only [WireNode.bytes, List.cons.injEq, List.append_cancel_left_eq, true_and] at hbytes
    obtain ⟨-, -, -, -, -, hoa, hpa, -⟩ := hfa
    obtain ⟨-, -, -, -, -, hob, hpb, -⟩ := hfb
    obtain ⟨rfl, htail⟩ := prefixFree_option _ _ _ _ ⟨hoa, ha.option⟩ ⟨hob, hb.option⟩ hbytes
    rw [hparams _ _ hpa hpb (List.append_cancel_right htail)]
  case stage.stage =>
    obtain ⟨rfl, rfl⟩ := hval
    rfl
  case exchange.exchange | join.join =>
    obtain ⟨-, rfl⟩ := hval
    simp only [WireNode.bytes, List.cons.injEq, List.append_cancel_right_eq, true_and] at hbytes
    rw [hparams _ _ hfa.1 hfb.1 hbytes]

/-! ### Canonical records -/

/-- A boolean is spelled zero or one. -/
def WireValue.Canonical : WireValue → Prop
  | bool b => b = 0 ∨ b = 1
  | _ => True

/-- A present flag is one. -/
def WireOption.Canonical : WireOption → Prop
  | present flag _ => flag = 1
  | absent => True

/-- Entries in key order, booleans and the present flag zero or one. -/
@[mk_iff]
structure WireNode.Canonical (w : WireNode) : Prop where
  sorted : w.params.Pairwise fun a b => a.1 ≤ b.1
  values : ∀ e ∈ w.params, e.2.Canonical
  option : w.option.Canonical

theorem WireValue.wire_value_iff (v : WireValue) : v.value.wire = v ↔ v.Canonical := by
  cases v with
  | bool b =>
      simp only [value, ParamValue.wire, Canonical, WireValue.bool.injEq, bne_iff_ne]
      by_cases hb : b = 0
      · simp [hb]
      · rw [if_pos hb]
        exact ⟨fun h => Or.inr h.symm, fun h => (h.resolve_left hb).symm⟩
  | _ => simp [value, ParamValue.wire, Canonical]

theorem wireOption_value_iff {o : WireOption} : wireOption o.value = o ↔ o.Canonical := by
  cases o <;> simp [WireOption.value, wireOption, WireOption.Canonical, eq_comm]

theorem wire_paramsValue_iff (es : List WireEntry) : (paramsValue es).wire = es ↔
    (es.Pairwise fun a b => a.1 ≤ b.1) ∧ ∀ e ∈ es, e.2.Canonical := by
  constructor
  · intro h
    rw [← h]
    refine ⟨?_, fun e he => ?_⟩
    · rw [ParamMap.wire, List.pairwise_map]
      exact (paramsValue es).sorted
    · obtain ⟨e, -, rfl⟩ := List.mem_map.mp he
      exact (WireValue.wire_value_iff _).mp (by rw [ParamValue.value_wire])
  · rintro ⟨hsorted, hvalues⟩
    have hentries : (es.map entryValue).insertionSort ParamMap.keyLE = es.map entryValue := by
      refine List.Pairwise.insertionSort_eq (r := ParamMap.keyLE) ?_
      rw [List.pairwise_map]
      exact hsorted
    rw [ParamMap.wire, paramsValue, ParamMap.new]
    simp only [hentries, List.map_map]
    refine (List.map_congr_left fun e he => ?_).trans (List.map_id es)
    simp [entryValue, (WireValue.wire_value_iff _).mpr (hvalues e he)]

/-- The canonical records are those of the nodes they denote. -/
theorem WireNode.wire_key_iff (w : WireNode) : w.key.wire = w ↔ w.Canonical := by
  have hparams : ∀ es : List WireEntry, (paramsValue es).wire = es ↔ _ := wire_paramsValue_iff
  cases w <;> simp only [key, NodeKey.wire, hparams, wireOption_value_iff, true_and, and_true,
    source.injEq, op.injEq, reduction.injEq, external.injEq, exchange.injEq, join.injEq,
    canonical_iff, params, option, WireOption.Canonical]
  case external => exact ⟨fun h => ⟨h.2.1, h.2.2, h.1⟩, fun h => ⟨h.2.2, h.1, h.2.1⟩⟩
  case stage => simp

end Graphed
