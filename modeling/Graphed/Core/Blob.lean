import Graphed.Core.Canonical

/-!
# Blobs

A blob is the records, the output table and the bytes after it. Reading accepts exactly the
well-formed blobs whose records and outputs re-intern, and writing spells the canonical blob of a
store.
-/

namespace Graphed

open Bytes Codec FirstSeen GraphStore

structure Blob where
  nodes : List WireNode
  outputs : List Nat
  trailing : List UInt8

/-- The bytes of some records and an output table. -/
def tableBytes (ws : List WireNode) (outputs : List Nat) : List UInt8 :=
  magic ++ (leBytes 4 ws.length ++ (ws.flatMap WireNode.bytes ++ inputsBytes outputs))

namespace Blob

def bytes (b : Blob) : List UInt8 := tableBytes b.nodes b.outputs ++ b.trailing

/-- Tables that fit their length fields, of records the reader accepts. -/
structure WellFormed (b : Blob) : Prop where
  nodes_lt : b.nodes.length < 2 ^ 32
  outputs_lt : b.outputs.length < 2 ^ 32
  node : ∀ (i : Nat) (w : WireNode), b.nodes[i]? = some w → w.WellFormed i
  output : ∀ o ∈ b.outputs, o < 2 ^ 64

/-- The nodes the records denote. -/
def keys (b : Blob) : List NodeKey := b.nodes.map WireNode.key

/-- Intern the records and mark the outputs. -/
def build (b : Blob) : Except DecodeError GraphStore :=
  b.keys.foldlM addRecord .new >>= b.outputs.foldlM markRecord

end Blob

/-! ### Writing -/

/-- The lengths and indices a store writes. -/
def storeFields (s : GraphStore) (outputs : List Nat) : List Nat :=
  s.nodes.length :: (s.nodes.flatMap (·.wire.fields) ++ [outputs.length])

theorem puts_store (s : GraphStore) (outputs : List Nat) :
    Puts (putStore s outputs) (storeFields s outputs)
      (tableBytes (s.nodes.map NodeKey.wire) outputs) := by
  have hnodes := Writes.forM puts_node s.nodes
  have hall := (writes_append magic).bind ((puts_len s.nodes.length).bind
    (hnodes.bind (puts_inputs outputs)))
  have hbytes : tableBytes (s.nodes.map NodeKey.wire) outputs =
      magic ++ (leBytes 4 s.nodes.length ++ (s.nodes.flatMap (·.wire.bytes) ++
        inputsBytes outputs)) := by
    rw [tableBytes, List.length_map, List.flatMap_map]
  rw [hbytes]
  exact hall

/-- **Writing a store** spells the canonical blob of its nodes. -/
theorem serializeWith_eq_ok {s : GraphStore} {outputs : List Nat} {b : List UInt8} :
    serializeWith s outputs = .ok b ↔ (∀ n ∈ storeFields s outputs, n < 2 ^ 32) ∧
      b = tableBytes (s.nodes.map NodeKey.wire) outputs := by
  have hputs : putStore s outputs [] = .ok ((), b) ↔ (∀ n ∈ storeFields s outputs, n < 2 ^ 32) ∧
      b = tableBytes (s.nodes.map NodeKey.wire) outputs := (puts_store s outputs).eq_ok_iff
  rw [← hputs, serializeWith]
  cases hrun : putStore s outputs [] with
  | error e => simp [Except.map]
  | ok p => simp [Except.map, Prod.ext_iff]

/-- Writing fails only at a length or an index that does not fit its field. -/
theorem serializeWith_eq_error {s : GraphStore} {outputs : List Nat} {e : EncodeError}
    (h : serializeWith s outputs = .error e) :
    e.n ∈ storeFields s outputs ∧ 2 ^ 32 ≤ e.n := by
  unfold serializeWith at h
  cases hrun : putStore s outputs [] with
  | ok p => simp [hrun, Except.map] at h
  | error e' =>
      obtain rfl : e' = e := by simpa [hrun, Except.map] using h
      obtain ⟨n, hn, hle, rfl⟩ := (puts_store s outputs).eq_error hrun
      exact ⟨hn, hle⟩

/-! ### Reading -/

theorem addRecord_eq_ok {s t : GraphStore} {key : NodeKey} : addRecord s key = .ok t ↔
    (∀ i ∈ key.inputs, i < s.nodes.length) ∧ t = (s.intern key).2 := by
  unfold addRecord addKey
  rcases s.intern_cases key with ⟨i, hi, hbad, h⟩ | ⟨hvalid, ⟨id, -, h⟩ | ⟨-, h⟩⟩ <;> rw [h]
  · simp only [reduceCtorEq, false_iff, not_and]
    exact fun hvalid => absurd (hvalid i hi) (Nat.not_lt.mpr hbad)
  · simpa [eq_comm] using fun _ => hvalid
  · simpa [eq_comm] using fun _ => hvalid

theorem markRecord_eq_ok {s t : GraphStore} {o : Nat} : markRecord s o = .ok t ↔
    o < s.nodes.length ∧ t = (s.markOutput o).2 := by
  unfold markRecord markOutput
  split_ifs with hbad hmem
  · simp only [false_iff, not_and]
    omega
  · simpa [eq_comm] using fun _ => Nat.lt_of_not_le hbad
  · simpa [eq_comm] using fun _ => Nat.lt_of_not_le hbad

theorem foldlM_markRecord_eq_ok {s t : GraphStore} (outs : List Nat) :
    outs.foldlM markRecord s = .ok t ↔ (∀ o ∈ outs, o < s.nodes.length) ∧
      t = outs.foldl (fun s o => (s.markOutput o).2) s := by
  induction outs generalizing s with
  | nil => simp [pure, Except.pure, eq_comm]
  | cons o outs ih =>
      rw [List.foldlM_cons, List.foldl_cons]
      cases hmark : markRecord s o with
      | error e =>
          have hbad : ¬ o < s.nodes.length := fun ho => by
            rw [markRecord_eq_ok.mpr ⟨ho, rfl⟩] at hmark
            exact absurd hmark (by simp)
          simp [bind, Except.bind, hbad]
      | ok s' =>
          obtain ⟨ho, rfl⟩ := markRecord_eq_ok.mp hmark
          have hnodes : (s.markOutput o).2.nodes = s.nodes := nodes_markOutput s o
          change outs.foldlM markRecord (s.markOutput o).2 = _ ↔ _
          rw [ih, hnodes]
          simp [ho]

theorem Read.reads_u64 : Reads Read.u64 (· < 2 ^ 64) id (leBytes 8) := by
  intro s n rest
  rw [Read.u64_eq_ok]
  simp

/-- **Reading a store** accepts the well-formed blobs that re-intern. -/
theorem Read.store_eq_ok {data rest : List UInt8} {s : GraphStore} :
    Read.store data = .ok (s, rest) ↔ ∃ b : Blob, b.WellFormed ∧ b.trailing = rest ∧
      b.bytes = data ∧ b.build = .ok s := by
  simp only [Read.store, bind_eq_ok, take_eq_ok]
  constructor
  · rintro ⟨m, _, ⟨-, rfl⟩, h⟩
    split_ifs at h with hm
    · exact absurd h throw_ne_ok
    · obtain rfl := not_not.mp hm
      simp only [bind_eq_ok, Read.u32_eq_ok, forEach_eq_ok Read.reads_node,
        forEach_eq_ok fun _ => Read.reads_u64] at h
      obtain ⟨_, _, ⟨hn, rfl⟩, s₁, _, ⟨ws, rfl, hws, hbuild, rfl⟩, _, _, ⟨ho, rfl⟩, outs, rfl,
        houts, hmark, rfl⟩ := h
      refine ⟨⟨ws, outs, rest⟩, ⟨hn, ho, fun i w hw => ?_, fun o ho => ?_⟩, rfl, ?_, ?_⟩
      · simpa using hws i w hw
      · obtain ⟨k, hk⟩ := List.mem_iff_getElem?.mp ho
        exact houts k o hk
      · simp only [Blob.bytes, tableBytes, inputsBytes, List.append_assoc]
      · rw [List.map_id] at hmark
        change (_ >>= _) = _
        rw [Blob.keys, hbuild]
        exact hmark
  · rintro ⟨⟨ws, outs, trailing⟩, ⟨hn, ho, hws, houts⟩, rfl, rfl, hbuild⟩
    refine ⟨magic, _, ⟨rfl, by
      simp only [Blob.bytes, tableBytes, List.append_assoc]
      rfl⟩, ?_⟩
    rw [if_neg (not_not.mpr rfl)]
    simp only [bind_eq_ok, Read.u32_eq_ok, forEach_eq_ok Read.reads_node,
      forEach_eq_ok fun _ => Read.reads_u64]
    unfold Blob.build at hbuild
    cases hnodes : (⟨ws, outs, trailing⟩ : Blob).keys.foldlM addRecord .new with
    | error e =>
        rw [hnodes] at hbuild
        exact absurd hbuild (by simp [bind, Except.bind])
    | ok s₁ =>
        rw [hnodes] at hbuild
        exact ⟨_, _, ⟨hn, rfl⟩, s₁, _, ⟨ws, rfl, fun k w hk => by simpa using hws k w hk, hnodes,
          rfl⟩, _, _, ⟨ho, by simp only [inputsBytes, List.append_assoc]⟩, outs, rfl,
          fun k o hk => houts o (List.mem_of_getElem? hk), by rw [List.map_id]; exact hbuild, rfl⟩

theorem deserialize_eq_ok {data : List UInt8} {s : GraphStore} :
    deserialize data = .ok s ↔ ∃ b : Blob, b.WellFormed ∧ b.bytes = data ∧ b.build = .ok s := by
  have hiff : deserialize data = .ok s ↔ ∃ rest, Read.store data = .ok (s, rest) := by
    unfold deserialize
    cases hrun : Read.store data with
    | error e => simp [Except.map]
    | ok p => simp [Except.map, Prod.ext_iff]
  simp only [hiff, Read.store_eq_ok]
  exact ⟨fun ⟨_, b, hb, _, h⟩ => ⟨b, hb, h⟩, fun ⟨b, hb, h⟩ => ⟨b.trailing, b, hb, rfl, h⟩⟩

/-! ### A blob's bytes determine it -/

theorem WireNode.WellFormed.mono {w : WireNode} {i j : Nat} (h : w.WellFormed i) (hij : i ≤ j) :
    w.WellFormed j :=
  ⟨h.fields_lt, h.option, fun x hx => ⟨(h.inputs_lt x hx).1, (h.inputs_lt x hx).2.trans_le hij⟩,
    h.members⟩

theorem Blob.WellFormed.mem {b : Blob} (hb : b.WellFormed) {w : WireNode} (hw : w ∈ b.nodes) :
    w.WellFormed (2 ^ 32) := by
  obtain ⟨i, hi⟩ := List.mem_iff_getElem?.mp hw
  have hlt := (List.getElem?_eq_some_iff.mp hi).1
  exact (hb.node i w hi).mono (hlt.le.trans hb.nodes_lt.le)

theorem Blob.bytes_inj {b c : Blob} (hb : b.WellFormed) (hc : c.WellFormed)
    (h : b.bytes = c.bytes) : b = c := by
  obtain ⟨ws, outs, trailing⟩ := b
  obtain ⟨ws', outs', trailing'⟩ := c
  simp only [bytes, tableBytes, inputsBytes, List.append_assoc,
    List.append_cancel_left_eq] at h
  obtain ⟨hlen, htable⟩ := prefixFree_leBytes 4 _ _ _ _ hb.nodes_lt hc.nodes_lt h
  obtain ⟨rfl, hrest⟩ := (prefixFree_node (2 ^ 32)).flatMap hlen (fun w => hb.mem) (fun w => hc.mem)
    htable
  obtain ⟨hlen', houts⟩ := prefixFree_leBytes 4 _ _ _ _ hb.outputs_lt hc.outputs_lt hrest
  obtain ⟨rfl, rfl⟩ := (prefixFree_leBytes 8).flatMap hlen' hb.output hc.output houts
  rfl

end Graphed
