import Graphed.Core.Blob
import Graphed.Core.Recording

/-!
# Round trips of the durable form

Writing a store and reading it back gives the same arena and outputs. The other way round a blob is
accepted in several spellings, and reading re-interns: the bytes written back are the blob's exactly
when it is canonical, that is when it is spelled as the writer spells it, holds no two equal records
and lists no output twice.
-/

namespace Graphed

open Bytes Codec FirstSeen GraphStore

/-! ### Interning records -/

/-- No two keys are equal under interning. -/
def DistinctKeys (keys : List NodeKey) : Prop := keys.Pairwise fun a b => (a == b) = false

theorem GraphStore.Interned.distinctKeys {s : GraphStore} (hs : s.Interned) :
    DistinctKeys s.nodes := by
  refine List.pairwise_iff_getElem.mpr fun i j hi hj hij => ?_
  rw [Bool.eq_false_iff]
  intro heq
  have := hs.distinct i j _ _ (List.getElem?_eq_getElem hi) (List.getElem?_eq_getElem hj) heq
  omega

/-- What interning some records gives: at most one node for each, and the records themselves when
none is equal to another. -/
theorem foldlM_addRecord {s t : GraphStore} (hs : s.Interned) {keys : List NodeKey}
    (h : keys.foldlM addRecord s = .ok t) : t.Interned ∧ t.outputs = s.outputs ∧
      (∀ key ∈ t.nodes, key ∈ s.nodes ++ keys) ∧
      (DistinctKeys (s.nodes ++ keys) → t.nodes = s.nodes ++ keys) := by
  induction keys generalizing s with
  | nil =>
      obtain rfl : s = t := by simpa [pure, Except.pure] using h
      exact ⟨hs, rfl, by simp, fun _ => (List.append_nil _).symm⟩
  | cons key keys ih =>
      rw [List.foldlM_cons] at h
      cases hadd : addRecord s key with
      | error e =>
          rw [hadd] at h
          exact absurd h (by simp [bind, Except.bind])
      | ok s' =>
          rw [hadd] at h
          obtain ⟨hvalid, rfl⟩ := addRecord_eq_ok.mp hadd
          obtain ⟨hinterned, houts, hsub, hnodes⟩ := ih (hs.intern key) h
          rw [outputs_intern] at houts
          rw [hs.nodes_intern hvalid] at hsub hnodes
          split_ifs at hsub hnodes with hany
          · refine ⟨hinterned, houts, fun k hk => ?_, fun hdistinct => ?_⟩
            · exact List.append_subset.mpr ⟨List.subset_append_left _ _,
                fun x hx => by simp [hx]⟩ (hsub k hk)
            · -- the record is equal to a node held already
              obtain ⟨k, hk, hkey⟩ := List.any_eq_true.mp hany
              have hne := (List.pairwise_append.mp hdistinct).2.2 k hk key List.mem_cons_self
              rw [hne] at hkey
              exact absurd hkey (by decide)
          · rw [List.append_assoc] at hsub hnodes
            exact ⟨hinterned, houts, hsub, hnodes⟩

/-- Distinct records that refer to earlier ones are interned without failure. -/
theorem exists_foldlM_addRecord {s : GraphStore} (hs : s.Interned) {keys : List NodeKey}
    (hdistinct : DistinctKeys (s.nodes ++ keys)) (htopo : TopologicalKeys (s.nodes ++ keys)) :
    ∃ t, keys.foldlM addRecord s = .ok t := by
  induction keys generalizing s with
  | nil => exact ⟨s, rfl⟩
  | cons key keys ih =>
      have hvalid : ∀ i ∈ key.inputs, i < s.nodes.length := htopo s.nodes.length key (by simp)
      have hnodes : (s.intern key).2.nodes = s.nodes ++ [key] := by
        rw [hs.nodes_intern hvalid, if_neg]
        intro hany
        obtain ⟨k, hk, hkey⟩ := List.any_eq_true.mp hany
        rw [(List.pairwise_append.mp hdistinct).2.2 k hk key List.mem_cons_self] at hkey
        exact absurd hkey (by decide)
      rw [List.foldlM_cons, addRecord_eq_ok.mpr ⟨hvalid, rfl⟩]
      have happend : (s.intern key).2.nodes ++ keys = s.nodes ++ key :: keys := by
        rw [hnodes, List.append_assoc]
        rfl
      exact ih (hs.intern key) (happend ▸ hdistinct) (happend ▸ htopo)

/-- What building a blob gives. -/
theorem Blob.build_eq_ok {b : Blob} {s : GraphStore} (h : b.build = .ok s) :
    s.Interned ∧ s.outputs = firsts b.outputs ∧ (∀ key ∈ s.nodes, key ∈ b.keys) ∧
      (DistinctKeys b.keys → s.nodes = b.keys) := by
  unfold build at h
  cases hadd : b.keys.foldlM addRecord .new with
  | error e =>
      rw [hadd] at h
      exact absurd h (by simp [bind, Except.bind])
  | ok s₁ =>
      rw [hadd] at h
      obtain ⟨hinterned, houts, hsub, hnodes⟩ := foldlM_addRecord interned_new hadd
      obtain ⟨hvalid, rfl⟩ := (foldlM_markRecord_eq_ok _).mp h
      obtain ⟨hinterned', hnodes', houts'⟩ := foldl_markOutput hinterned b.outputs hvalid
      rw [houts] at houts'
      rw [hnodes']
      exact ⟨hinterned', houts', hsub, hnodes⟩

/-! ### Decode undoes encode -/

/-- What a store needs to be written and read back: its invariant, and stages whose members refer to
earlier ones. -/
structure GraphStore.Writable (s : GraphStore) : Prop where
  interned : s.Interned
  members : ∀ key ∈ s.nodes, MembersEarlier key.members

/-- The canonical blob of a writable store builds it back, an output listed twice marked once. -/
theorem build_wire {s : GraphStore} (hs : s.Writable) {outputs : List Nat}
    (hvalid : ∀ o ∈ outputs, o < s.nodes.length) (trailing : List UInt8) :
    ∃ t, (⟨s.nodes.map NodeKey.wire, outputs, trailing⟩ : Blob).build = .ok t ∧
      t.nodes = s.nodes ∧ t.outputs = firsts outputs := by
  have hkeys : (⟨s.nodes.map NodeKey.wire, outputs, trailing⟩ : Blob).keys = s.nodes := by
    simp [Blob.keys, Function.comp_def]
  have hdistinct : DistinctKeys (new.nodes ++ s.nodes) := hs.interned.distinctKeys
  obtain ⟨t, ht⟩ := exists_foldlM_addRecord interned_new hdistinct hs.interned.inputs_lt
  obtain ⟨hinterned, houts, -, hnodes⟩ := foldlM_addRecord interned_new ht
  have hnodes' : t.nodes = s.nodes := hnodes hdistinct
  have hvalid' : ∀ o ∈ outputs, o < t.nodes.length := hnodes' ▸ hvalid
  obtain ⟨-, hmnodes, hmouts⟩ := foldl_markOutput hinterned outputs hvalid'
  refine ⟨_, ?_, hmnodes.trans hnodes', ?_⟩
  · rw [Blob.build, hkeys, ht]
    exact (foldlM_markRecord_eq_ok outputs).mpr ⟨hvalid', rfl⟩
  · rw [hmouts, houts]
    rfl

theorem wellFormed_wire {s : GraphStore} (hs : s.Writable) {outputs : List Nat}
    (hvalid : ∀ o ∈ outputs, o < 2 ^ 64)
    (hfields : ∀ n ∈ storeFields s outputs, n < 2 ^ 32) (trailing : List UInt8) :
    (⟨s.nodes.map NodeKey.wire, outputs, trailing⟩ : Blob).WellFormed := by
  simp only [storeFields, List.mem_cons, List.mem_append, List.mem_flatMap, List.not_mem_nil,
    or_false, forall_eq_or_imp] at hfields
  obtain ⟨hlen, hrest⟩ := hfields
  refine ⟨by simpa using hlen, hrest _ (Or.inr rfl), fun i w hw => ?_, hvalid⟩
  · rw [List.getElem?_map, Option.map_eq_some_iff] at hw
    obtain ⟨key, hkey, rfl⟩ := hw
    have hmem := List.mem_of_getElem? hkey
    have hi : i < s.nodes.length := (List.getElem?_eq_some_iff.mp hkey).1
    refine ⟨fun n hn => hrest n (Or.inl ⟨key, hmem, hn⟩), ?_, fun x hx => ?_, ?_⟩
    · cases key with
      | external d params ins => cases hd : d.preprocessingRef <;>
          simp [NodeKey.wire, WireNode.option, wireOption, WireOption.WellFormed, hd]
      | _ => exact trivial
    · rw [NodeKey.key_wire] at hx
      have hxi := hs.interned.inputs_lt i key hkey x hx
      omega
    · rw [NodeKey.key_wire]
      exact hs.members key hmem

theorem lt_of_fits {s : GraphStore} {outputs : List Nat}
    (hfields : ∀ n ∈ storeFields s outputs, n < 2 ^ 32) {o : Nat} (ho : o < s.nodes.length) :
    o < 2 ^ 64 := by
  have hlen := hfields s.nodes.length List.mem_cons_self
  omega

/-- **Decode undoes encode.** Reading the bytes of a store gives its arena back, with exactly the
outputs written, and writing the result gives the same bytes. -/
theorem deserialize_serializeWith {s : GraphStore} (hs : s.Writable) {outputs : List Nat}
    (hnodup : outputs.Nodup) (hvalid : ∀ o ∈ outputs, o < s.nodes.length) {b : List UInt8}
    (h : serializeWith s outputs = .ok b) : ∃ t, deserialize b = .ok t ∧ t.nodes = s.nodes ∧
      t.outputs = outputs ∧ serialize t = .ok b := by
  obtain ⟨hfields, rfl⟩ := serializeWith_eq_ok.mp h
  obtain ⟨t, hbuild, hnodes, houts⟩ := build_wire hs hvalid []
  rw [firsts_of_nodup hnodup] at houts
  have hids : ∀ o ∈ outputs, o < 2 ^ 64 := fun o ho => lt_of_fits hfields (hvalid o ho)
  refine ⟨t, deserialize_eq_ok.mpr ⟨_, wellFormed_wire hs hids hfields [], ?_, hbuild⟩, hnodes,
    houts, ?_⟩
  · rw [Blob.bytes, List.append_nil]
  · rw [serialize, houts, serializeWith_eq_ok, storeFields, hnodes]
    exact ⟨hfields, rfl⟩

/-- Reading the bytes of a store gives its arena back, whichever outputs were written. -/
theorem deserialize_nodes {s : GraphStore} (hs : s.Writable) {outputs : List Nat}
    (hvalid : ∀ o ∈ outputs, o < s.nodes.length) {b : List UInt8}
    (h : serializeWith s outputs = .ok b) : ∃ t, deserialize b = .ok t ∧ t.nodes = s.nodes := by
  obtain ⟨hfields, rfl⟩ := serializeWith_eq_ok.mp h
  obtain ⟨t, hbuild, hnodes, -⟩ := build_wire hs hvalid []
  have hids : ∀ o ∈ outputs, o < 2 ^ 64 := fun o ho => lt_of_fits hfields (hvalid o ho)
  refine ⟨t, deserialize_eq_ok.mpr ⟨_, wellFormed_wire hs hids hfields [], ?_, hbuild⟩, hnodes⟩
  rw [Blob.bytes, List.append_nil]

/-! ### Canonical blobs -/

namespace Blob

/-- Spelled as the writer spells it: canonical records, no two of them equal, no output twice, and
nothing after the output table. -/
structure Canonical (b : Blob) : Prop where
  node : ∀ w ∈ b.nodes, w.Canonical
  distinct : DistinctKeys b.keys
  outputs : b.outputs.Nodup
  trailing : b.trailing = []

/-- The store holds the blob's records at their positions and its outputs, and is written as the
blob. -/
structure ReadBack (b : Blob) (s : GraphStore) : Prop where
  nodes : s.nodes = b.keys
  outputs : s.outputs = b.outputs
  bytes : serialize s = .ok b.bytes

/-- A blob is read back exactly when it is canonical. -/
theorem readBack_iff {b : Blob} (hb : b.WellFormed) {s : GraphStore} (h : b.build = .ok s) :
    b.ReadBack s ↔ b.Canonical := by
  obtain ⟨hinterned, houts, hsub, hnodes⟩ := build_eq_ok h
  have hmembers : ∀ key ∈ s.nodes, MembersEarlier key.members := by
    intro key hkey
    obtain ⟨w, hw, rfl⟩ := List.mem_map.mp (hsub key hkey)
    exact (hb.mem hw).members
  constructor
  · rintro ⟨-, -, hbytes⟩
    obtain ⟨hfields, htable⟩ := serializeWith_eq_ok.mp hbytes
    have hwf := wellFormed_wire ⟨hinterned, hmembers⟩
      (fun o ho => lt_of_fits hfields (hinterned.outputs_lt o ho)) hfields []
    obtain rfl := bytes_inj hb hwf (htable.trans (List.append_nil _).symm)
    have hkeys : (⟨s.nodes.map NodeKey.wire, s.outputs, []⟩ : Blob).keys = s.nodes := by
      simp [keys, Function.comp_def]
    refine ⟨fun w hw => ?_, hkeys.symm ▸ hinterned.distinctKeys, hinterned.outputs_nodup, rfl⟩
    obtain ⟨key, -, rfl⟩ := List.mem_map.mp hw
    exact (WireNode.wire_key_iff _).mp (by rw [NodeKey.key_wire])
  · rintro ⟨hcanon, hdistinct, hnodup, htrailing⟩
    have hsnodes := hnodes hdistinct
    have hsouts : s.outputs = b.outputs := houts.trans (firsts_of_nodup hnodup)
    have hwire : s.nodes.map NodeKey.wire = b.nodes := by
      rw [hsnodes, keys, List.map_map]
      refine (List.map_congr_left fun w hw => ?_).trans (List.map_id _)
      exact (WireNode.wire_key_iff w).mpr (hcanon w hw)
    refine ⟨hsnodes, hsouts, serializeWith_eq_ok.mpr ⟨fun n hn => ?_, ?_⟩⟩
    · rw [storeFields, hsouts, List.mem_cons, List.mem_append, List.mem_singleton,
        ← List.flatMap_map, hwire, ← List.length_map NodeKey.wire, hwire] at hn
      rcases hn with rfl | hn | rfl
      · exact hb.nodes_lt
      · obtain ⟨w, hw, hn⟩ := List.mem_flatMap.mp hn
        exact (hb.mem hw).fields_lt n hn
      · exact hb.outputs_lt
    · rw [hwire, hsouts, bytes, htrailing, List.append_nil]

end Blob

/-- A source recorded twice, another source, and an operator that reads the second record. -/
def repeated : Blob where
  nodes := [.source "x" [], .source "x" [], .source "y" [], .op "f" [] [1]]
  outputs := [2]
  trailing := []

/-- The store `repeated` is read as: the operator reads `y`, and the output is the operator. -/
def repeatedStore : GraphStore where
  nodes := [.source "x" (.new []), .source "y" (.new []), .op "f" (.new []) [1]]
  internTable := [(.op "f" (.new []) [1], 2), (.source "y" (.new []), 1),
    (.source "x" (.new []), 0)]
  outputs := [2]
  nodeMap := []

theorem repeated_wellFormed : repeated.WellFormed := by
  refine ⟨by decide, by decide, fun i w hw => ?_, by decide⟩
  rcases i with _ | _ | _ | _ | i <;> simp [repeated] at hw <;> subst hw <;>
    exact ⟨by decide, trivial, by decide, by simp [MembersEarlier, WireNode.key, NodeKey.members]⟩

theorem deserialize_repeated : deserialize repeated.bytes = .ok repeatedStore :=
  deserialize_eq_ok.mpr ⟨repeated, repeated_wellFormed, rfl, rfl⟩

end Graphed
