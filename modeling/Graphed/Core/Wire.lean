import Graphed.Core.Serialize

/-!
# Records on the wire

What a blob spells before it is interpreted: parameter entries in the order they are written, and
the bytes a flag is spelled with. The reader accepts exactly the spellings of well-formed records,
and the writer spells a node as its canonical record.
-/

namespace Graphed

open Bytes Codec

/-- A parameter value as it is spelled: a boolean is any byte, read as true when it is not zero. -/
inductive WireValue where
  | int (a : Int64)
  | float (bits : UInt64)
  | bool (b : UInt8)
  | str (a : String)

abbrev WireEntry := String × WireValue

/-- An optional string: the present flag is any byte but zero. -/
inductive WireOption where
  | absent
  | present (flag : UInt8) (s : String)

/-- A node record. -/
inductive WireNode where
  | source (name : String) (params : List WireEntry)
  | op (name : String) (params : List WireEntry) (inputs : List Nat)
  | reduction (name : String) (params : List WireEntry) (inputs : List Nat)
  | external (kind contentHash framework version ioSchema : String) (ref : WireOption)
      (params : List WireEntry) (inputs : List Nat)
  | stage (inputs : List Nat) (members : List StageOp)
  | exchange (scheme : List WireEntry) (inputs : List Nat)
  | join (scheme : List WireEntry) (inputs : List Nat)

/-! ### Spellings, their length fields and what they denote -/

def strBytes (s : String) : List UInt8 := leBytes 4 s.utf8ByteSize ++ s.toByteArray.data.toList

namespace WireValue

def bytes : WireValue → List UInt8
  | int a => 0 :: leBytes 8 a.toUInt64.toNat
  | float bits => 1 :: leBytes 8 bits.toNat
  | bool b => [2, b]
  | str a => 3 :: strBytes a

def fields : WireValue → List Nat
  | str a => [a.utf8ByteSize]
  | _ => []

def value : WireValue → ParamValue
  | int a => .int a
  | float bits => .float bits
  | bool b => .bool (b != 0)
  | str a => .str a

end WireValue

def entryBytes (e : WireEntry) : List UInt8 := strBytes e.1 ++ e.2.bytes

def entryFields (e : WireEntry) : List Nat := e.1.utf8ByteSize :: e.2.fields

def entryValue (e : WireEntry) : String × ParamValue := (e.1, e.2.value)

def paramsBytes (es : List WireEntry) : List UInt8 := leBytes 4 es.length ++ es.flatMap entryBytes

def paramsFields (es : List WireEntry) : List Nat := es.length :: es.flatMap entryFields

def paramsValue (es : List WireEntry) : ParamMap := .new (es.map entryValue)

def inputsBytes (ins : List Nat) : List UInt8 := leBytes 4 ins.length ++ ins.flatMap (leBytes 8)

namespace WireOption

def bytes : WireOption → List UInt8
  | absent => [0]
  | present flag s => flag :: strBytes s

def fields : WireOption → List Nat
  | absent => []
  | present _ s => [s.utf8ByteSize]

def value : WireOption → Option String
  | absent => none
  | present _ s => some s

/-- A present flag is not zero. -/
def WellFormed : WireOption → Prop
  | absent => True
  | present flag _ => flag ≠ 0

end WireOption

namespace StageRef

def bytes : StageRef → List UInt8
  | input i => 0 :: leBytes 4 i
  | member i => 1 :: leBytes 4 i

def index : StageRef → Nat
  | input i | member i => i

/-- A reference of member `m` to another member is to an earlier one. -/
def Earlier (m : Nat) : StageRef → Prop
  | input _ => True
  | member i => i < m

end StageRef

namespace StageOp

def bytes (m : StageOp) : List UInt8 :=
  strBytes m.token ++ (leBytes 4 m.inputs.length ++ m.inputs.flatMap StageRef.bytes)

def fields (m : StageOp) : List Nat :=
  m.token.utf8ByteSize :: m.inputs.length :: m.inputs.map StageRef.index

end StageOp

def membersBytes (members : List StageOp) : List UInt8 :=
  leBytes 4 members.length ++ members.flatMap StageOp.bytes

def membersFields (members : List StageOp) : List Nat :=
  members.length :: members.flatMap StageOp.fields

/-- Members refer to earlier members of their stage. -/
def MembersEarlier (members : List StageOp) : Prop :=
  ∀ (m : Nat) (op : StageOp), members[m]? = some op → ∀ r ∈ op.inputs, r.Earlier m

def NodeKey.members : NodeKey → List StageOp
  | stage _ members => members
  | _ => []

@[simp]
theorem NodeKey.members_withInputs (key : NodeKey) (ins : List Nat) :
    (key.withInputs ins).members = key.members := by
  cases key <;> rfl

@[simp]
theorem NodeKey.members_canon (key : NodeKey) : key.canon.members = key.members := by
  cases key <;> rfl

namespace WireNode

def bytes : WireNode → List UInt8
  | source name params => 0 :: (strBytes name ++ paramsBytes params)
  | op name params ins => 1 :: (strBytes name ++ (paramsBytes params ++ inputsBytes ins))
  | reduction name params ins => 2 :: (strBytes name ++ (paramsBytes params ++ inputsBytes ins))
  | external kind contentHash framework version ioSchema ref params ins =>
      3 :: (strBytes kind ++ (strBytes contentHash ++ (strBytes framework ++ (strBytes version ++
        (strBytes ioSchema ++ (ref.bytes ++ (paramsBytes params ++ inputsBytes ins)))))))
  | stage ins members => 4 :: (inputsBytes ins ++ membersBytes members)
  | exchange scheme ins => 5 :: (paramsBytes scheme ++ inputsBytes ins)
  | join scheme ins => 6 :: (paramsBytes scheme ++ inputsBytes ins)

def fields : WireNode → List Nat
  | source name params => name.utf8ByteSize :: paramsFields params
  | op name params ins | reduction name params ins =>
      name.utf8ByteSize :: (paramsFields params ++ [ins.length])
  | external kind contentHash framework version ioSchema ref params ins =>
      kind.utf8ByteSize :: contentHash.utf8ByteSize :: framework.utf8ByteSize ::
        version.utf8ByteSize :: ioSchema.utf8ByteSize ::
        (ref.fields ++ (paramsFields params ++ [ins.length]))
  | stage ins members => ins.length :: membersFields members
  | exchange scheme ins | join scheme ins => paramsFields scheme ++ [ins.length]

def key : WireNode → NodeKey
  | source name params => .source name (paramsValue params)
  | op name params ins => .op name (paramsValue params) ins
  | reduction name params ins => .reduction name (paramsValue params) ins
  | external kind contentHash framework version ioSchema ref params ins =>
      .external ⟨kind, contentHash, framework, version, ioSchema, ref.value⟩ (paramsValue params)
        ins
  | stage ins members => .stage ins members
  | exchange scheme ins => .exchange (paramsValue scheme) ins
  | join scheme ins => .join (paramsValue scheme) ins

def params : WireNode → List WireEntry
  | source _ params | op _ params _ | reduction _ params _ | external _ _ _ _ _ _ params _
  | exchange params _ | join params _ => params
  | stage _ _ => []

def option : WireNode → WireOption
  | external _ _ _ _ _ ref _ _ => ref
  | _ => .absent

/-- What the reader checks of a record at position `idx`: lengths that fit their fields, a present
flag that is not zero, and references to records and members before it. -/
structure WellFormed (idx : Nat) (w : WireNode) : Prop where
  fields_lt : ∀ n ∈ w.fields, n < 2 ^ 32
  option : w.option.WellFormed
  inputs_lt : ∀ i ∈ w.key.inputs, i < 2 ^ 64 ∧ i < idx
  members : MembersEarlier w.key.members

end WireNode

/-! ### The reader accepts the spellings of well-formed records -/

namespace Read

theorem u8_eq_ok {b : UInt8} {s rest : List UInt8} : u8 s = .ok (b, rest) ↔ s = b :: rest :=
  byte_eq_ok

theorem u32_eq_ok {n : Nat} {s rest : List UInt8} :
    u32 s = .ok (n, rest) ↔ n < 2 ^ 32 ∧ s = leBytes 4 n ++ rest :=
  number_eq_ok

theorem u64_eq_ok {n : Nat} {s rest : List UInt8} :
    u64 s = .ok (n, rest) ↔ n < 2 ^ 64 ∧ s = leBytes 8 n ++ rest :=
  number_eq_ok

theorem toNat_ofNat_of_lt {n : Nat} (hn : n < 2 ^ 64) : (UInt64.ofNat n).toNat = n := by
  rw [UInt64.toNat_ofNat', Nat.mod_eq_of_lt hn]

theorem fromUTF8?_eq_some {b : List UInt8} {s : String} :
    String.fromUTF8? ⟨b.toArray⟩ = some s ↔ s.toByteArray.data.toList = b := by
  unfold String.fromUTF8?
  split_ifs with h
  · constructor
    · intro h'
      obtain rfl := Option.some.inj h'
      simp [String.fromUTF8]
    · rintro rfl
      simp [String.fromUTF8]
  · constructor
    · simp
    · rintro rfl
      exact absurd s.isValidUTF8 (by simpa using h)

theorem string_eq_ok {t : String} {s rest : List UInt8} :
    string s = .ok (t, rest) ↔ t.utf8ByteSize < 2 ^ 32 ∧ s = strBytes t ++ rest := by
  have hsize : t.toByteArray.data.toList.length = t.utf8ByteSize := by simp
  simp only [string, bind_eq_ok, u32_eq_ok, take_eq_ok]
  constructor
  · rintro ⟨n, mid, ⟨hn, rfl⟩, b, mid', ⟨rfl, rfl⟩, hstr⟩
    cases hutf : String.fromUTF8? ⟨b.toArray⟩ with
    | none =>
        rw [hutf] at hstr
        exact absurd hstr throw_ne_ok
    | some t' =>
        rw [hutf] at hstr
        obtain ⟨rfl, rfl⟩ := pure_eq_ok.mp hstr
        obtain rfl := fromUTF8?_eq_some.mp hutf
        rw [hsize] at hn ⊢
        exact ⟨hn, by rw [strBytes, List.append_assoc]⟩
  · rintro ⟨ht, rfl⟩
    refine ⟨_, _, ⟨ht, by rw [strBytes, List.append_assoc]⟩, _, _, ⟨hsize, rfl⟩, ?_⟩
    rw [fromUTF8?_eq_some.mpr rfl]
    exact pure_eq_ok.mpr ⟨rfl, rfl⟩

theorem reads_string : Reads string (fun s => s.utf8ByteSize < 2 ^ 32) id strBytes := by
  intro s t rest
  rw [string_eq_ok]
  simp

theorem reads_value :
    Reads value (fun w => ∀ n ∈ w.fields, n < 2 ^ 32) WireValue.value WireValue.bytes := by
  intro s v rest
  simp only [value, bind_eq_ok, u8_eq_ok]
  constructor
  · rintro ⟨tag, mid, rfl, h⟩
    split_ifs at h with h0 h1 h2 h3
    · simp only [bind_eq_ok, u64_eq_ok, pure_eq_ok] at h
      obtain ⟨n, mid', ⟨hn, rfl⟩, rfl, rfl⟩ := h
      refine ⟨.int (UInt64.ofNat n).toInt64, by simp [WireValue.fields], rfl, ?_⟩
      rw [WireValue.bytes, UInt64.toUInt64_toInt64, toNat_ofNat_of_lt hn, h0]
      rfl
    · simp only [bind_eq_ok, u64_eq_ok, pure_eq_ok] at h
      obtain ⟨n, mid', ⟨hn, rfl⟩, rfl, rfl⟩ := h
      refine ⟨.float (UInt64.ofNat n), by simp [WireValue.fields], rfl, ?_⟩
      rw [WireValue.bytes, toNat_ofNat_of_lt hn, h1]
      rfl
    · simp only [bind_eq_ok, u8_eq_ok, pure_eq_ok] at h
      obtain ⟨b, mid', rfl, rfl, rfl⟩ := h
      exact ⟨.bool b, by simp [WireValue.fields], rfl, by simp [WireValue.bytes, h2]⟩
    · simp only [bind_eq_ok, string_eq_ok, pure_eq_ok] at h
      obtain ⟨t, mid', ⟨ht, rfl⟩, rfl, rfl⟩ := h
      exact ⟨.str t, by simpa [WireValue.fields] using ht, rfl, by simp [WireValue.bytes, h3]⟩
    · exact absurd h throw_ne_ok
  · rintro ⟨w, hw, rfl, rfl⟩
    cases w with
    | int a =>
        refine ⟨0, _, rfl, bind_eq_ok.mpr ⟨_, rest, u64_eq_ok.mpr ⟨a.toUInt64.toNat_lt, rfl⟩,
          pure_eq_ok.mpr ⟨?_, rfl⟩⟩⟩
        simp [WireValue.value]
    | float bits =>
        refine ⟨1, _, rfl, bind_eq_ok.mpr ⟨_, rest, u64_eq_ok.mpr ⟨bits.toNat_lt, rfl⟩,
          pure_eq_ok.mpr ⟨?_, rfl⟩⟩⟩
        simp [WireValue.value]
    | bool b =>
        exact ⟨2, _, rfl, bind_eq_ok.mpr ⟨b, rest, u8_eq_ok.mpr rfl, pure_eq_ok.mpr ⟨rfl, rfl⟩⟩⟩
    | str a =>
        exact ⟨3, _, rfl, bind_eq_ok.mpr ⟨a, rest,
          string_eq_ok.mpr ⟨hw _ (by simp [WireValue.fields]), rfl⟩, pure_eq_ok.mpr ⟨rfl, rfl⟩⟩⟩

theorem reads_entry :
    Reads entry (fun e => ∀ n ∈ entryFields e, n < 2 ^ 32) entryValue entryBytes := by
  intro s v rest
  simp only [entry, bind_eq_ok, string_eq_ok, pure_eq_ok, reads_value _ _ _]
  constructor
  · rintro ⟨k, _, ⟨hk, rfl⟩, _, _, ⟨w, hw, rfl, rfl⟩, rfl, rfl⟩
    refine ⟨(k, w), fun n hn => ?_, rfl, by rw [entryBytes, List.append_assoc]⟩
    rcases List.mem_cons.mp hn with rfl | hn
    · exact hk
    · exact hw n hn
  · rintro ⟨⟨k, w⟩, he, rfl, rfl⟩
    exact ⟨k, _, ⟨he _ (by simp [entryFields]), by rw [entryBytes, List.append_assoc]⟩, _, _,
      ⟨w, fun n hn => he n (by simp [entryFields, hn]), rfl, rfl⟩, rfl, rfl⟩

theorem params_eq_ok {p : ParamMap} {s rest : List UInt8} :
    params s = .ok (p, rest) ↔ ∃ es, (∀ n ∈ paramsFields es, n < 2 ^ 32) ∧ paramsValue es = p ∧
      s = paramsBytes es ++ rest := by
  simp only [params, bind_eq_ok, u32_eq_ok, pure_eq_ok, collect_eq_ok fun _ => reads_entry]
  constructor
  · rintro ⟨n, _, ⟨hn, rfl⟩, _, _, ⟨es, rfl, hes, rfl, rfl⟩, rfl, rfl⟩
    refine ⟨es, fun m hm => ?_, rfl, by rw [paramsBytes, List.append_assoc]⟩
    rcases List.mem_cons.mp hm with rfl | hm
    · exact hn
    · obtain ⟨e, he, hm⟩ := List.mem_flatMap.mp hm
      obtain ⟨k, hk⟩ := List.mem_iff_getElem?.mp he
      exact hes k e hk m hm
  · rintro ⟨es, hes, rfl, rfl⟩
    refine ⟨_, _, ⟨hes _ List.mem_cons_self, by rw [paramsBytes, List.append_assoc]⟩, _, _,
      ⟨es, rfl, fun k e hk m hm => hes m ?_, rfl, rfl⟩, rfl, rfl⟩
    exact List.mem_cons_of_mem _ (List.mem_flatMap.mpr ⟨e, List.mem_of_getElem? hk, hm⟩)

theorem reads_nodeId (max : Nat) :
    Reads (nodeId max) (fun i => i < 2 ^ 64 ∧ i < max) id (leBytes 8) := by
  intro s i rest
  simp only [nodeId, bind_eq_ok, u64_eq_ok]
  constructor
  · rintro ⟨j, _, ⟨hj, rfl⟩, h⟩
    split_ifs at h with hmax
    · exact absurd h throw_ne_ok
    · obtain ⟨rfl, rfl⟩ := pure_eq_ok.mp h
      exact ⟨j, ⟨hj, Nat.lt_of_not_le hmax⟩, rfl, rfl⟩
  · rintro ⟨j, ⟨hj, hmax⟩, rfl, rfl⟩
    refine ⟨j, rest, ⟨hj, rfl⟩, ?_⟩
    rw [if_neg (Nat.not_le.mpr hmax)]
    exact pure_eq_ok.mpr ⟨rfl, rfl⟩

theorem inputs_eq_ok {max : Nat} {ins : List Nat} {s rest : List UInt8} :
    inputs max s = .ok (ins, rest) ↔ ins.length < 2 ^ 32 ∧ (∀ i ∈ ins, i < 2 ^ 64 ∧ i < max) ∧
      s = inputsBytes ins ++ rest := by
  simp only [inputs, bind_eq_ok, u32_eq_ok, collect_eq_ok fun _ => reads_nodeId max]
  constructor
  · rintro ⟨n, _, ⟨hn, rfl⟩, xs, rfl, hxs, rfl, rfl⟩
    rw [List.map_id]
    refine ⟨hn, fun i hi => ?_, by rw [inputsBytes, List.append_assoc]⟩
    obtain ⟨k, hk⟩ := List.mem_iff_getElem?.mp hi
    exact hxs k i hk
  · rintro ⟨hlen, hins, rfl⟩
    exact ⟨_, _, ⟨hlen, by rw [inputsBytes, List.append_assoc]⟩, ins, rfl,
      fun k i hk => hins i (List.mem_of_getElem? hk), List.map_id ins, rfl⟩

theorem preprocessingRef_eq_ok {r : Option String} {s rest : List UInt8} :
    preprocessingRef s = .ok (r, rest) ↔ ∃ o : WireOption, ((∀ n ∈ o.fields, n < 2 ^ 32) ∧
      o.WellFormed) ∧ o.value = r ∧ s = o.bytes ++ rest := by
  simp only [preprocessingRef, bind_eq_ok, u8_eq_ok]
  constructor
  · rintro ⟨flag, _, rfl, h⟩
    split_ifs at h with hflag
    · simp only [bind_eq_ok, string_eq_ok, pure_eq_ok] at h
      obtain ⟨t, _, ⟨ht, rfl⟩, rfl, rfl⟩ := h
      exact ⟨.present flag t, ⟨by simpa [WireOption.fields] using ht, hflag⟩, rfl, rfl⟩
    · obtain ⟨rfl, rfl⟩ := pure_eq_ok.mp h
      obtain rfl := not_not.mp hflag
      exact ⟨.absent, ⟨by simp [WireOption.fields], trivial⟩, rfl, rfl⟩
  · rintro ⟨o, ⟨hfields, hwf⟩, rfl, rfl⟩
    cases o with
    | absent => exact ⟨0, rest, rfl, pure_eq_ok.mpr ⟨rfl, rfl⟩⟩
    | present flag t =>
        refine ⟨flag, _, rfl, ?_⟩
        rw [if_pos (show flag ≠ 0 from hwf)]
        exact bind_eq_ok.mpr ⟨t, rest, string_eq_ok.mpr ⟨hfields _ (by simp [WireOption.fields]),
          rfl⟩, pure_eq_ok.mpr ⟨rfl, rfl⟩⟩

theorem reads_stageRef (m : Nat) :
    Reads (stageRef m) (fun r => r.index < 2 ^ 32 ∧ r.Earlier m) id StageRef.bytes := by
  intro s r rest
  simp only [stageRef, bind_eq_ok, u8_eq_ok, u32_eq_ok]
  constructor
  · rintro ⟨tag, _, rfl, v, _, ⟨hv, rfl⟩, h⟩
    split_ifs at h with h0 h1 hle
    · obtain ⟨rfl, rfl⟩ := pure_eq_ok.mp h
      exact ⟨.input v, ⟨hv, trivial⟩, rfl, by rw [h0]; rfl⟩
    · exact absurd h throw_ne_ok
    · obtain ⟨rfl, rfl⟩ := pure_eq_ok.mp h
      exact ⟨.member v, ⟨hv, Nat.lt_of_not_le hle⟩, rfl, by rw [h1]; rfl⟩
    · exact absurd h throw_ne_ok
  · rintro ⟨r, ⟨hindex, hearlier⟩, rfl, rfl⟩
    cases r with
    | input i => exact ⟨0, _, rfl, i, rest, ⟨hindex, rfl⟩, pure_eq_ok.mpr ⟨rfl, rfl⟩⟩
    | member i =>
        refine ⟨1, _, rfl, i, rest, ⟨hindex, rfl⟩, ?_⟩
        rw [if_neg (by decide), if_pos rfl, if_neg (Nat.not_le.mpr hearlier)]
        exact pure_eq_ok.mpr ⟨rfl, rfl⟩

theorem reads_member (m : Nat) : Reads (member m) (fun op => (∀ n ∈ op.fields, n < 2 ^ 32) ∧
    ∀ r ∈ op.inputs, r.Earlier m) id StageOp.bytes := by
  intro s op rest
  simp only [member, bind_eq_ok, string_eq_ok, u32_eq_ok, pure_eq_ok,
    collect_eq_ok fun _ => reads_stageRef m]
  constructor
  · rintro ⟨token, _, ⟨htoken, rfl⟩, n, _, ⟨hn, rfl⟩, _, _, ⟨refs, rfl, hrefs, rfl, rfl⟩, rfl, rfl⟩
    have href : ∀ r ∈ refs, r.index < 2 ^ 32 ∧ r.Earlier m := by
      intro r hr
      obtain ⟨k, hk⟩ := List.mem_iff_getElem?.mp hr
      exact hrefs k r hk
    rw [List.map_id]
    refine ⟨⟨token, refs⟩, ⟨fun x hx => ?_, fun r hr => (href r hr).2⟩, rfl, by
      simp only [StageOp.bytes, List.append_assoc]⟩
    simp only [StageOp.fields, List.mem_cons, List.mem_map] at hx
    rcases hx with rfl | rfl | ⟨r, hr, rfl⟩
    · exact htoken
    · exact hn
    · exact (href r hr).1
  · rintro ⟨⟨token, refs⟩, ⟨hfields, hrefs⟩, rfl, rfl⟩
    simp only [StageOp.fields, List.mem_cons, List.mem_map, forall_eq_or_imp] at hfields
    exact ⟨token, _, ⟨hfields.1, by simp only [StageOp.bytes, List.append_assoc]⟩, _, _,
      ⟨hfields.2.1, rfl⟩, _, _, ⟨refs, rfl, fun k r hk => ⟨hfields.2.2 _
        ⟨r, List.mem_of_getElem? hk, rfl⟩, hrefs r (List.mem_of_getElem? hk)⟩, List.map_id refs,
        rfl⟩, rfl, rfl⟩

theorem stageMembers_eq_ok {members : List StageOp} {s rest : List UInt8} :
    stageMembers s = .ok (members, rest) ↔ ((∀ n ∈ membersFields members, n < 2 ^ 32) ∧
      MembersEarlier members) ∧ s = membersBytes members ++ rest := by
  simp only [stageMembers, bind_eq_ok, u32_eq_ok, collect_eq_ok reads_member]
  constructor
  · rintro ⟨n, _, ⟨hn, rfl⟩, ms, rfl, hms, rfl, rfl⟩
    rw [List.map_id]
    refine ⟨⟨fun x hx => ?_, fun m op hm => (hms m op hm).2⟩, by
      rw [membersBytes, List.append_assoc]⟩
    rcases List.mem_cons.mp hx with rfl | hx
    · exact hn
    · obtain ⟨op, hop, hx⟩ := List.mem_flatMap.mp hx
      obtain ⟨k, hk⟩ := List.mem_iff_getElem?.mp hop
      exact (hms k op hk).1 x hx
  · rintro ⟨⟨hfields, hearlier⟩, rfl⟩
    refine ⟨_, _, ⟨hfields _ List.mem_cons_self, by rw [membersBytes, List.append_assoc]⟩, members,
      rfl, fun k op hk => ⟨fun x hx => hfields x ?_, hearlier k op hk⟩, List.map_id members, rfl⟩
    exact List.mem_cons_of_mem _ (List.mem_flatMap.mpr ⟨op, List.mem_of_getElem? hk, hx⟩)

/-- **Reading a record.** The reader accepts the spellings of the well-formed records. -/
theorem reads_node (idx : Nat) :
    Reads (node idx) (WireNode.WellFormed idx) WireNode.key WireNode.bytes := by
  intro s key rest
  simp only [node, bind_eq_ok, u8_eq_ok]
  constructor
  · rintro ⟨tag, _, rfl, h⟩
    split_ifs at h with h0 h1 h2 h3 h5 h6 h4
    all_goals simp only [bind_eq_ok, string_eq_ok, params_eq_ok, inputs_eq_ok,
      preprocessingRef_eq_ok, stageMembers_eq_ok, pure_eq_ok, throw_ne_ok] at h
    · obtain ⟨name, _, ⟨hname, rfl⟩, _, _, ⟨es, hes, rfl, rfl⟩, rfl, rfl⟩ := h
      refine ⟨.source name es, ⟨?_, trivial, by simp [WireNode.key, NodeKey.inputs],
        by simp [MembersEarlier, WireNode.key, NodeKey.members]⟩, rfl, by simp [WireNode.bytes, h0]⟩
      simpa [WireNode.fields] using ⟨hname, hes⟩
    · obtain ⟨name, _, ⟨hname, rfl⟩, _, _, ⟨es, hes, rfl, rfl⟩, ins, _, ⟨hlen, hins, rfl⟩, rfl,
        rfl⟩ := h
      refine ⟨.op name es ins, ⟨?_, trivial, hins, by simp [MembersEarlier, WireNode.key, NodeKey.members]⟩,
        rfl, by simp [WireNode.bytes, h1]⟩
      simpa [WireNode.fields, or_imp, forall_and] using ⟨hname, hes, hlen⟩
    · obtain ⟨name, _, ⟨hname, rfl⟩, _, _, ⟨es, hes, rfl, rfl⟩, ins, _, ⟨hlen, hins, rfl⟩, rfl,
        rfl⟩ := h
      refine ⟨.reduction name es ins, ⟨?_, trivial, hins,
        by simp [MembersEarlier, WireNode.key, NodeKey.members]⟩, rfl, by simp [WireNode.bytes, h2]⟩
      simpa [WireNode.fields, or_imp, forall_and] using ⟨hname, hes, hlen⟩
    · obtain ⟨kind, _, ⟨hkind, rfl⟩, hash, _, ⟨hhash, rfl⟩, framework, _, ⟨hframework, rfl⟩,
        version, _, ⟨hversion, rfl⟩, schema, _, ⟨hschema, rfl⟩, _, _, ⟨o, ⟨hfields, ho⟩, rfl, rfl⟩,
        _, _, ⟨es, hes, rfl, rfl⟩, ins, _, ⟨hlen, hins, rfl⟩, rfl, rfl⟩ := h
      refine ⟨.external kind hash framework version schema o es ins, ⟨?_, ho, hins,
        by simp [MembersEarlier, WireNode.key, NodeKey.members]⟩, rfl, by simp [WireNode.bytes, h3]⟩
      simpa [WireNode.fields, or_imp, forall_and] using
        ⟨hkind, hhash, hframework, hversion, hschema, hfields, hes, hlen⟩
    · obtain ⟨_, _, ⟨es, hes, rfl, rfl⟩, ins, _, ⟨hlen, hins, rfl⟩, rfl, rfl⟩ := h
      refine ⟨.exchange es ins, ⟨?_, trivial, hins, by simp [MembersEarlier, WireNode.key, NodeKey.members]⟩,
        rfl, by simp [WireNode.bytes, h5]⟩
      simpa [WireNode.fields, or_imp, forall_and] using ⟨hes, hlen⟩
    · obtain ⟨_, _, ⟨es, hes, rfl, rfl⟩, ins, _, ⟨hlen, hins, rfl⟩, rfl, rfl⟩ := h
      refine ⟨.join es ins, ⟨?_, trivial, hins, by simp [MembersEarlier, WireNode.key, NodeKey.members]⟩,
        rfl, by simp [WireNode.bytes, h6]⟩
      simpa [WireNode.fields, or_imp, forall_and] using ⟨hes, hlen⟩
    · obtain ⟨ins, _, ⟨hlen, hins, rfl⟩, ms, _, ⟨⟨hms, hearlier⟩, rfl⟩, rfl, rfl⟩ := h
      refine ⟨.stage ins ms, ⟨?_, trivial, hins, hearlier⟩, rfl, by simp [WireNode.bytes, h4]⟩
      simpa [WireNode.fields] using ⟨hlen, hms⟩
  · rintro ⟨w, ⟨hfields, ho, hins, hearlier⟩, rfl, rfl⟩
    cases w <;> simp only [WireNode.bytes, List.cons_append, List.append_assoc]
    case source name es =>
      have hf : name.utf8ByteSize < 2 ^ 32 ∧ ∀ n ∈ paramsFields es, n < 2 ^ 32 := by
        simpa [WireNode.fields] using hfields
      refine ⟨0, _, rfl, ?_⟩
      rw [if_pos rfl]
      simp only [bind_eq_ok, string_eq_ok, params_eq_ok, pure_eq_ok]
      exact ⟨name, _, ⟨hf.1, rfl⟩, _, _, ⟨es, hf.2, rfl, rfl⟩, rfl, rfl⟩
    case op name es ins =>
      have hf : name.utf8ByteSize < 2 ^ 32 ∧ (∀ n ∈ paramsFields es, n < 2 ^ 32) ∧
          ins.length < 2 ^ 32 := by
        simpa [WireNode.fields, or_imp, forall_and] using hfields
      refine ⟨1, _, rfl, ?_⟩
      rw [if_neg (by decide), if_pos rfl]
      simp only [bind_eq_ok, string_eq_ok, params_eq_ok, inputs_eq_ok, pure_eq_ok]
      exact ⟨name, _, ⟨hf.1, rfl⟩, _, _, ⟨es, hf.2.1, rfl, rfl⟩, ins, _,
        ⟨hf.2.2, hins, rfl⟩, rfl, rfl⟩
    case reduction name es ins =>
      have hf : name.utf8ByteSize < 2 ^ 32 ∧ (∀ n ∈ paramsFields es, n < 2 ^ 32) ∧
          ins.length < 2 ^ 32 := by
        simpa [WireNode.fields, or_imp, forall_and] using hfields
      refine ⟨2, _, rfl, ?_⟩
      rw [if_neg (by decide), if_neg (by decide), if_pos rfl]
      simp only [bind_eq_ok, string_eq_ok, params_eq_ok, inputs_eq_ok, pure_eq_ok]
      exact ⟨name, _, ⟨hf.1, rfl⟩, _, _, ⟨es, hf.2.1, rfl, rfl⟩, ins, _,
        ⟨hf.2.2, hins, rfl⟩, rfl, rfl⟩
    case external kind hash framework version schema o es ins =>
      obtain ⟨hkind, hhash, hframework, hversion, hschema, hof, hes, hlen⟩ :
          kind.utf8ByteSize < 2 ^ 32 ∧ hash.utf8ByteSize < 2 ^ 32 ∧
          framework.utf8ByteSize < 2 ^ 32 ∧ version.utf8ByteSize < 2 ^ 32 ∧
          schema.utf8ByteSize < 2 ^ 32 ∧ (∀ n ∈ o.fields, n < 2 ^ 32) ∧
          (∀ n ∈ paramsFields es, n < 2 ^ 32) ∧ ins.length < 2 ^ 32 := by
        simpa [WireNode.fields, or_imp, forall_and] using hfields
      refine ⟨3, _, rfl, ?_⟩
      rw [if_neg (by decide), if_neg (by decide), if_neg (by decide), if_pos rfl]
      simp only [bind_eq_ok, string_eq_ok, params_eq_ok, inputs_eq_ok, preprocessingRef_eq_ok,
        pure_eq_ok]
      exact ⟨kind, _, ⟨hkind, rfl⟩, hash, _, ⟨hhash, rfl⟩, framework, _,
        ⟨hframework, rfl⟩, version, _, ⟨hversion, rfl⟩, schema, _, ⟨hschema, rfl⟩,
        _, _, ⟨o, ⟨hof, ho⟩, rfl, rfl⟩, _, _, ⟨es, hes, rfl, rfl⟩, ins, _,
        ⟨hlen, hins, rfl⟩, rfl, rfl⟩
    case stage ins ms =>
      have hf : ins.length < 2 ^ 32 ∧ ∀ n ∈ membersFields ms, n < 2 ^ 32 := by
        simpa [WireNode.fields] using hfields
      refine ⟨4, _, rfl, ?_⟩
      rw [if_neg (by decide), if_neg (by decide), if_neg (by decide), if_neg (by decide),
        if_neg (by decide), if_neg (by decide), if_pos rfl]
      simp only [bind_eq_ok, inputs_eq_ok, stageMembers_eq_ok, pure_eq_ok]
      exact ⟨ins, _, ⟨hf.1, hins, rfl⟩, ms, _, ⟨⟨hf.2, hearlier⟩, rfl⟩, rfl, rfl⟩
    case exchange es ins =>
      have hf : (∀ n ∈ paramsFields es, n < 2 ^ 32) ∧ ins.length < 2 ^ 32 := by
        simpa [WireNode.fields, or_imp, forall_and] using hfields
      refine ⟨5, _, rfl, ?_⟩
      rw [if_neg (by decide), if_neg (by decide), if_neg (by decide), if_neg (by decide),
        if_pos rfl]
      simp only [bind_eq_ok, params_eq_ok, inputs_eq_ok, pure_eq_ok]
      exact ⟨_, _, ⟨es, hf.1, rfl, rfl⟩, ins, _, ⟨hf.2, hins, rfl⟩, rfl, rfl⟩
    case join es ins =>
      have hf : (∀ n ∈ paramsFields es, n < 2 ^ 32) ∧ ins.length < 2 ^ 32 := by
        simpa [WireNode.fields, or_imp, forall_and] using hfields
      refine ⟨6, _, rfl, ?_⟩
      rw [if_neg (by decide), if_neg (by decide), if_neg (by decide), if_neg (by decide),
        if_neg (by decide), if_pos rfl]
      simp only [bind_eq_ok, params_eq_ok, inputs_eq_ok, pure_eq_ok]
      exact ⟨_, _, ⟨es, hf.1, rfl, rfl⟩, ins, _, ⟨hf.2, hins, rfl⟩, rfl, rfl⟩

end Read

end Graphed
