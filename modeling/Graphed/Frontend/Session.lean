import Graphed.Core.Recording
import Graphed.Optimizer.Passes

/-!
# The Session

A Session keeps, beside its store, the form of every node and the row sets it carries, and binds
every source name to one form and one data object. Recording infers the form first, so an operation
the backend refuses records nothing.
-/

namespace Graphed

open FirstSeen PostOrder

/-- A string parameter. -/
def ParamMap.text (p : ParamMap) (key : String) : Option String :=
  match p.entries.lookup key with
  | some (.str s) => some s
  | _ => none

/-- Why a recording was refused. -/
inductive RecordError where
  | form (detail : String)
  | otherForm (name : String)
  | otherData (name : String)
  | otherRows (op : String)
  | foreign (id : Nat)
deriving DecidableEq

/-- A source's data: the object, the identity it or the caller declares, and whether a dataset is
read from it. -/
structure SourceData where
  object : Nat
  identity : Option String
  read : Bool

/-- Data a bound name is reused for: the held object, or one of the same declared identity. -/
def SourceData.same (held data : SourceData) : Bool :=
  held.object == data.object || (data.identity.isSome && held.identity == data.identity)

/-- The names in a field list recorded as text. -/
def fieldList (text : String) : List String := (text.splitOn ",").filter (· ≠ "")

/-- What the Session asks its backend when it records. A field list is refused when the form lacks
one of its names. -/
structure Inference (F : Type) where
  opForm : String → List F → ParamMap → Except String F
  hasRows : F → Bool
  fieldNames : F → List String
  fields_known {form result : F} {params : ParamMap} {text : String} :
    params.text "fields" = some text → opForm "fields" [form] params = .ok result →
      ∀ c ∈ fieldList text, c ∈ fieldNames form

/-- A Session's state: its store, and by node id the forms and the row sets carried. -/
structure Session (F : Type) where
  store : GraphStore
  forms : List F
  rows : List (List Nat)
  slots : List (String × F × SourceData)

namespace Session

variable {F : Type}

def new : Session F := ⟨.new, [], [], []⟩

def nodes (s : Session F) : List NodeKey := s.store.nodes

/-- The row sets some inputs carry. -/
def carried (s : Session F) (inputs : List Nat) : List Nat :=
  (firsts (inputs.map (s.rows.getD · []))).flatten

/-- An operation that pairs rows takes them from one row set. -/
def sameRows (s : Session F) (op : String) (inputs : List Nat) : Except RecordError Unit :=
  if inputs.length < 2 then .ok ()
  else if ((firsts (inputs.map (s.rows.getD · []))).filter (· ≠ [])).length < 2 then .ok ()
  else .error (.otherRows op)

/-- Intern a node and fill its tables where they hold nothing yet. -/
def enter (I : Inference F) (s : Session F) (key : NodeKey) (form : F)
    (rows : Option (List Nat)) : Except RecordError Nat × Session F :=
  match s.store.intern key with
  | (.error bad, _) => (.error (.foreign bad.id), s)
  | (.ok id, store) =>
      if id < s.forms.length then (.ok id, { s with store })
      else
        (.ok id, { s with
          store
          forms := s.forms ++ [form]
          rows := s.rows ++
            [rows.getD (if I.hasRows form then s.carried key.inputs else [])] })

/-- The form the backend gives an operation on recorded inputs. -/
def located (I : Inference F) (s : Session F) (op : String) (inputs : List Nat)
    (params : ParamMap) : Except RecordError F :=
  match inputs.find? fun i => decide (s.forms.length ≤ i) with
  | some i => .error (.foreign i)
  | none =>
      match I.opForm op (inputs.filterMap (s.forms[·]?)) params with
      | .error detail => .error (.form detail)
      | .ok form => .ok form

/-- Bind a source; a name is a slot of one form bound to one data object. -/
def source (I : Inference F) [DecidableEq F] (s : Session F) (name : String) (form : F)
    (data : SourceData) (params : ParamMap) : Except RecordError Nat × Session F :=
  let held := (s.slots.lookup name).getD (form, data)
  if held.1 ≠ form then (.error (.otherForm name), s)
  else if held.2.same data = false then (.error (.otherData name), s)
  else
    let slots := if (s.slots.lookup name).isSome then s.slots else s.slots ++ [(name, form, data)]
    enter I { s with slots } (.source name params) form
      (some (if data.read then [((s.store.lookup (.source name params)).getD s.nodes.length)]
        else []))

/-- Record an operation; `rowsFrom` names the inputs whose rows the result of one that pairs no rows
holds. -/
def recordOp (I : Inference F) (s : Session F) (op : String) (inputs : List Nat)
    (params : ParamMap) (reduction : Bool) (rowsFrom : Option (List Nat)) :
    Except RecordError Nat × Session F :=
  match (if rowsFrom.isNone then s.sameRows op inputs else .ok ()) with
  | .error e => (.error e, s)
  | .ok () =>
      match s.located I op inputs params with
      | .error e => (.error e, s)
      | .ok form =>
          s.enter I (if reduction then .reduction op params inputs else .op op params inputs) form
            (rowsFrom.map fun ps => s.carried (ps.map (inputs.getD · 0)))

/-- Record an External under its descriptor and the form found for it. -/
def recordExternal (I : Inference F) (s : Session F) (op : String) (descriptor : PayloadDescriptor)
    (inputs : List Nat) (params : ParamMap) (form : F) : Except RecordError Nat × Session F :=
  match s.sameRows op inputs with
  | .error e => (.error e, s)
  | .ok () => s.enter I (.external descriptor params inputs) form none

def recordExchange (I : Inference F) (s : Session F) (input : Nat) (scheme : ParamMap) :
    Except RecordError Nat × Session F :=
  match s.located I "exchange" [input] scheme with
  | .error e => (.error e, s)
  | .ok form => s.enter I (.exchange scheme [input]) form none

/-- A join's rows are its own. -/
def recordJoin (I : Inference F) (s : Session F) (left right : Nat) (scheme : ParamMap) :
    Except RecordError Nat × Session F :=
  match s.located I "join" [left, right] scheme with
  | .error e => (.error e, s)
  | .ok form =>
      s.enter I (.join scheme [left, right]) form
        (some (if s.carried [left, right] = [] then []
          else [(s.store.lookup (.join scheme [left, right])).getD s.nodes.length]))

/-- A subscript by a field name, or the attribute of that name. -/
def field (I : Inference F) (s : Session F) (x : Nat) (name : String) :
    Except RecordError Nat × Session F :=
  s.recordOp I "field" [x] (.new [("field", .str name)]) false none

/-- A subscript by field names, recorded as one text. -/
def fields (I : Inference F) (s : Session F) (x : Nat) (names : List String) :
    Except RecordError Nat × Session F :=
  s.recordOp I "fields" [x] (.new [("fields", .str (",".intercalate names))]) false none

end Session

/-- One recording call on a Session. Nothing but the two subscripts records under their names. -/
inductive SessionCall (F : Type) where
  | source (name : String) (form : F) (data : SourceData) (params : ParamMap)
  | field (x : Nat) (name : String)
  | fields (x : Nat) (names : List String)
  | op (name : String) (hfield : name ≠ "field") (hfields : name ≠ "fields") (inputs : List Nat)
      (params : ParamMap) (reduction : Bool) (rowsFrom : Option (List Nat))
  | external (kind : String) (descriptor : PayloadDescriptor) (inputs : List Nat)
      (params : ParamMap) (form : F)
  | exchange (input : Nat) (scheme : ParamMap)
  | join (left right : Nat) (scheme : ParamMap)

def SessionCall.run {F : Type} [DecidableEq F] (I : Inference F) (s : Session F) :
    SessionCall F → Except RecordError Nat × Session F
  | source name form data params => s.source I name form data params
  | field x name => s.field I x name
  | fields x names => s.fields I x names
  | op name _ _ inputs params reduction rowsFrom =>
      s.recordOp I name inputs params reduction rowsFrom
  | external kind descriptor inputs params form =>
      s.recordExternal I kind descriptor inputs params form
  | exchange input scheme => s.recordExchange I input scheme
  | join left right scheme => s.recordJoin I left right scheme

/-- The Session some calls leave, whether or not they were refused. -/
def Session.record {F : Type} [DecidableEq F] (I : Inference F) (calls : List (SessionCall F)) :
    Session F := calls.foldl (fun s call => (call.run I s).2) .new

/-! ### What recording keeps -/

/-- The field reads a node may be: one operand, and field lists of names its form has. -/
def FieldRead {F : Type} (I : Inference F) (forms : List F) (key : NodeKey) : Prop :=
  (∃ x name, key = .op "field" (.new [("field", .str name)]) [x]) ∨
    ∃ x names form, key = .op "fields" (.new [("fields", .str (",".intercalate names))]) [x] ∧
      forms[x]? = some form ∧ ∀ c ∈ fieldList (",".intercalate names), c ∈ I.fieldNames form

theorem FieldRead.append {F : Type} {I : Inference F} {forms more : List F} {key : NodeKey}
    (h : FieldRead I forms key) : FieldRead I (forms ++ more) key := by
  rcases h with h | ⟨x, names, form, hkey, hform, hknown⟩
  · exact Or.inl h
  · refine Or.inr ⟨x, names, form, hkey, ?_, hknown⟩
    rw [List.getElem?_append_left (List.getElem?_eq_some_iff.mp hform).1, hform]

/-- The op entry of a node: neither a source nor an External has one. -/
def NodeKey.recordedOp : NodeKey → Option (String × ParamMap)
  | .op name params _ | .reduction name params _ => some (name, params)
  | .exchange scheme _ => some ("exchange", scheme)
  | .join scheme _ => some ("join", scheme)
  | _ => none

namespace Session

variable {F : Type} {I : Inference F} {s : Session F}

/-- What recording keeps: an interned store without stages, a form for every node, the field reads
of the two subscripts only, and each source of the form its name is a slot of. -/
structure Kept (I : Inference F) (s : Session F) : Prop where
  interned : s.store.Interned
  stage : ∀ key ∈ s.nodes, key.isStage = false
  forms : s.forms.length = s.nodes.length
  reads : ∀ key ∈ s.nodes, ∀ op ∈ key.recordedOp, op.1 = "field" ∨ op.1 = "fields" →
    FieldRead I s.forms key
  slots : ∀ (i : Nat) (name : String) (params : ParamMap),
    s.nodes[i]? = some (.source name params) →
      ∃ form data, s.slots.lookup name = some (form, data) ∧ s.forms[i]? = some form

theorem Kept.topological (h : s.Kept I) : GraphStore.TopologicalKeys s.nodes :=
  h.interned.inputs_lt

theorem kept_new : (new : Session F).Kept I where
  interned := GraphStore.interned_new
  stage := by simp [new, nodes, GraphStore.new]
  forms := rfl
  reads := by simp [new, nodes, GraphStore.new]
  slots := by simp [new, nodes, GraphStore.new]

/-- What entering a node can do: refuse it, answer a node held, or append it. -/
theorem Kept.enter_cases (h : s.Kept I) (key : NodeKey) (form : F) (rows : Option (List Nat)) :
    (∃ e, s.enter I key form rows = (.error e, s)) ∨
    (∃ id, s.enter I key form rows = (.ok id, s)) ∨
    (∀ i ∈ key.inputs, i < s.nodes.length) ∧ s.store.lookup key = none ∧
      ∃ carried, s.enter I key form rows = (.ok s.nodes.length,
        { s with
          store := s.store.push key
          forms := s.forms ++ [form]
          rows := s.rows ++ [carried] }) := by
  unfold enter
  rcases s.store.intern_cases key with
    ⟨i, -, -, hbad⟩ | ⟨hvalid, ⟨id, hheld, hintern⟩ | ⟨hnew, hintern⟩⟩
  · rw [hbad]
    exact Or.inl ⟨_, rfl⟩
  · rw [hintern]
    obtain ⟨k, hk, -⟩ := (h.interned.lookup_iff key id).mp hheld
    have hid : id < s.forms.length := by
      rw [h.forms]
      exact (List.getElem?_eq_some_iff.mp hk).1
    simp only [if_pos hid]
    exact Or.inr (Or.inl ⟨id, rfl⟩)
  · rw [hintern]
    have hid : ¬ s.store.nodes.length < s.forms.length := by
      rw [h.forms]
      exact Nat.lt_irrefl _
    simp only [if_neg hid]
    exact Or.inr (Or.inr ⟨hvalid, hnew, _, rfl⟩)

/-- Entering a node that meets the invariant keeps it. -/
theorem Kept.enter (h : s.Kept I) {key : NodeKey} {form : F} {rows : Option (List Nat)}
    (hstage : key.isStage = false)
    (hreads : ∀ op ∈ key.recordedOp, op.1 = "field" ∨ op.1 = "fields" →
      FieldRead I s.forms key)
    (hslots : ∀ name params, key = .source name params →
      ∃ data, s.slots.lookup name = some (form, data)) :
    (s.enter I key form rows).2.Kept I := by
  rcases h.enter_cases key form rows with ⟨e, he⟩ | ⟨id, he⟩ | ⟨hvalid, hnew, carried, he⟩
  · rwa [he]
  · rwa [he]
  · rw [he]
    have hnodes : ∀ {i : Nat} {k : NodeKey}, (s.nodes ++ [key])[i]? = some k →
        s.nodes[i]? = some k ∨ i = s.nodes.length ∧ k = key := by
      intro i k hk
      rcases Nat.lt_or_ge i s.nodes.length with hi | hi
      · rw [List.getElem?_append_left hi] at hk
        exact Or.inl hk
      · rw [List.getElem?_append_right hi, List.getElem?_singleton] at hk
        split at hk
        · exact Or.inr ⟨by omega, (Option.some.inj hk).symm⟩
        · cases hk
    refine ⟨h.interned.push hvalid hnew, ?_, ?_, ?_, ?_⟩
    · intro k hk
      rcases List.mem_append.mp hk with hk | hk
      · exact h.stage k hk
      · rw [List.mem_singleton.mp hk, hstage]
    · change (s.forms ++ [form]).length = (s.nodes ++ [key]).length
      rw [List.length_append, List.length_append, h.forms]
      rfl
    · intro k hk op hop hname
      rcases List.mem_append.mp hk with hk | hk
      · exact (h.reads k hk op hop hname).append
      · obtain rfl := List.mem_singleton.mp hk
        exact (hreads op hop hname).append
    · intro i name params hi
      rcases hnodes hi with hi | ⟨rfl, hkey⟩
      · obtain ⟨f, data, hslot, hform⟩ := h.slots i name params hi
        refine ⟨f, data, hslot, ?_⟩
        change (s.forms ++ [form])[i]? = _
        rw [List.getElem?_append_left (List.getElem?_eq_some_iff.mp hform).1, hform]
      · obtain ⟨data, hslot⟩ := hslots name params hkey.symm
        refine ⟨form, data, hslot, ?_⟩
        change (s.forms ++ [form])[s.nodes.length]? = _
        rw [← h.forms, List.getElem?_append_right (Nat.le_refl _), Nat.sub_self]
        rfl

/-- A form is inferred from the forms of the inputs. -/
theorem located_ok {op : String} {inputs : List Nat} {params : ParamMap} {form : F}
    (h : s.located I op inputs params = .ok form) :
    (∀ i ∈ inputs, i < s.forms.length) ∧
      I.opForm op (inputs.filterMap (s.forms[·]?)) params = .ok form := by
  unfold located at h
  cases hbad : inputs.find? fun i => decide (s.forms.length ≤ i) with
  | some i =>
      rw [hbad] at h
      cases h
  | none =>
      rw [hbad] at h
      refine ⟨by simpa using hbad, ?_⟩
      cases hform : I.opForm op (inputs.filterMap (s.forms[·]?)) params with
      | error detail =>
          simp only [hform] at h
          cases h
      | ok f =>
          simp only [hform] at h
          exact congrArg Except.ok (Except.ok.inj h)

/-- Recording an operation enters its node, once its form was inferred. -/
theorem recordOp_cases (I : Inference F) (s : Session F) (op : String) (inputs : List Nat)
    (params : ParamMap) (reduction : Bool) (rowsFrom : Option (List Nat)) :
    (s.recordOp I op inputs params reduction rowsFrom).2 = s ∨
    ∃ form rows, s.located I op inputs params = .ok form ∧
      s.recordOp I op inputs params reduction rowsFrom =
        s.enter I (if reduction then .reduction op params inputs else .op op params inputs) form
          rows := by
  unfold recordOp
  cases (if rowsFrom.isNone then s.sameRows op inputs else .ok ()) with
  | error e => exact Or.inl rfl
  | ok _ =>
      cases hform : s.located I op inputs params with
      | error e => exact Or.inl rfl
      | ok form => exact Or.inr ⟨form, _, rfl, rfl⟩

theorem text_single (key value : String) :
    (ParamMap.new [(key, .str value)]).text key = some value := by
  have hlookup : (ParamMap.new [(key, ParamValue.str value)]).entries.lookup key =
      some (.str value) := List.lookup_cons_self
  unfold ParamMap.text
  rw [hlookup]

theorem Kept.recordOp (h : s.Kept I) {op : String} (hfield : op ≠ "field") (hfields : op ≠ "fields")
    (inputs : List Nat) (params : ParamMap) (reduction : Bool) (rowsFrom : Option (List Nat)) :
    (s.recordOp I op inputs params reduction rowsFrom).2.Kept I := by
  rcases recordOp_cases I s op inputs params reduction rowsFrom with he | ⟨form, rows, -, he⟩
  · rwa [he]
  · rw [he]
    refine h.enter ?_ ?_ ?_
    · cases reduction <;> rfl
    · intro entry hentry hname
      have hop : entry = (op, params) := by
        cases reduction <;> exact (Option.some.inj hentry).symm
      subst hop
      exact (hname.elim hfield hfields).elim
    · intro name params' hkey
      cases reduction <;> cases hkey

theorem Kept.field (h : s.Kept I) (x : Nat) (name : String) : (s.field I x name).2.Kept I := by
  rcases recordOp_cases I s "field" [x] (.new [("field", .str name)]) false none with
    he | ⟨form, rows, -, he⟩
  · unfold Session.field
    rwa [he]
  · unfold Session.field
    rw [he]
    exact h.enter rfl (fun _ _ _ => Or.inl ⟨x, name, rfl⟩) (fun _ _ hkey => by cases hkey)

theorem Kept.fields (h : s.Kept I) (x : Nat) (names : List String) :
    (s.fields I x names).2.Kept I := by
  rcases recordOp_cases I s "fields" [x] (.new [("fields", .str (",".intercalate names))]) false
    none with he | ⟨form, rows, hform, he⟩
  · unfold Session.fields
    rwa [he]
  · unfold Session.fields
    rw [he]
    refine h.enter rfl (fun _ _ _ => ?_) (fun _ _ hkey => by cases hkey)
    obtain ⟨hx, hop⟩ := located_ok hform
    obtain ⟨f, hf⟩ : ∃ f, s.forms[x]? = some f :=
      ⟨_, List.getElem?_eq_getElem (hx x List.mem_cons_self)⟩
    rw [List.filterMap_cons_some hf, List.filterMap_nil] at hop
    exact Or.inr ⟨x, names, f, rfl, hf, I.fields_known (text_single _ _) hop⟩

/-- Binding a name keeps the names bound, and binds this one to the form. -/
theorem Kept.source [DecidableEq F] (h : s.Kept I) (name : String) (form : F) (data : SourceData)
    (params : ParamMap) : (s.source I name form data params).2.Kept I := by
  unfold Session.source
  extract_lets held slots
  split
  · exact h
  · rename_i hform
    split
    · exact h
    · have hmore : ∀ n entry, s.slots.lookup n = some entry → slots.lookup n = some entry := by
        intro n entry hn
        unfold slots
        split
        · exact hn
        · rw [List.lookup_append, hn, Option.some_or]
      have hmine : ∃ d, slots.lookup name = some (form, d) := by
        cases hheld : s.slots.lookup name with
        | some entry =>
            refine ⟨entry.2, hmore name _ ?_⟩
            have hsame : held = entry := by
              unfold held
              rw [hheld, Option.getD_some]
            rw [hheld, ← hsame, ← not_not.mp hform]
        | none =>
            refine ⟨data, ?_⟩
            unfold slots
            rw [hheld, if_neg (by simp), List.lookup_append, hheld, Option.none_or,
              List.lookup_cons_self]
      have hbound : Kept I { s with slots } := by
        refine ⟨h.interned, h.stage, h.forms, h.reads, ?_⟩
        intro i n p hi
        obtain ⟨f, d, hslot, hf⟩ := h.slots i n p hi
        exact ⟨f, d, hmore n _ hslot, hf⟩
      refine hbound.enter rfl (fun _ hentry _ => by cases hentry) ?_
      intro n p hkey
      obtain ⟨rfl, -⟩ := NodeKey.source.inj hkey
      exact hmine

theorem Kept.recordExternal (h : s.Kept I) (kind : String) (descriptor : PayloadDescriptor)
    (inputs : List Nat) (params : ParamMap) (form : F) :
    (s.recordExternal I kind descriptor inputs params form).2.Kept I := by
  unfold Session.recordExternal
  cases s.sameRows kind inputs with
  | error e => exact h
  | ok _ => exact h.enter rfl (fun _ hentry _ => by cases hentry) (fun _ _ hkey => by cases hkey)

theorem Kept.recordExchange (h : s.Kept I) (input : Nat) (scheme : ParamMap) :
    (s.recordExchange I input scheme).2.Kept I := by
  unfold Session.recordExchange
  cases s.located I "exchange" [input] scheme with
  | error e => exact h
  | ok form =>
      refine h.enter rfl (fun op hop hname => ?_) (fun _ _ hkey => by cases hkey)
      obtain rfl := Option.some.inj hop
      exact absurd hname (by simp)

theorem Kept.recordJoin (h : s.Kept I) (left right : Nat) (scheme : ParamMap) :
    (s.recordJoin I left right scheme).2.Kept I := by
  unfold Session.recordJoin
  cases s.located I "join" [left, right] scheme with
  | error e => exact h
  | ok form =>
      refine h.enter rfl (fun op hop hname => ?_) (fun _ _ hkey => by cases hkey)
      obtain rfl := Option.some.inj hop
      exact absurd hname (by simp)

theorem Kept.run [DecidableEq F] (h : s.Kept I) (call : SessionCall F) :
    (call.run I s).2.Kept I := by
  cases call with
  | source name form data params => exact h.source name form data params
  | field x name => exact h.field x name
  | fields x names => exact h.fields x names
  | op name hfield hfields inputs params reduction rowsFrom =>
      exact h.recordOp hfield hfields inputs params reduction rowsFrom
  | external kind descriptor inputs params form =>
      exact h.recordExternal kind descriptor inputs params form
  | exchange input scheme => exact h.recordExchange input scheme
  | join left right scheme => exact h.recordJoin left right scheme

/-- Every recorded Session keeps the invariant. -/
theorem kept_record [DecidableEq F] (calls : List (SessionCall F)) : (record I calls).Kept I := by
  induction calls using List.reverseRecOn with
  | nil => exact kept_new
  | append_singleton calls call ih =>
      rw [record, List.foldl_append]
      exact ih.run call

end Session

end Graphed
