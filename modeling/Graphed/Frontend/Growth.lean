import Graphed.Frontend.Session

/-!
# Growing Sessions

Recording appends nodes, each with its form and row sets, and changes none. What a Session says of
recorded inputs it goes on saying.
-/

namespace Graphed

namespace Session

variable {F : Type}

/-- An interned store, with a form and row sets for every node. -/
structure Filled (s : Session F) : Prop where
  interned : s.store.Interned
  forms : s.forms.length = s.nodes.length
  rows : s.rows.length = s.nodes.length

/-- Everything a Session says of its nodes, a later one says too. -/
structure Extends (s s' : Session F) : Prop where
  nodes : s.nodes <+: s'.nodes
  forms : s.forms <+: s'.forms
  rows : s.rows <+: s'.rows

theorem Extends.refl (s : Session F) : s.Extends s :=
  ⟨List.prefix_refl _, List.prefix_refl _, List.prefix_refl _⟩

theorem Extends.trans {s t u : Session F} (h : s.Extends t) (h' : t.Extends u) : s.Extends u :=
  ⟨h.nodes.trans h'.nodes, h.forms.trans h'.forms, h.rows.trans h'.rows⟩

theorem Extends.node {s s' : Session F} (h : s.Extends s') {i : Nat} {key : NodeKey}
    (hi : s.nodes[i]? = some key) : s'.nodes[i]? = some key := by
  obtain ⟨more, hmore⟩ := h.nodes
  rw [← hmore, List.getElem?_append_left (List.getElem?_eq_some_iff.mp hi).1, hi]

theorem filled_new : (new : Session F).Filled := ⟨GraphStore.interned_new, rfl, rfl⟩

/-- What entering a node gives: a refusal of a bad input, or the id of an equal node. -/
theorem Filled.enter {s : Session F} (h : s.Filled) (I : Inference F) (key : NodeKey) (form : F)
    (rows : Option (List Nat)) :
    (s.enter I key form rows).2.Filled ∧ s.Extends (s.enter I key form rows).2 ∧
      ((∃ bad ∈ key.inputs, s.nodes.length ≤ bad ∧
          (s.enter I key form rows).1 = .error (.foreign bad)) ∨
        ∃ id k, (s.enter I key form rows).1 = .ok id ∧
          (s.enter I key form rows).2.nodes[id]? = some k ∧ (k == key) = true) := by
  unfold Session.enter
  rcases s.store.intern_cases key with
    ⟨i, hi, hbad, hintern⟩ | ⟨hvalid, ⟨id, hheld, hintern⟩ | ⟨hnew, hintern⟩⟩
  · rw [hintern]
    exact ⟨h, Extends.refl s, Or.inl ⟨i, hi, hbad, rfl⟩⟩
  · obtain ⟨k, hk, hkey⟩ := (h.interned.lookup_iff key id).mp hheld
    have hid : id < s.forms.length := by
      rw [h.forms]
      exact (List.getElem?_eq_some_iff.mp hk).1
    rw [hintern]
    simp only [if_pos hid]
    exact ⟨h, Extends.refl s, Or.inr ⟨id, k, rfl, hk, hkey⟩⟩
  · have hid : ¬s.store.nodes.length < s.forms.length := by
      rw [h.forms]
      exact Nat.lt_irrefl _
    rw [hintern]
    simp only [if_neg hid]
    refine ⟨⟨h.interned.push hvalid hnew, ?_, ?_⟩, ⟨?_, ?_, ?_⟩, Or.inr ⟨_, key, rfl, ?_, ?_⟩⟩
    · change (s.forms ++ [form]).length = (s.nodes ++ [key]).length
      rw [List.length_append, List.length_append, h.forms]
      rfl
    · change (s.rows ++ [_]).length = (s.nodes ++ [key]).length
      rw [List.length_append, List.length_append, h.rows]
      rfl
    · exact List.prefix_append _ _
    · exact List.prefix_append _ _
    · exact List.prefix_append _ _
    · exact List.getElem?_concat_length
    · exact NodeKey.beq_refl key

theorem Filled.recordOp {s : Session F} (h : s.Filled) (I : Inference F) (op : String)
    (inputs : List Nat) (params : ParamMap) (reduction : Bool) (rowsFrom : Option (List Nat)) :
    (s.recordOp I op inputs params reduction rowsFrom).2.Filled ∧
      s.Extends (s.recordOp I op inputs params reduction rowsFrom).2 := by
  rcases recordOp_cases I s op inputs params reduction rowsFrom with he | ⟨form, rows, -, he⟩
  · rw [he]
    exact ⟨h, Extends.refl s⟩
  · rw [he]
    exact ⟨(h.enter I _ form rows).1, (h.enter I _ form rows).2.1⟩

theorem Filled.source [DecidableEq F] {s : Session F} (h : s.Filled) (I : Inference F)
    (name : String) (form : F) (data : SourceData) (params : ParamMap) :
    (s.source I name form data params).2.Filled ∧
      s.Extends (s.source I name form data params).2 := by
  unfold Session.source
  extract_lets held slots
  split
  · exact ⟨h, Extends.refl s⟩
  · split
    · exact ⟨h, Extends.refl s⟩
    · have hslots : ({ s with slots } : Session F).Filled := ⟨h.interned, h.forms, h.rows⟩
      have hentered := hslots.enter I (.source name params) form
        (some (if data.read then [((s.store.lookup (.source name params)).getD s.nodes.length)]
          else []))
      exact ⟨hentered.1, hentered.2.1.nodes, hentered.2.1.forms, hentered.2.1.rows⟩

theorem Filled.recordExternal {s : Session F} (h : s.Filled) (I : Inference F) (kind : String)
    (descriptor : PayloadDescriptor) (inputs : List Nat) (params : ParamMap) (form : F) :
    (s.recordExternal I kind descriptor inputs params form).2.Filled ∧
      s.Extends (s.recordExternal I kind descriptor inputs params form).2 := by
  unfold Session.recordExternal
  cases s.sameRows kind inputs with
  | error e => exact ⟨h, Extends.refl s⟩
  | ok _ =>
      have hentered := h.enter I (.external descriptor params inputs) form none
      exact ⟨hentered.1, hentered.2.1⟩

theorem Filled.recordExchange {s : Session F} (h : s.Filled) (I : Inference F) (input : Nat)
    (scheme : ParamMap) : (s.recordExchange I input scheme).2.Filled ∧
      s.Extends (s.recordExchange I input scheme).2 := by
  unfold Session.recordExchange
  cases s.located I "exchange" [input] scheme with
  | error e => exact ⟨h, Extends.refl s⟩
  | ok form =>
      have hentered := h.enter I (.exchange scheme [input]) form none
      exact ⟨hentered.1, hentered.2.1⟩

theorem Filled.recordJoin {s : Session F} (h : s.Filled) (I : Inference F) (left right : Nat)
    (scheme : ParamMap) : (s.recordJoin I left right scheme).2.Filled ∧
      s.Extends (s.recordJoin I left right scheme).2 := by
  unfold Session.recordJoin
  cases s.located I "join" [left, right] scheme with
  | error e => exact ⟨h, Extends.refl s⟩
  | ok form =>
      have hentered := h.enter I (.join scheme [left, right]) form
        (some (if s.carried [left, right] = [] then []
          else [(s.store.lookup (.join scheme [left, right])).getD s.nodes.length]))
      exact ⟨hentered.1, hentered.2.1⟩

/-- Whatever is recorded, a Session keeps what it says of its nodes. -/
theorem Filled.run [DecidableEq F] {s : Session F} (h : s.Filled) (I : Inference F)
    (call : SessionCall F) : (call.run I s).2.Filled ∧ s.Extends (call.run I s).2 := by
  cases call with
  | source name form data params => exact h.source I name form data params
  | field x name => exact h.recordOp I "field" [x] _ false none
  | fields x names => exact h.recordOp I "fields" [x] _ false none
  | op name hfield hfields inputs params reduction rowsFrom =>
      exact h.recordOp I name inputs params reduction rowsFrom
  | external kind descriptor inputs params form =>
      exact h.recordExternal I kind descriptor inputs params form
  | exchange input scheme => exact h.recordExchange I input scheme
  | join left right scheme => exact h.recordJoin I left right scheme

/-- What some inputs carry does not change. -/
theorem Extends.sameRows {s s' : Session F} (h : s.Filled) (hext : s.Extends s') {op : String}
    {inputs : List Nat} (hinputs : ∀ i ∈ inputs, i < s.nodes.length) :
    s'.sameRows op inputs = s.sameRows op inputs := by
  have hrows : inputs.map (s'.rows.getD · []) = inputs.map (s.rows.getD · []) := by
    refine List.map_congr_left fun i hi => ?_
    have hlt : i < s.rows.length := h.rows ▸ hinputs i hi
    obtain ⟨more, hmore⟩ := hext.rows
    rw [← hmore, List.getD_eq_getElem?_getD, List.getElem?_append_left hlt,
      ← List.getD_eq_getElem?_getD]
  unfold Session.sameRows
  rw [hrows]

/-- Nor does the form the backend gives them. -/
theorem Extends.located {s s' : Session F} (h : s.Filled) (hext : s.Extends s') {I : Inference F}
    {op : String} {inputs : List Nat} {params : ParamMap}
    (hinputs : ∀ i ∈ inputs, i < s.nodes.length) :
    s'.located I op inputs params = s.located I op inputs params := by
  obtain ⟨more, hmore⟩ := hext.forms
  have hlt : ∀ i ∈ inputs, i < s.forms.length := fun i hi => h.forms ▸ hinputs i hi
  have hfound : inputs.find? (fun i => decide (s.forms.length ≤ i)) = none := by
    simpa using hlt
  have hfound' : inputs.find? (fun i => decide (s'.forms.length ≤ i)) = none := by
    rw [List.find?_eq_none]
    intro i hi
    have hlater := hlt i hi
    rw [← hmore, List.length_append]
    simp only [decide_eq_true_eq]
    omega
  have hforms : inputs.filterMap (s'.forms[·]?) = inputs.filterMap (s.forms[·]?) := by
    refine List.filterMap_congr fun i hi => ?_
    rw [← hmore, List.getElem?_append_left (hlt i hi)]
  unfold Session.located
  rw [hfound, hfound', hforms]

end Session

end Graphed
