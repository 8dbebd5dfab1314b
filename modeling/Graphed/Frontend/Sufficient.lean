import Graphed.Frontend.ReadColumns

/-!
# A read list is enough

A graph whose nodes read known columns off a source has, on the source read with these columns
alone, the values it has on the whole record. The reduction cannot undo that: it is followed by an
interpretation that tells the record from what was read off it.
-/

namespace Graphed

open GraphStore

/-- A backend over records: what it gives for an operator's token, and what it says of a record. A
name that is no field of a record is looked up as its attribute. -/
structure RecordBackend (W : Type) where
  eval : String → List W → Except String W
  fields : W → List String
  column : W → String → Except String W
  property : W → String → Except String W
  select : W → List String → Except String W
  narrow : List String → W → W
  eval_field (x : W) (name : String) :
    eval (NodeKey.op "field" (.new [("field", .str name)]) []).token [x] =
      if name ∈ fields x then column x name else property x name
  eval_fields (x : W) (text : String) :
    eval (NodeKey.op "fields" (.new [("fields", .str text)]) []).token [x] =
      select x (fieldList text)
  fields_narrow (columns : List String) (x : W) :
    fields (narrow columns x) = (fields x).filter (· ∈ columns)
  column_narrow {columns : List String} {x : W} {name : String} :
    name ∈ fields x → name ∈ columns → column (narrow columns x) name = column x name
  select_narrow {columns : List String} {x : W} {names : List String} :
    (∀ c ∈ names, c ∈ fields x ∧ c ∈ columns) → select (narrow columns x) names = select x names

/-- A source's token. -/
def isSourceToken (token : String) : Bool := "src|".toList.isPrefixOf token.toList

namespace RecordBackend

variable {W : Type} (B : RecordBackend W)

/-- What a node gives on its inputs' outcomes: a source what is loaded for it, another node what the
backend gives. -/
def meaning (load : String → Except String W) (token : String) (ins : List (Except String W)) :
    Except String W :=
  if isSourceToken token then load token else ins.mapM id >>= B.eval token

/-- Some sources read with these columns alone. -/
def narrowed (tokens columns : List String) (load : String → Except String W) (token : String) :
    Except String W :=
  if token ∈ tokens then (load token).map (B.narrow columns) else load token

end RecordBackend

/-! ### Following the record -/

/-- What is known of a value: it is a record to be read, or it was read off one, or neither. -/
inductive Followed where
  | record
  | clean
  | spoilt
deriving DecidableEq

/-- A token of a field read of allowed columns. -/
def ReadsAllowed (allowed : List String) (token : String) : Prop :=
  (∃ name, token = (NodeKey.op "field" (.new [("field", .str name)]) []).token ∧ name ∈ allowed) ∨
    ∃ text, token = (NodeKey.op "fields" (.new [("fields", .str text)]) []).token ∧
      ∀ c ∈ fieldList text, c ∈ allowed

open Classical in
/-- Follow the records of some source tokens through an operator. -/
noncomputable def follow (tokens allowed : List String) (token : String) (ins : List Followed) :
    Followed :=
  if token ∈ tokens then .record
  else if ins = [.record] ∧ ReadsAllowed allowed token then .clean
  else if ∀ r ∈ ins, r = .clean then .clean else .spoilt

section Followed

variable {W : Type} {B : RecordBackend W} {load : String → Except String W}
  {tokens columns allowed : List String}

/-- The two outcomes of a value that is followed: of the whole record, and of the narrowed one. -/
def Outcomes (B : RecordBackend W) (load : String → Except String W)
    (tokens columns : List String) : Followed → Except String W × Except String W → Prop
  | .record, (x, y) => ∃ token ∈ tokens, x = load token ∧ y = (load token).map (B.narrow columns)
  | .clean, (x, y) => x = y
  | .spoilt, _ => True

/-- A field read of allowed columns does not see the narrowing. -/
theorem meaning_readsAllowed {token source : String} (hreads : ReadsAllowed allowed token)
    (hallowed : ∀ c ∈ allowed, c ∈ columns)
    (hfields : ∀ x, load source = .ok x → ∀ c ∈ allowed, c ∈ B.fields x) :
    ([load source].mapM id >>= B.eval token) =
      ([(load source).map (B.narrow columns)].mapM id >>= B.eval token) := by
  cases hload : load source with
  | error e => rfl
  | ok x =>
      change B.eval token [x] = B.eval token [B.narrow columns x]
      have hknown := hfields x hload
      rcases hreads with ⟨name, rfl, hname⟩ | ⟨text, rfl, htext⟩
      · have hnarrow : name ∈ B.fields (B.narrow columns x) := by
          rw [B.fields_narrow, List.mem_filter, decide_eq_true_eq]
          exact ⟨hknown name hname, hallowed name hname⟩
        rw [B.eval_field, B.eval_field, if_pos (hknown name hname), if_pos hnarrow,
          B.column_narrow (hknown name hname) (hallowed name hname)]
      · rw [B.eval_fields, B.eval_fields,
          B.select_narrow fun c hc => ⟨hknown c (htext c hc), hallowed c (htext c hc)⟩]

/-- One operator, followed. -/
theorem outcomes_step (hsource : ∀ token ∈ tokens, isSourceToken token = true)
    (hallowed : ∀ c ∈ allowed, c ∈ columns)
    (hfields : ∀ token ∈ tokens, ∀ x, load token = .ok x → ∀ c ∈ allowed, c ∈ B.fields x)
    (token : String) (rs : List Followed) (zs : List (Except String W × Except String W))
    (h : List.Forall₂ (Outcomes B load tokens columns) rs zs) :
    Outcomes B load tokens columns (follow tokens allowed token rs)
      (B.meaning load token (zs.map Prod.fst),
        B.meaning (B.narrowed tokens columns load) token (zs.map Prod.snd)) := by
  unfold follow
  by_cases htoken : token ∈ tokens
  · rw [if_pos htoken]
    refine ⟨token, htoken, ?_, ?_⟩
    · rw [RecordBackend.meaning, if_pos (hsource token htoken)]
    · rw [RecordBackend.meaning, if_pos (hsource token htoken), RecordBackend.narrowed,
        if_pos htoken]
  · rw [if_neg htoken]
    have hload : B.narrowed tokens columns load token = load token := if_neg htoken
    by_cases hreads : rs = [.record] ∧ ReadsAllowed allowed token
    · rw [if_pos hreads]
      obtain ⟨rfl, hallow⟩ := hreads
      obtain ⟨z, zs', hz, hzs, rfl⟩ := List.forall₂_cons_left_iff.mp h
      rw [List.forall₂_nil_left_iff] at hzs
      subst hzs
      obtain ⟨source, hmem, hfst, hsnd⟩ := hz
      change B.meaning load token [z.1] = B.meaning _ token [z.2]
      rw [RecordBackend.meaning, RecordBackend.meaning, hload, hfst, hsnd,
        meaning_readsAllowed hallow hallowed (hfields source hmem)]
    · rw [if_neg hreads]
      split
      · rename_i hclean
        have hsame : zs.map Prod.fst = zs.map Prod.snd := by
          clear hreads
          induction h with
          | nil => rfl
          | @cons r z rs zs hz _ ih =>
              obtain rfl := hclean r List.mem_cons_self
              rw [List.map_cons, List.map_cons, ih fun r hr => hclean r (List.mem_cons_of_mem _ hr)]
              exact congrArg (· :: _) hz
        change B.meaning load token _ = B.meaning _ token _
        rw [RecordBackend.meaning, RecordBackend.meaning, hload, hsame]
      · trivial

/-- **What is followed clean is the same**, of the whole record and of the narrowed one. -/
theorem values_of_clean (hsource : ∀ token ∈ tokens, isSourceToken token = true)
    (hallowed : ∀ c ∈ allowed, c ∈ columns)
    (hfields : ∀ token ∈ tokens, ∀ x, load token = .ok x → ∀ c ∈ allowed, c ∈ B.fields x)
    {nodes : List NodeKey} {i : Nat}
    (hclean : (values (follow tokens allowed) nodes).getD i none = some .clean) :
    ∃ v, (values (B.meaning load) nodes).getD i none = some v ∧
      (values (B.meaning (B.narrowed tokens columns load)) nodes).getD i none = some v := by
  let both (token : String) (zs : List (Except String W × Except String W)) :
      Except String W × Except String W :=
    (B.meaning load token (zs.map Prod.fst),
      B.meaning (B.narrowed tokens columns load) token (zs.map Prod.snd))
  have hfollow := values_related (I := follow tokens allowed) (J := both)
    (P := Outcomes B load tokens columns) (outcomes_step hsource hallowed hfields) nodes i
  have hfst := values_related (I := both) (J := B.meaning load) (P := fun z x => z.1 = x)
    (fun t zs xs h => by
      have hxs : xs = zs.map Prod.fst := by
        induction h with
        | nil => rfl
        | cons hzx _ ih => rw [List.map_cons, ih, hzx]
      rw [hxs]) nodes i
  have hsnd := values_related (I := both) (J := B.meaning (B.narrowed tokens columns load))
    (P := fun z x => z.2 = x)
    (fun t zs xs h => by
      have hxs : xs = zs.map Prod.snd := by
        induction h with
        | nil => rfl
        | cons hzx _ ih => rw [List.map_cons, ih, hzx]
      rw [hxs]) nodes i
  rw [hclean] at hfollow
  generalize (values both nodes).getD i none = z at hfollow hfst hsnd
  cases hfollow with
  | @some _ z hz =>
      generalize (values (B.meaning load) nodes).getD i none = x at hfst
      generalize (values (B.meaning (B.narrowed tokens columns load)) nodes).getD i none = y at hsnd
      cases hfst with
      | some hx =>
          cases hsnd with
          | some hy => exact ⟨_, rfl, congrArg some ((hz.symm.trans hx).symm.trans hy).symm⟩

end Followed

/-! ### The recorded graph -/

section Recorded

variable {F : Type} {I : Inference F} {s : Session F} {tokens allowed : List String}

/-- A token of a field read. -/
theorem notMem_identity_of_fieldRead {forms : List F} {key : NodeKey} (h : FieldRead I forms key) :
    key.token ∉ identityTokens := by
  have hall : ∀ t ∈ identityTokens, ¬ "op|f".toList <+: t.toList := by decide
  refine fun hmem => hall _ hmem ?_
  rcases h with ⟨x, name, rfl⟩ | ⟨x, names, form, rfl, -, -⟩
  · change "op|f".toList <+: (withParams "op|field" _).toList
    unfold withParams
    split <;> simp
  · change "op|f".toList <+: (withParams "op|fields" _).toList
    unfold withParams
    split <;> simp

/-- Off the sources of these tokens the graphs of some nodes read allowed columns, and nothing
else. -/
structure ReadsOnly (s : Session F) (tokens allowed : List String) (roots : List Nat) : Prop where
  lt : ∀ o ∈ roots, o < s.nodes.length
  bare : ∀ o ∈ roots, (s.nodes.getD o default).token ∉ tokens
  reads : ∀ o ∈ roots, ∀ x y, Reads s.nodes o x → y ∈ inputsAt s.nodes x →
    (s.nodes.getD y default).token ∈ tokens →
      ∃ columns, (s.nodes.getD x default).columnsRead = some columns ∧ ∀ c ∈ columns, c ∈ allowed

/-- A node that reads columns is one of the two subscripts. -/
theorem Session.Kept.fieldRead (h : s.Kept I) {key : NodeKey} (hkey : key ∈ s.nodes)
    {columns : List String} (hcolumns : key.columnsRead = some columns) :
    FieldRead I s.forms key := by
  unfold NodeKey.columnsRead at hcolumns
  cases hop : key.recordedOp with
  | none =>
      rw [hop] at hcolumns
      cases hcolumns
  | some op =>
      refine h.reads key hkey op hop ?_
      rw [hop] at hcolumns
      by_contra hname
      rw [not_or] at hname
      simp only [if_neg hname.1, if_neg hname.2] at hcolumns
      cases hcolumns

/-- The columns a subscript reads. -/
theorem readsAllowed_of_fieldRead {key : NodeKey} (h : FieldRead I s.forms key)
    {columns : List String} (hcolumns : key.columnsRead = some columns)
    (hallowed : ∀ c ∈ columns, c ∈ allowed) : ReadsAllowed allowed key.token := by
  rcases h with ⟨x, name, rfl⟩ | ⟨x, names, form, rfl, -, -⟩
  · refine Or.inl ⟨name, rfl, hallowed name ?_⟩
    obtain rfl := Option.some.inj hcolumns
    rw [Session.text_single]
    exact List.mem_singleton_self _
  · refine Or.inr ⟨_, rfl, fun c hc => hallowed c ?_⟩
    obtain rfl := Option.some.inj hcolumns
    rwa [Session.text_single]

theorem inputs_of_fieldRead {key : NodeKey} (h : FieldRead I s.forms key) :
    ∃ x, key.inputs = [x] := by
  rcases h with ⟨x, name, rfl⟩ | ⟨x, names, form, rfl, -, -⟩ <;> exact ⟨x, rfl⟩

theorem reads_lt (hkept : s.Kept I) {o i : Nat} (ho : o < s.nodes.length)
    (h : Reads s.nodes o i) : i < s.nodes.length :=
  (PostOrder.rank_le_of_reaches (inputDag hkept.topological) h).trans_lt ho

theorem followed_source (hkept : s.Kept I) {i : Nat} (hi : i < s.nodes.length)
    (htoken : (s.nodes.getD i default).token ∈ tokens) :
    arenaValue (follow tokens allowed) s.nodes i = .record := by
  have hkey := List.getElem?_eq_getElem hi
  rw [List.getD_eq_getElem?_getD, hkey, Option.getD_some] at htoken
  rw [arenaValue_eq hkept.topological hkey, follow, if_pos htoken]

/-- In the graphs of the roots, everything but the records is clean. -/
theorem followed_arena (hkept : s.Kept I) {roots : List Nat} (h : ReadsOnly s tokens allowed roots)
    {o : Nat} (ho : o ∈ roots) {i : Nat} (hi : Reads s.nodes o i)
    (hnot : (s.nodes.getD i default).token ∉ tokens) :
    arenaValue (follow tokens allowed) s.nodes i = .clean := by
  induction i using Nat.strongRecOn with
  | ind i ih =>
      have hlt := reads_lt hkept (h.lt o ho) hi
      have hkey := List.getElem?_eq_getElem hlt
      have hget : s.nodes.getD i default = s.nodes[i] := by
        rw [List.getD_eq_getElem?_getD, hkey, Option.getD_some]
      have hinputs := inputsAt_of_getElem? hkey
      have hbelow : ∀ y ∈ s.nodes[i].inputs, y < i ∧ Reads s.nodes o y := by
        intro y hy
        refine ⟨hkept.topological i _ hkey y hy, hi.tail ?_⟩
        rwa [hinputs]
      rw [arenaValue_eq hkept.topological hkey, follow, if_neg (hget ▸ hnot)]
      by_cases hrecord : ∃ y ∈ s.nodes[i].inputs, (s.nodes.getD y default).token ∈ tokens
      · obtain ⟨y, hy, htoken⟩ := hrecord
        obtain ⟨columns, hcolumns, hallowed⟩ := h.reads o ho i y hi (hinputs ▸ hy) htoken
        rw [hget] at hcolumns
        have hread := hkept.fieldRead (List.getElem_mem hlt) hcolumns
        obtain ⟨x, hx⟩ := inputs_of_fieldRead hread
        rw [hx] at hy
        obtain rfl := List.mem_singleton.mp hy
        refine if_pos ⟨?_, readsAllowed_of_fieldRead hread hcolumns hallowed⟩
        rw [hx, List.map_singleton, followed_source hkept ?_ htoken]
        exact (hbelow y (hx ▸ List.mem_singleton_self y)).1.trans hlt
      · have hclean : ∀ r ∈ s.nodes[i].inputs.map (arenaValue (follow tokens allowed) s.nodes),
            r = .clean := by
          intro r hr
          obtain ⟨y, hy, rfl⟩ := List.mem_map.mp hr
          exact ih y (hbelow y hy).1 (hbelow y hy).2 fun htoken => hrecord ⟨y, hy, htoken⟩
        rw [if_neg, if_pos hclean]
        rintro ⟨hins, -⟩
        have himpossible := hclean .record (hins ▸ List.mem_singleton_self _)
        cases himpossible

/-- **A reduction of the graph is followed clean**, in whatever way a sound engine reduces it. -/
theorem followed_reduced (hkept : s.Kept I) {roots : List Nat}
    (h : ReadsOnly s tokens allowed roots) (hsource : ∀ token ∈ tokens, isSourceToken token = true)
    {engine : EggEngine} (hsound : engine.Sound) (mode : FusionMode) {o : Nat} (ho : o ∈ roots) :
    ∃ l, (fromReduced (reduceWithMode s.nodes roots engine mode)).1.nodeMap[o]? = some (some l) ∧
      (values (follow tokens allowed)
        (fromReduced (reduceWithMode s.nodes roots engine mode)).1.nodes).getD l.1 none =
          some .clean := by
  have htopo := hkept.topological
  have hpreserves := preservesMeaning (I := follow tokens allowed) htopo hkept.stage hsound ?_ h.lt
    ?_ mode
  · obtain ⟨l, v, hl, hv, hrecorded⟩ := hpreserves.requested o ho
    refine ⟨l, hl, ?_⟩
    rw [values_arena htopo hkept.stage (h.lt o ho), Option.some.injEq,
      followed_arena hkept h ho Relation.ReflTransGen.refl (h.bare o ho)] at hrecorded
    rw [hv, hrecorded]
  · intro t _ x y
    have hpair : ∀ x y : Followed, [x, y] ≠ [.record] := by simp
    unfold follow
    simp only [hpair, false_and, if_false, List.forall_mem_cons, List.not_mem_nil, false_implies,
      implies_true, and_true, true_and, and_comm (a := x = .clean)]
  · intro i hi x htoken hinputs
    obtain ⟨o', ho', hreads⟩ := (mem_reached_iff_reads htopo (swapsPairs_symmetricSwaps _)).mp hi
    have hlt := reads_lt hkept (h.lt o' ho') hreads
    have hget : s.nodes.getD i default = s.nodes[i] := by
      rw [List.getD_eq_getElem?_getD, List.getElem?_eq_getElem hlt, Option.getD_some]
    have hx : x ∈ inputsAt s.nodes i := hinputs ▸ List.mem_singleton_self x
    rw [followed_arena hkept h ho' hreads, followed_arena hkept h ho' (hreads.tail hx)]
    · intro hrecord
      obtain ⟨columns, hcolumns, -⟩ := h.reads o' ho' i x hreads hx hrecord
      rw [hget] at hcolumns htoken
      exact notMem_identity_of_fieldRead (hkept.fieldRead (List.getElem_mem hlt) hcolumns) htoken
    · intro hrecord
      have hboth : ∀ t ∈ identityTokens, isSourceToken t = false := by decide
      exact Bool.false_ne_true ((hboth _ htoken).symm.trans (hsource _ hrecord))

end Recorded

/-! ### Read lists -/

section Sufficient

variable {F : Type} {I : Inference F}

/-- The fields of the source a read reads. -/
def SourceRead.fields (read : SourceRead I) : List String :=
  (read.1.session.forms[read.2]?).elim [] I.fieldNames

/-- An output takes the record whole: it is the record, or a node other than a field read takes
it. -/
def SourceRead.TakenWhole (read : SourceRead I) : Prop :=
  read.1.node = read.2 ∨ TakesWhole read.1.session.nodes read.2 read.1.node

/-- Sources load records with the fields of their forms. -/
def Conforms {W : Type} (B : RecordBackend W) (I : Inference F) (s : Session F)
    (load : String → Except String W) : Prop :=
  ∀ (i : Nat) (form : F) (x : W), s.forms[i]? = some form →
    load (s.nodes.getD i default).token = .ok x → ∀ c, c ∈ B.fields x ↔ c ∈ I.fieldNames form

/-- The columns are enough for some nodes of a Session: on the sources read with these columns alone
each has the value it has on the whole records, node by node and in the compiled graph. -/
def Enough (reads : List (SourceRead I)) (s : Session F) (columns : List String)
    (roots : List Nat) : Prop :=
  ∀ (W : Type) (B : RecordBackend W) (load : String → Except String W), Conforms B I s load →
    ∀ tokens : List String, (∀ t, t ∈ tokens ↔ ∃ read ∈ reads, read.1.session = s ∧
      (s.nodes.getD read.2 default).token = t) →
    ∀ o ∈ roots,
      arenaValue (B.meaning (B.narrowed tokens columns load)) s.nodes o =
          arenaValue (B.meaning load) s.nodes o ∧
        ∀ (engine : EggEngine), engine.Sound → ∀ (mode : FusionMode)
          (r : GraphStore × ReductionReport),
          s.store.reduceWithOutputs roots engine mode = .ok r →
            ∃ l v, r.1.nodeMap[o]? = some (some l) ∧
              (values (B.meaning (B.narrowed tokens columns load)) r.1.nodes).getD l.1 none =
                some v ∧
              (values (B.meaning load) r.1.nodes).getD l.1 none = some v

/-- What is asked of an answer to some reads: a record taken whole is read whole, columns are fields
of the sources, and they are enough for the outputs. -/
structure SufficientAnswer (outputs : List (Output I)) (reads : List (SourceRead I))
    (answer : Option (List String)) : Prop where
  whole : (∃ read ∈ reads, read.TakenWhole) → answer = none
  fields : ∀ columns, answer = some columns → ∀ read ∈ reads, ∀ c ∈ columns, c ∈ read.fields
  enough : ∀ columns, answer = some columns → ∀ (s : Session F) (roots : List Nat),
    (∀ o ∈ roots, ∃ member ∈ outputs.flatMap universesOf, member.session = s ∧ member.node = o) →
      Enough reads s columns roots

/-- Every column read off one of the sources is a field of each. -/
def NamesFields (reads : List (SourceRead I)) : Prop :=
  ∀ read ∈ reads, ∀ c, read.Column c → ∀ read' ∈ reads, c ∈ read'.fields

theorem SourceRead.whole_of_takenWhole {read : SourceRead I} (hsource : read.2 ∈ read.1.sources)
    (h : read.TakenWhole) : read.Whole := by
  rcases h with hbare | hwhole
  · refine Or.inr fun c hc => ?_
    obtain ⟨x, ⟨hreach, htake⟩, -⟩ := hc
    have htopo := read.1.kept.topological
    have hnone : inputsAt read.1.session.nodes read.1.node = [] := by
      rw [hbare]
      exact NodeKey.inputs_of_isSource ((mem_reachableSources htopo read.1.node_lt).mp hsource).1
    rcases (reaches_iff htopo).mp hreach with rfl | ⟨y, hy, -⟩
    · rw [hnone] at htake
      cases htake
    · rw [hnone] at hy
      cases hy
  · exact Or.inl hwhole

/-- A Session holds a source once. -/
theorem Session.Kept.source_unique {s : Session F} (h : s.Kept I) {i j : Nat}
    (hi : i < s.nodes.length) (hj : j < s.nodes.length)
    (hsource : (s.nodes.getD i default).isSource = true)
    (htoken : (s.nodes.getD i default).token = (s.nodes.getD j default).token) : i = j := by
  have hjsource := (isSource_of_token htoken).symm.trans hsource
  have hgetI := List.getElem?_eq_getElem hi
  have hgetJ := List.getElem?_eq_getElem hj
  rw [List.getD_eq_getElem?_getD, hgetI, Option.getD_some] at hsource htoken
  rw [List.getD_eq_getElem?_getD, hgetJ, Option.getD_some] at hjsource htoken
  refine h.interned.distinct i j _ _ hgetI hgetJ (NodeKey.beq_iff_operator.mpr ⟨?_, ?_⟩)
  · exact NodeKey.token_inj.mp htoken
  · rw [NodeKey.inputs_of_isSource hsource, NodeKey.inputs_of_isSource hjsource]

theorem isSourceToken_token {key : NodeKey} (h : key.isSource = true) :
    isSourceToken key.token = true := by
  cases key with
  | source name params =>
      unfold isSourceToken
      rw [List.isPrefixOf_iff_prefix]
      change _ <+: (withParams ("src|" ++ escapeToken name) params).toList
      unfold withParams
      split <;> simp [String.toList_append]
  | _ => cases h

variable {outputs : List (Output I)} {reads : List (SourceRead I)} {answer : Option (List String)}

/-- The reads are of the outputs, and each source read is read by every output that reaches it. -/
structure ReadsAll (outputs : List (Output I)) (reads : List (SourceRead I)) : Prop where
  valid : ∀ read ∈ reads, read.1 ∈ outputs.flatMap universesOf ∧ read.2 ∈ read.1.sources
  closed : ∀ read ∈ reads, ∀ member ∈ outputs.flatMap universesOf,
    member.session = read.1.session → read.2 ∈ member.sources → (member, read.2) ∈ reads

theorem readsAll_readsOf (outputs : List (Output I)) (nid : Nat) :
    ReadsAll outputs (readsOf outputs nid) where
  valid read hread := by
    obtain ⟨hmember, hnid, hsource⟩ := mem_readsOf.mp hread
    exact ⟨hmember, hnid ▸ hsource⟩
  closed read hread member hmember _ hsource := by
    obtain ⟨-, hnid, -⟩ := mem_readsOf.mp hread
    exact mem_readsOf.mpr ⟨hmember, hnid, hnid ▸ hsource⟩

theorem readsAll_readsNamed (outputs : List (Output I)) (name : String) :
    ReadsAll outputs (readsNamed outputs name) where
  valid read hread := by
    obtain ⟨hmember, hsource, -⟩ := mem_readsNamed.mp hread
    exact ⟨hmember, hsource⟩
  closed read hread member hmember hsession hsource := by
    obtain ⟨-, -, hname⟩ := mem_readsNamed.mp hread
    exact mem_readsNamed.mpr ⟨hmember, hsource, hsession ▸ hname⟩

/-- Some nodes of a Session read nothing but the answered columns off the sources. -/
theorem Answers.readsOnly {columns : List String} (h : Answers reads (some columns))
    (hall : ReadsAll outputs reads) {s : Session F} (hkept : s.Kept I) {tokens : List String}
    (htokens : ∀ t, t ∈ tokens ↔ ∃ read ∈ reads, read.1.session = s ∧
      (s.nodes.getD read.2 default).token = t) {roots : List Nat}
    (hroots : ∀ o ∈ roots, ∃ member ∈ outputs.flatMap universesOf,
      member.session = s ∧ member.node = o) : ReadsOnly s tokens columns roots := by
  have hnarrow : ∀ read ∈ reads, ¬ read.Whole := fun read hread hwhole =>
    nomatch h.whole.mpr (Or.inr ⟨read, hread, hwhole⟩)
  -- a node reached by a root, of a narrowed token, is a source that the root's read list is about
  have hread : ∀ member ∈ outputs.flatMap universesOf, member.session = s → ∀ y,
      Reads s.nodes member.node y → (s.nodes.getD y default).token ∈ tokens →
        (member, y) ∈ reads := by
    rintro member hmember rfl y hy htoken
    obtain ⟨read, hread, hsession, hsame⟩ := (htokens _).mp htoken
    have hsource := (hall.valid read hread).2
    have htopo := read.1.kept.topological
    obtain ⟨hkind, hreach⟩ := (mem_reachableSources htopo read.1.node_lt).mp hsource
    have hlt := reads_lt read.1.kept read.1.node_lt hreach
    rw [hsession] at hkind hlt
    obtain rfl := hkept.source_unique hlt (reads_lt hkept member.node_lt hy) hkind hsame
    refine hall.closed read hread member hmember hsession.symm ?_
    exact (mem_reachableSources hkept.topological member.node_lt).mpr ⟨hkind, hy⟩
  refine ⟨?_, ?_, ?_⟩
  · intro o ho
    obtain ⟨member, -, rfl, rfl⟩ := hroots o ho
    exact member.node_lt
  · intro o ho htoken
    obtain ⟨member, hmember, rfl, rfl⟩ := hroots o ho
    have hmine := hread member hmember rfl _ Relation.ReflTransGen.refl htoken
    exact hnarrow _ hmine
      (SourceRead.whole_of_takenWhole (hall.valid _ hmine).2 (Or.inl rfl))
  · intro o ho x y hx hy htoken
    obtain ⟨member, hmember, rfl, rfl⟩ := hroots o ho
    have hmine := hread member hmember rfl y (hx.tail hy) htoken
    cases hcolumns : (member.session.nodes.getD x default).columnsRead with
    | none => exact absurd (Or.inl ⟨x, ⟨hx, hy⟩, hcolumns⟩) (hnarrow _ hmine)
    | some found =>
        refine ⟨found, rfl, fun c hc => ?_⟩
        exact (h.columns columns rfl c).mpr ⟨_, hmine, x, ⟨hx, hy⟩, found, hcolumns, hc⟩

/-- **An answer is sufficient** just when a record is taken whole or the columns read are fields. -/
theorem Answers.sufficient_iff (h : Answers reads answer) (hall : ReadsAll outputs reads) :
    SufficientAnswer outputs reads answer ↔
      (∃ read ∈ reads, read.Whole) ∨ NamesFields reads := by
  constructor
  · intro hs
    by_cases hwhole : ∃ read ∈ reads, read.Whole
    · exact Or.inl hwhole
    · refine Or.inr fun read hread c hc read' hread' => ?_
      cases hanswer : answer with
      | none =>
          rcases h.whole.mp hanswer with hnil | hex
          · rw [hnil] at hread
            cases hread
          · exact absurd hex hwhole
      | some columns =>
          exact hs.fields columns hanswer read' hread' c
            ((h.columns columns hanswer c).mpr ⟨read, hread, hc⟩)
  · intro hcases
    have hnames : ∀ columns, answer = some columns → NamesFields reads := by
      intro columns hanswer
      rcases hcases with hwhole | hnames
      · rw [h.whole.mpr (Or.inr hwhole)] at hanswer
        cases hanswer
      · exact hnames
    refine ⟨?_, ?_, ?_⟩
    · rintro ⟨read, hread, htaken⟩
      exact h.whole.mpr (Or.inr ⟨read, hread,
        SourceRead.whole_of_takenWhole (hall.valid read hread).2 htaken⟩)
    · intro columns hanswer read hread c hc
      obtain ⟨first, hfirst, hcolumn⟩ := (h.columns columns hanswer c).mp hc
      exact hnames columns hanswer first hfirst c hcolumn read hread
    · rintro columns rfl s roots hroots W B load hconforms tokens htokens o ho
      obtain ⟨member, hmember, hsession, -⟩ := hroots o ho
      have hkept : s.Kept I := hsession ▸ member.kept
      have honly := h.readsOnly hall hkept htokens hroots
      have hsource : ∀ token ∈ tokens, isSourceToken token = true := by
        intro token htoken
        obtain ⟨read, hread, rfl, rfl⟩ := (htokens token).mp htoken
        exact isSourceToken_token ((mem_reachableSources read.1.kept.topological
          read.1.node_lt).mp (hall.valid read hread).2).1
      have hfields : ∀ token ∈ tokens, ∀ x, load token = .ok x → ∀ c ∈ columns,
          c ∈ B.fields x := by
        intro token htoken x hx c hc
        obtain ⟨read, hread, rfl, rfl⟩ := (htokens token).mp htoken
        obtain ⟨first, hfirst, hcolumn⟩ := (h.columns columns rfl c).mp hc
        have hknown := hnames columns rfl first hfirst c hcolumn read hread
        unfold SourceRead.fields at hknown
        cases hform : read.1.session.forms[read.2]? with
        | none =>
            rw [hform] at hknown
            cases hknown
        | some form =>
            rw [hform] at hknown
            exact (hconforms read.2 form x hform hx c).mpr hknown
      have hsame : ∀ {nodes : List NodeKey} {i : Nat},
          (values (follow tokens columns) nodes).getD i none = some .clean →
            ∃ v, (values (B.meaning load) nodes).getD i none = some v ∧
              (values (B.meaning (B.narrowed tokens columns load)) nodes).getD i none = some v :=
        fun hclean => values_of_clean hsource (fun _ hc => hc) hfields hclean
      constructor
      · have hclean : (values (follow tokens columns) s.nodes).getD o none = some .clean := by
          rw [values_arena hkept.topological hkept.stage (honly.lt o ho),
            followed_arena hkept honly ho Relation.ReflTransGen.refl (honly.bare o ho)]
        obtain ⟨v, hfull, hnarrow⟩ := hsame hclean
        rw [values_arena hkept.topological hkept.stage (honly.lt o ho)] at hfull hnarrow
        exact (Option.some.inj hnarrow).trans (Option.some.inj hfull).symm
      · intro engine hsound mode r hr
        obtain ⟨-, rfl⟩ := reduceWithOutputs_eq_ok.mp hr
        obtain ⟨l, hl, hclean⟩ := followed_reduced hkept honly hsource hsound mode ho
        obtain ⟨v, hfull, hnarrow⟩ := hsame hclean
        exact ⟨l, v, hl, hnarrow, hfull⟩

end Sufficient

/-! ### Records with properties -/

/-- A record's fields and the properties its behavior gives it. -/
structure RecordForm where
  fields : List String
  properties : List String
deriving DecidableEq

/-- Forms of records: a name is a field or a property, a field list is of fields. -/
def recordForm (op : String) (forms : List RecordForm) (params : ParamMap) :
    Except String RecordForm :=
  let form := forms.headD ⟨[], []⟩
  if op = "field" then
    let name := (params.text "field").getD ""
    if name ∈ form.fields ++ form.properties then .ok ⟨[], []⟩
    else .error ("no field named '" ++ name ++ "'")
  else if op = "fields" then
    let names := fieldList ((params.text "fields").getD "")
    if ∀ c ∈ names, c ∈ form.fields then .ok ⟨names, form.properties⟩
    else .error "no such fields"
  else .ok form

def records : Inference RecordForm where
  opForm := recordForm
  hasRows _ := true
  fieldNames := RecordForm.fields
  fields_known {form result params text} htext hok c hc := by
    unfold recordForm at hok
    rw [htext, if_neg (by decide), if_pos rfl] at hok
    by_contra hnot
    rw [if_neg fun hall => hnot (hall c hc)] at hok
    cases hok

/-- A read off records of momentum components. -/
def momenta (name : String) : List (SessionCall RecordForm) :=
  [.source "jets" ⟨["px", "py"], ["pt"]⟩ ⟨0, none, true⟩ (.new []), .field 0 name]

def component : Proxy records :=
  ⟨Session.record records (momenta "px"), Session.kept_record _, 1, by decide⟩

def transverse : Proxy records :=
  ⟨Session.record records (momenta "pt"), Session.kept_record _, 1, by decide⟩

end Graphed
