import Graphed.Frontend.Callables
import Graphed.Frontend.Growth

/-!
# What the calls keep

Names handed out are apart, a key holds one callable for good, and an External is evaluated by the
callable its key holds. What is known of a call stays true while other calls go on.
-/

namespace Graphed

open JsonText FirstSeen

section Answers

variable {F Spec : Type} {B : CallBackend F Spec}

/-! ### The node of a map -/

/-- A value equal to a text is that text. -/
theorem eq_of_canon_str {v : ParamValue} {text : String}
    (h : v.canon = (ParamValue.str text).canon) : v = .str text := by
  cases v with
  | str s => exact h
  | int a => cases h
  | float bits => cases h
  | bool a => cases h

theorem eq_of_canon_entries {xs ys : List (String × ParamValue)}
    (hstr : ∀ e ∈ ys, ∃ text, e.2 = .str text)
    (h : xs.map (fun e => (e.1, e.2.canon)) = ys.map fun e => (e.1, e.2.canon)) : xs = ys := by
  induction ys generalizing xs with
  | nil => exact List.map_eq_nil_iff.mp h
  | cons y ys ih =>
      cases xs with
      | nil => cases h
      | cons x xs =>
          obtain ⟨hhead, hrest⟩ := List.cons.inj h
          obtain ⟨hkey, hvalue⟩ := Prod.mk.inj hhead
          obtain ⟨text, htext⟩ := hstr y List.mem_cons_self
          rw [htext] at hvalue
          rw [ih (fun e he => hstr e (List.mem_cons_of_mem y he)) hrest,
            Prod.ext hkey ((eq_of_canon_str hvalue).trans htext.symm)]

/-- A node equal to a map's is that node: its parameters hold no float. -/
theorem eq_nodeKey {key : NodeKey} {node : MapNode F} {inputs : List Nat}
    (h : (key == node.nodeKey B inputs) = true) : key = node.nodeKey B inputs := by
  have hcanon := NodeKey.beq_iff.mp h
  unfold MapNode.nodeKey at hcanon ⊢
  cases key with
  | external d p ins =>
      obtain ⟨rfl, hparams, rfl⟩ := NodeKey.external.inj hcanon
      have hentries : p = mapParams node.name node.declaredType := by
        apply ParamMap.ext
        apply eq_of_canon_entries ?_ (congrArg ParamMap.entries hparams)
        rw [mapParams_entries]
        cases node.declaredType with
        | none => simp
        | some t => simp
      rw [hentries]
  | source name p => cases hcanon
  | op name p ins => cases hcanon
  | reduction name p ins => cases hcanon
  | stage ins members => cases hcanon
  | exchange scheme ins => cases hcanon
  | join scheme ins => cases hcanon

theorem nodeKey_inj {node node' : MapNode F} {inputs inputs' : List Nat}
    (h : node.nodeKey B inputs = node'.nodeKey B inputs') :
    (node.name = node'.name ∧ node.declaredType = node'.declaredType) ∧ inputs = inputs' := by
  obtain ⟨-, hparams, hinputs⟩ := NodeKey.external.inj h
  exact ⟨mapParams_inj hparams, hinputs⟩

/-! ### What is known of a Session's callables -/

/-- Names derived for callables are taken, each for one call; and every External is a map's, with
the callable its key holds. -/
structure Recorder.Sound (B : CallBackend F Spec) (s : Recorder F) : Prop where
  filled : s.session.Filled
  taken : ∀ who f name, s.fnNames.lookup who = some (f, name) → name ∈ s.fnTaken
  apart : ∀ who who' f f' name, s.fnNames.lookup who = some (f, name) →
    s.fnNames.lookup who' = some (f', name) → who = who'
  external : ∀ item ∈ s.externals, ∃ node : MapNode F,
    s.session.nodes[item.1]? = some (node.nodeKey B item.2.inputs) ∧
      item.2.declared = declaration B node.declaredType ∧
        ∃ first, s.fnHeld.lookup (node.key B) = some (item.2.fn, first)

/-- What tables say of a callable stays said. -/
structure Recorder.Grows (s s' : Recorder F) : Prop where
  session : s.session.Extends s'.session
  names : ∀ who held, s.fnNames.lookup who = some held → s'.fnNames.lookup who = some held
  taken : ∀ name ∈ s.fnTaken, name ∈ s'.fnTaken
  held : ∀ key held, s.fnHeld.lookup key = some held → s'.fnHeld.lookup key = some held
  externals : ∀ id external, s.externals.lookup id = some external →
    s'.externals.lookup id = some external

theorem Recorder.Grows.refl (s : Recorder F) : s.Grows s :=
  ⟨.refl _, fun _ _ h => h, fun _ h => h, fun _ _ h => h, fun _ _ h => h⟩

/-- The name a call wears: the one it declared, or the one derived for its callable. -/
structure Wears (s : Recorder F) (call : MapCall Spec) (name : String) : Prop where
  taken : name ∈ s.fnTaken
  declared : ∀ declared, call.name = some declared → name = declared
  derived : call.name = none → ∃ f, s.fnNames.lookup call.fn.identity = some (f, name)

/-- The call's own checks pass, up to the form traced later. -/
def Passes (B : CallBackend F Spec) (s : Recorder F) (call : MapCall Spec) (node : MapNode F) :
    Prop := ∃ form, checkCall B s.session call node.name = .ok { node with form }

/-- The callable held for the node's key answers the call. -/
def AnsweredBy (B : CallBackend F Spec) (s : Recorder F) (call : MapCall Spec) (node : MapNode F)
    (fn : PyCallable) (warning : Option String) : Prop :=
  ∃ first, s.fnHeld.lookup (node.key B) = some (fn, first) ∧
    compareCallables B fn first call node.name = .ok warning

namespace CallPhase

def name : CallPhase F → String
  | named name => name
  | checked node => node.name
  | held node _ _ => node.name
  | typed node _ _ => node.name
  | returned node _ _ => node.name
  | refused name _ => name

/-- What is known of a call that got this far. -/
def Fits (B : CallBackend F Spec) (s : Recorder F) (call : MapCall Spec) : CallPhase F → Prop
  | named _ => True
  | checked node => Passes B s call node
  | held node fn warning => Passes B s call node ∧ AnsweredBy B s call node fn warning
  | typed node fn warning => Passes B s call node ∧ AnsweredBy B s call node fn warning
  | returned node id warning => Passes B s call node ∧ ∃ fn, AnsweredBy B s call node fn warning ∧
      s.session.nodes[id]? = some (node.nodeKey B call.inputs) ∧
        s.externals.lookup id = some ⟨fn, declaration B node.declaredType, call.inputs⟩
  | refused name e => checkCall B s.session call name = .error e ∨
      ∃ node held first, node.name = name ∧ Passes B s call node ∧
        s.fnHeld.lookup (node.key B) = some (held, first) ∧
          compareCallables B held first call name = .error e

end CallPhase

theorem Wears.grows {s s' : Recorder F} {call : MapCall Spec} {name : String}
    (h : Wears s call name) (hgrows : s.Grows s') : Wears s' call name where
  taken := hgrows.taken name h.taken
  declared := h.declared
  derived := fun hname => (h.derived hname).imp fun _ hf => hgrows.names _ _ hf

/-- Checks of recorded inputs come out as before. -/
theorem checkCall_grows {s s' : Recorder F} (hs : s.Sound B) (hgrows : s.Grows s')
    {call : MapCall Spec} (hinputs : ∀ i ∈ call.inputs, i < s.session.nodes.length)
    (name : String) : checkCall B s'.session call name = checkCall B s.session call name := by
  unfold checkCall
  rw [hgrows.session.sameRows hs.filled hinputs]
  simp only [hgrows.session.located hs.filled hinputs]

/-- What is known of a call stays known. -/
theorem CallPhase.Fits.grows {s s' : Recorder F} (hs : s.Sound B) (hgrows : s.Grows s')
    {call : MapCall Spec} (hinputs : ∀ i ∈ call.inputs, i < s.session.nodes.length)
    {phase : CallPhase F} (h : phase.Fits B s call) : phase.Fits B s' call := by
  have hpasses : ∀ {node : MapNode F}, Passes B s call node → Passes B s' call node := by
    rintro node ⟨form, hform⟩
    exact ⟨form, by rwa [checkCall_grows hs hgrows hinputs]⟩
  have hanswered : ∀ {node : MapNode F} {fn : PyCallable} {warning : Option String},
      AnsweredBy B s call node fn warning → AnsweredBy B s' call node fn warning := by
    rintro node fn warning ⟨first, hheld, hcompare⟩
    exact ⟨first, hgrows.held _ _ hheld, hcompare⟩
  cases phase with
  | named name => trivial
  | checked node => exact hpasses h
  | held node fn warning => exact ⟨hpasses h.1, hanswered h.2⟩
  | typed node fn warning => exact ⟨hpasses h.1, hanswered h.2⟩
  | returned node id warning =>
      obtain ⟨hnode, fn, hfn, hid, hexternal⟩ := h
      exact ⟨hpasses hnode, fn, hanswered hfn, hgrows.session.node hid,
        hgrows.externals _ _ hexternal⟩
  | refused name e =>
      rcases h with h | ⟨node, held, first, hname, hnode, hheld, hcompare⟩
      · exact Or.inl (by rwa [checkCall_grows hs hgrows hinputs])
      · exact Or.inr ⟨node, held, first, hname, hpasses hnode, hgrows.held _ _ hheld, hcompare⟩

/-! ### What a critical section does -/

/-- Names kept in a list of tables that only grew. -/
theorem Recorder.Sound.of_tables {s s' : Recorder F} (hs : s.Sound B)
    (hsession : s'.session = s.session) (hnames : s'.fnNames = s.fnNames)
    (htaken : s'.fnTaken = s.fnTaken) (hexternals : s'.externals = s.externals)
    (hheld : ∀ key held, s.fnHeld.lookup key = some held → s'.fnHeld.lookup key = some held) :
    s'.Sound B ∧ s.Grows s' := by
  refine ⟨⟨?_, ?_, ?_, ?_⟩, ⟨?_, ?_, ?_, hheld, ?_⟩⟩
  · exact hsession ▸ hs.filled
  · exact hnames ▸ htaken ▸ hs.taken
  · exact hnames ▸ hs.apart
  · intro item hitem
    obtain ⟨node, hnode, hdeclared, first, hfirst⟩ := hs.external item (hexternals ▸ hitem)
    exact ⟨node, by rwa [hsession], hdeclared, first, hheld _ _ hfirst⟩
  · exact hsession ▸ Session.Extends.refl _
  · exact fun who held h => hnames ▸ h
  · exact fun name h => htaken ▸ h
  · exact fun id external h => hexternals ▸ h

/-- A call is handed a name it wears, and what is derived for it nothing else answers to. -/
theorem Recorder.Sound.fnName {s : Recorder F} (hs : s.Sound B) (call : MapCall Spec) :
    (s.fnName call.fn call.name).2.Sound B ∧ s.Grows (s.fnName call.fn call.name).2 ∧
      Wears (s.fnName call.fn call.name).2 call (s.fnName call.fn call.name).1 ∧
        (s.fnName call.fn call.name).2.fnHeld = s.fnHeld := by
  have hmore : ∀ name name' : String, name ∈ s.fnTaken → name ∈ insertNew s.fnTaken name' :=
    fun name name' h => mem_insertNew.mpr (Or.inl h)
  unfold Recorder.fnName
  cases hname : call.name with
  | some declared =>
      refine ⟨⟨hs.filled, ?_, hs.apart, hs.external⟩, ⟨.refl _, ?_, ?_, ?_, ?_⟩, ⟨?_, ?_, ?_⟩, rfl⟩
      · exact fun who f name h => hmore _ _ (hs.taken who f name h)
      · exact fun _ _ h => h
      · exact fun name h => hmore _ _ h
      · exact fun _ _ h => h
      · exact fun _ _ h => h
      · exact mem_insertNew.mpr (Or.inr rfl)
      · exact fun declared' h => Option.some.inj (hname.symm.trans h)
      · exact fun h => absurd (hname.symm.trans h) (by simp)
  | none =>
      cases hheld : s.fnNames.lookup call.fn.identity with
      | some held =>
          have hderived : s.fnNames.lookup call.fn.identity = some (held.1, held.2) := hheld
          refine ⟨hs, .refl s, ⟨hs.taken _ _ _ hderived, ?_, fun _ => ⟨held.1, hderived⟩⟩, rfl⟩
          exact fun declared h => absurd (hname.symm.trans h) (by simp)
      | none =>
          dsimp only
          have hfresh := uniqueName_notMem s.fnTaken (call.fn.dunderName.getD "lambda")
          generalize uniqueName s.fnTaken (call.fn.dunderName.getD "lambda") = unique at hfresh ⊢
          have hlookup : ∀ who f name,
              (s.fnNames ++ [(call.fn.identity, call.fn, unique)]).lookup who = some (f, name) →
                s.fnNames.lookup who = some (f, name) ∨ who = call.fn.identity ∧ name = unique := by
            intro who f name h
            rw [List.lookup_append] at h
            cases hwho : s.fnNames.lookup who with
            | some entry =>
                rw [hwho, Option.some_or] at h
                exact Or.inl h
            | none =>
                rw [hwho, Option.none_or] at h
                by_cases heq : who = call.fn.identity
                · rw [heq, List.lookup_cons_self] at h
                  exact Or.inr ⟨heq, (Prod.mk.inj (Option.some.inj h)).2.symm⟩
                · have hne : (who == call.fn.identity) = false := by simpa using heq
                  rw [List.lookup_cons, hne] at h
                  cases h
          have hnew : (s.fnNames ++ [(call.fn.identity, call.fn, unique)]).lookup
              call.fn.identity = some (call.fn, unique) := by
            rw [List.lookup_append, hheld, Option.none_or, List.lookup_cons_self]
          refine ⟨⟨hs.filled, ?_, ?_, hs.external⟩, ⟨.refl _, ?_, ?_, ?_, ?_⟩, ⟨?_, ?_, ?_⟩, rfl⟩
          · intro who f name h
            rcases hlookup who f name h with h | ⟨-, rfl⟩
            · exact hmore _ _ (hs.taken who f name h)
            · exact mem_insertNew.mpr (Or.inr rfl)
          · intro who who' f f' name h h'
            -- the new name is not taken, so no older entry wears it
            rcases hlookup who f name h with hold | ⟨hwho, hname⟩
            · rcases hlookup who' f' name h' with hold' | ⟨-, hname'⟩
              · exact hs.apart who who' f f' name hold hold'
              · exact absurd (hname' ▸ hs.taken who f name hold) hfresh
            · rcases hlookup who' f' name h' with hold' | ⟨hwho', -⟩
              · exact absurd (hname ▸ hs.taken who' f' name hold') hfresh
              · rw [hwho, hwho']
          · exact fun who held h => by rw [List.lookup_append, h, Option.some_or]
          · exact fun name h => hmore _ _ h
          · exact fun _ _ h => h
          · exact fun _ _ h => h
          · exact mem_insertNew.mpr (Or.inr rfl)
          · exact fun declared h => absurd (hname.symm.trans h) (by simp)
          · exact fun _ => ⟨call.fn, hnew⟩

/-- A key that holds nothing yet holds the call's callable, which answers itself. -/
theorem compareCallables_self (call : MapCall Spec) (first name : String) :
    compareCallables B call.fn first call name = .ok none := if_pos rfl

/-- Holding a callable refuses without a trace, or the callable held answers. -/
theorem Recorder.Sound.holdFn {s : Recorder F} (hs : s.Sound B) (call : MapCall Spec)
    (node : MapNode F) :
    (∃ held first e, s.holdFn B call node = (.error e, s) ∧
      s.fnHeld.lookup (node.key B) = some (held, first) ∧
        compareCallables B held first call node.name = .error e) ∨
    ∃ fn warning s', s.holdFn B call node = (.ok (fn, warning), s') ∧ s'.Sound B ∧ s.Grows s' ∧
      AnsweredBy B s' call node fn warning ∧
        ∀ key held, s'.fnHeld.lookup key = some held →
          s.fnHeld.lookup key = some held ∨ key = node.key B ∧ held = (call.fn, call.prov) := by
  have hgrown : ({ s with fnHeld := dictDefault s.fnHeld (node.key B) (call.fn, call.prov) } :
      Recorder F).Sound B ∧ s.Grows _ :=
    hs.of_tables rfl rfl rfl rfl fun _ _ h => lookup_dictDefault_of_some h
  have hself := lookup_dictDefault_self (k := node.key B) s.fnHeld (call.fn, call.prov)
  have hcases : ∀ key held, (dictDefault s.fnHeld (node.key B) (call.fn, call.prov)).lookup key =
      some held → s.fnHeld.lookup key = some held ∨
        key = node.key B ∧ held = (call.fn, call.prov) := by
    intro key held h
    exact (lookup_dictDefault_cases h).imp id fun h => h.2
  unfold Recorder.holdFn
  cases hheld : s.fnHeld.lookup (node.key B) with
  | none =>
      rw [hheld] at hself
      refine Or.inr ⟨call.fn, none, _, ?_, hgrown.1, hgrown.2, ⟨call.prov, hself, ?_⟩, hcases⟩
      · simp only [hheld, Option.getD_none, compareCallables_self]
        rfl
      · exact compareCallables_self call _ _
  | some entry =>
      obtain ⟨held, first⟩ := entry
      rw [hheld] at hself
      have hsame : dictDefault s.fnHeld (node.key B) (call.fn, call.prov) = s.fnHeld := by
        unfold dictDefault
        rw [hheld, Option.isSome_some, if_pos rfl]
      cases hcompare : compareCallables B held first call node.name with
      | error e =>
          refine Or.inl ⟨held, first, e, ?_, rfl, hcompare⟩
          simp only [hheld, Option.getD_some, hcompare, hsame]
          rfl
      | ok warning =>
          refine Or.inr ⟨held, warning, _, ?_, hgrown.1, hgrown.2, ⟨first, hself, hcompare⟩, hcases⟩
          simp only [hheld, Option.getD_some, hcompare]
          rfl

theorem Recorder.Sound.tracedForm {s : Recorder F} (hs : s.Sound B) (fn : PyCallable) (key : String)
    (inputs : List Nat) :
    (s.tracedForm B fn key inputs).2.Sound B ∧ s.Grows (s.tracedForm B fn key inputs).2 ∧
      (s.tracedForm B fn key inputs).2.fnHeld = s.fnHeld := by
  unfold Recorder.tracedForm
  cases B.tracedForm with
  | none => exact ⟨hs, .refl s, rfl⟩
  | some trace =>
      have hgrown : ∀ fnTraced, ({ s with fnTraced } : Recorder F).Sound B ∧
          s.Grows { s with fnTraced } :=
        fun _ => hs.of_tables rfl rfl rfl rfl fun _ _ h => h
      exact ⟨(hgrown _).1, (hgrown _).2, rfl⟩

/-- A held callable's External is entered, or already there with that callable. -/
theorem Recorder.Sound.enterExternal {s : Recorder F} (hs : s.Sound B) {node : MapNode F}
    {fn : PyCallable} {first : String} (hheld : s.fnHeld.lookup (node.key B) = some (fn, first))
    {inputs : List Nat} (hinputs : ∀ i ∈ inputs, i < s.session.nodes.length) :
    ∃ id s', s.enterExternal B node fn inputs = (.ok id, s') ∧ s'.Sound B ∧ s.Grows s' ∧
      s'.fnHeld = s.fnHeld ∧ s'.session.nodes[id]? = some (node.nodeKey B inputs) ∧
        s'.externals.lookup id = some ⟨fn, declaration B node.declaredType, inputs⟩ := by
  obtain ⟨hfilled, hextends, hresult⟩ := hs.filled.enter B.inference (node.nodeKey B inputs)
    node.form none
  unfold Recorder.enterExternal
  generalize s.session.enter B.inference (node.nodeKey B inputs) node.form none = result at *
  obtain ⟨answer, session⟩ := result
  rcases hresult with ⟨bad, hbad, hle, -⟩ | ⟨id, k, rfl, hid, hk⟩
  · exact absurd (hinputs bad hbad) (Nat.not_lt.mpr hle)
  · rw [eq_nodeKey hk] at hid
    -- an External of this node was entered with the same callable and type
    have hprior : ∀ external, (id, external) ∈ s.externals →
        external = ⟨fn, declaration B node.declaredType, inputs⟩ := by
      intro external hmem
      obtain ⟨node', hnode', hdeclared, first', hfirst'⟩ := hs.external _ hmem
      have hsame := Option.some.inj ((hextends.node hnode').symm.trans hid)
      obtain ⟨⟨hname, htype⟩, hinputs'⟩ := nodeKey_inj hsame
      have hkey : node'.key B = node.key B := by
        unfold MapNode.key
        rw [hname, htype]
      rw [hkey, hheld] at hfirst'
      cases external
      simp only [ExternalFn.mk.injEq]
      exact ⟨(Prod.mk.inj (Option.some.inj hfirst')).1.symm, htype ▸ hdeclared, hinputs'⟩
    have hlookup : s.externals.lookup id = none ∨
        s.externals.lookup id = some ⟨fn, declaration B node.declaredType, inputs⟩ := by
      cases hexternal : s.externals.lookup id with
      | none => exact Or.inl rfl
      | some external =>
          obtain ⟨front, rest, hitems, -⟩ := List.lookup_eq_some_iff.mp hexternal
          rw [hprior external (by rw [hitems]; simp)]
          exact Or.inr rfl
    have hgetD : (s.externals.lookup id).getD ⟨fn, declaration B node.declaredType, inputs⟩ =
        ⟨fn, declaration B node.declaredType, inputs⟩ := by
      rcases hlookup with h | h <;> rw [h] <;> rfl
    simp only [hgetD, ne_eq, not_true_eq_false, if_false]
    refine ⟨id, _, rfl, ⟨hfilled, hs.taken, hs.apart, ?_⟩,
      ⟨hextends, fun _ _ h => h, fun _ h => h, fun _ _ h => h, ?_⟩, rfl, hid, ?_⟩
    · intro item hitem
      rcases mem_dictDefault hitem with hitem | ⟨-, rfl⟩
      · obtain ⟨node', hnode', hrest⟩ := hs.external item hitem
        exact ⟨node', hextends.node hnode', hrest⟩
      · exact ⟨node, hid, rfl, first, hheld⟩
    · exact fun _ _ h => lookup_dictDefault_of_some h
    · rw [lookup_dictDefault_self, hgetD]

end Answers

end Graphed
