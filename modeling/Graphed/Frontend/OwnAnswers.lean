import Graphed.Frontend.Answers

/-!
# Whose callable answers

A call that returns is answered by its own callable, by one that is the same call, or by one under
its name that behaves alike or could not be compared; the same call again gives the same node. A
refused call goes unnoticed where the name it took was known before it.
-/

namespace Graphed

open JsonText FirstSeen

section OwnAnswers

variable {F Spec : Type} [DecidableEq F] (B : CallBackend F Spec)

/-! ### The evaluator of a node -/

/-- What an External is resolved by. -/
def externalKey : NodeKey → Option String
  | .external descriptor params _ =>
      some (evaluatorKey B.floatJson descriptor.contentHash params)
  | _ => none

/-- Every External's evaluator by its key; of one key the External recorded last. -/
def Recorder.evaluators (s : Recorder F) : List (String × ExternalFn) :=
  (s.externals.filterMap fun item =>
    (s.session.nodes[item.1]?.bind (externalKey B)).map (·, item.2)).foldl
      (fun byKey item => dictUpdate byKey [item]) []

/-- The evaluator a plan finds for a node of the record. -/
def Recorder.evaluatorOf (s : Recorder F) (nid : Nat) : Option ExternalFn :=
  (s.session.nodes[nid]?.bind (externalKey B)).bind fun key => (s.evaluators B).lookup key

/-! ### The claims on a run -/

namespace CallSystem

/-- Two calls wear one name, which one of them declared. -/
def DeclaredFor (sys : CallSystem F Spec) (call : MapCall Spec) (name : String) (fn : PyCallable) :
    Prop :=
  ∃ id call' phase, sys.calls id = some (call', phase) ∧ call'.fn = fn ∧ phase.name = name ∧
    (call.name = some name ∨ call'.name = some name)

/-- A call that returns is answered by its callable, by the same Python call, after a warning that
the two could not be compared, or by one of its name that behaves alike. -/
def AnswersOwn (sys : CallSystem F Spec) : Prop :=
  ∀ id call node nid warning, sys.calls id = some (call, .returned node nid warning) →
    ∃ external, sys.recorder.evaluatorOf B nid = some external ∧
      (external.fn.identity = call.fn.identity ∨ warning.isSome ∨
        (external.fn.digest.isSome ∧ external.fn.digest = call.fn.digest ∧
          sys.DeclaredFor call node.name external.fn))

/-- The same call on the same inputs is not refused once it returned, and gives the same node. -/
def Rerecords (sys : CallSystem F Spec) : Prop :=
  ∀ id id' call call' node nid warning phase,
    sys.calls id = some (call, .returned node nid warning) → sys.calls id' = some (call', phase) →
      call'.fn = call.fn → call'.name = call.name → call'.inputs = call.inputs →
        call'.outputType = call.outputType →
          (∀ name e, phase ≠ .refused name e) ∧
            ∀ node' nid' warning', phase = .returned node' nid' warning' → nid' = nid

end CallSystem

def CallEvent.isOf (id : Nat) : CallEvent F Spec → Bool
  | .enter id' _ => id' == id
  | .turn id' => id' == id
  | .other _ => false

namespace CallSystem

/-- Without a refused call the tables and every other call are as with it. -/
def Unnoticed (sys : CallSystem F Spec) (events : List (CallEvent F Spec)) : Prop :=
  ∀ id call name e, (sys.run B events).calls id = some (call, .refused name e) →
    (sys.run B (events.filter (!·.isOf id))).recorder = (sys.run B events).recorder ∧
      ∀ id' ≠ id, (sys.run B (events.filter (!·.isOf id))).calls id' =
        (sys.run B events).calls id'

end CallSystem

/-- The name a call is about to take is known: it is taken, or its callable already has one. -/
def Recorder.Knows (s : Recorder F) (call : MapCall Spec) : Prop :=
  match call.name with
  | some declared => declared ∈ s.fnTaken
  | none => (s.fnNames.lookup call.fn.identity).isSome

/-- Whoever is refused took a name that was known. -/
def CallSystem.RefusedKnown (sys : CallSystem F Spec) (events : List (CallEvent F Spec)) : Prop :=
  ∀ front id call back, events = front ++ .enter id call :: back →
    (sys.run B front).calls id = none →
      (∃ call' name e, (sys.run B events).calls id = some (call', .refused name e)) →
        (sys.run B front).recorder.Knows call

variable {B}

/-! ### One critical section -/

/-- The call has a callable held for its key. -/
def CallPhase.Holding : CallPhase F → Prop
  | .held .. | .typed .. | .returned .. => True
  | .named _ | .checked _ | .refused .. => False

/-- What one critical section of a call does. -/
structure Advances (B : CallBackend F Spec) (s : Recorder F) (call : MapCall Spec)
    (phase : CallPhase F) (result : CallPhase F × Recorder F) : Prop where
  sound : result.2.Sound B
  grows : s.Grows result.2
  fits : result.1.Fits B result.2 call
  name : result.1.name = phase.name
  held : ∀ key held, result.2.fnHeld.lookup key = some held →
    s.fnHeld.lookup key = some held ∨
      held.1 = call.fn ∧ ∃ t, key = mapKey B.floatJson phase.name t
  holding : phase.Holding → result.1.Holding
  untouched : ¬result.1.Holding → result.2 = s

omit [DecidableEq F] in
/-- A section that changes no table. -/
theorem advances_of_same {s : Recorder F} (hs : s.Sound B) {call : MapCall Spec}
    {phase : CallPhase F} (phase' : CallPhase F) (hfits : phase'.Fits B s call)
    (hname : phase'.name = phase.name) (hholding : phase.Holding → phase'.Holding) :
    Advances B s call phase (phase', s) :=
  ⟨hs, .refl s, hfits, hname, fun _ _ h => Or.inl h, hholding, fun _ => rfl⟩

omit [DecidableEq F] in
theorem name_of_checkCall {s : Session F} {call : MapCall Spec} {name : String} {node : MapNode F}
    (h : checkCall B s call name = .ok node) : node.name = name := by
  unfold checkCall at h
  cases hrows : s.sameRows "map" call.inputs with
  | error e =>
      rw [hrows] at h
      cases h
  | ok _ =>
      rw [hrows] at h
      cases htype : canonical B call.outputType with
      | error e =>
          simp only [htype] at h
          cases h
      | ok declaredType =>
          simp only [htype] at h
          split at h
          · cases h
          · rw [← Except.ok.inj h]

omit [DecidableEq F] in
theorem advances_advanceCall {s : Recorder F} (hs : s.Sound B) {call : MapCall Spec}
    (hinputs : ∀ i ∈ call.inputs, i < s.session.nodes.length) {phase : CallPhase F}
    (hfits : phase.Fits B s call) : Advances B s call phase (advanceCall B s call phase) := by
  cases phase with
  | named name =>
      rw [advanceCall]
      cases hcheck : checkCall B s.session call name with
      | error e => exact advances_of_same hs (.refused name e) (Or.inl hcheck) rfl False.elim
      | ok node =>
          have hname := name_of_checkCall hcheck
          exact advances_of_same hs (.checked node) ⟨node.form, by rw [hname, hcheck, ← hname]⟩
            hname False.elim
  | checked node =>
      rw [advanceCall]
      rcases hs.holdFn call node with ⟨held, first, e, hhold, hheld, hcompare⟩ |
        ⟨fn, warning, s', hhold, hs', hgrows, hanswered, hnew⟩
      · rw [hhold]
        exact advances_of_same hs (.refused node.name e)
          (Or.inr ⟨node, held, first, rfl, hfits, hheld, hcompare⟩) rfl False.elim
      · rw [hhold]
        have hpasses : (CallPhase.checked node).Fits B s' call := hfits.grows hs hgrows hinputs
        refine ⟨hs', hgrows, ⟨hpasses, hanswered⟩, rfl, ?_, False.elim, fun h => absurd trivial h⟩
        intro key held h
        refine (hnew key held h).imp id ?_
        rintro ⟨rfl, rfl⟩
        exact ⟨rfl, node.declaredType, rfl⟩
  | held node fn warning =>
      rw [advanceCall]
      split_ifs
      · exact advances_of_same hs (.typed node fn warning) hfits rfl fun _ => trivial
      · obtain ⟨hs', hgrows, hheld⟩ := hs.tracedForm fn (node.key B) call.inputs
        have hfits' : (CallPhase.held node fn warning).Fits B _ call :=
          hfits.grows hs hgrows hinputs
        refine ⟨hs', hgrows, hfits', rfl, ?_, fun _ => trivial, fun h => absurd trivial h⟩
        exact fun key held h => Or.inl (hheld ▸ h)
  | typed node fn warning =>
      rw [advanceCall]
      obtain ⟨hpasses, first, hheld, hcompare⟩ := hfits
      obtain ⟨id, s', henter, hs', hgrows, hsame, hid, hexternal⟩ :=
        hs.enterExternal hheld hinputs
      rw [henter]
      have hfits' : (CallPhase.typed node fn warning).Fits B s' call :=
        CallPhase.Fits.grows hs hgrows hinputs ⟨hpasses, first, hheld, hcompare⟩
      refine ⟨hs', hgrows, ⟨hfits'.1, fn, hfits'.2, hid, hexternal⟩, rfl, ?_, fun _ => trivial,
        fun h => absurd trivial h⟩
      exact fun key held h => Or.inl (hsame ▸ h)
  | returned node id warning =>
      exact advances_of_same hs (.returned node id warning) hfits rfl fun h => h
  | refused name e => exact advances_of_same hs (.refused name e) hfits rfl fun h => h

/-! ### Every run -/

namespace CallSystem

/-- What every step keeps: sound tables, every call where it fits, and for every key held a call
that wears its name. -/
structure Sound (B : CallBackend F Spec) (sys : CallSystem F Spec) : Prop where
  recorder : sys.recorder.Sound B
  call : ∀ id call phase, sys.calls id = some (call, phase) →
    (∀ i ∈ call.inputs, i < sys.recorder.session.nodes.length) ∧
      Wears sys.recorder call phase.name ∧ phase.Fits B sys.recorder call
  holder : ∀ key held, sys.recorder.fnHeld.lookup key = some held →
    ∃ id call phase t, sys.calls id = some (call, phase) ∧ call.fn = held.1 ∧
      key = mapKey B.floatJson phase.name t

omit [DecidableEq F] in
theorem sound_start : (start .new : CallSystem F Spec).Sound B where
  recorder :=
    { filled := Session.filled_new
      taken := fun _ _ _ h => by cases h
      apart := fun _ _ _ _ _ h => by cases h
      external := fun _ h => by cases h }
  call := fun _ _ _ h => by cases h
  holder := fun _ _ h => by cases h

omit [DecidableEq F] in
/-- One call changes, and the tables grow. -/
theorem Sound.update {sys : CallSystem F Spec} (h : sys.Sound B) {id : Nat}
    {call : MapCall Spec} {phase : CallPhase F} {s' : Recorder F} (hs' : s'.Sound B)
    (hgrows : sys.recorder.Grows s')
    (hcall : (∀ i ∈ call.inputs, i < s'.session.nodes.length) ∧ Wears s' call phase.name ∧
      phase.Fits B s' call)
    (hold : ∀ call' phase', sys.calls id = some (call', phase') →
      call' = call ∧ phase'.name = phase.name)
    (hheld : ∀ key held, s'.fnHeld.lookup key = some held →
      sys.recorder.fnHeld.lookup key = some held ∨
        held.1 = call.fn ∧ ∃ t, key = mapKey B.floatJson phase.name t) :
    Sound B ⟨s', Function.update sys.calls id (some (call, phase))⟩ where
  recorder := hs'
  call := by
    intro id' call' phase' h'
    by_cases hid : id' = id
    · subst hid
      simp only [Function.update_self, Option.some.injEq, Prod.mk.injEq] at h'
      obtain ⟨rfl, rfl⟩ := h'
      exact hcall
    · simp only [Function.update_of_ne hid] at h'
      obtain ⟨hinputs, hwears, hfits⟩ := h.call id' call' phase' h'
      refine ⟨fun i hi => ?_, hwears.grows hgrows, hfits.grows h.recorder hgrows hinputs⟩
      exact Nat.lt_of_lt_of_le (hinputs i hi) hgrows.session.nodes.length_le
  holder := by
    intro key held hkey
    rcases hheld key held hkey with hkey | ⟨hfn, t, ht⟩
    · obtain ⟨id', call', phase', t, hcall', hfn, ht⟩ := h.holder key held hkey
      by_cases hid : id' = id
      · subst hid
        obtain ⟨rfl, hname⟩ := hold call' phase' hcall'
        exact ⟨id', call', phase, t, Function.update_self .., hfn, hname ▸ ht⟩
      · exact ⟨id', call', phase', t, by simp only [Function.update_of_ne hid, hcall'], hfn, ht⟩
    · exact ⟨id, call, phase, t, Function.update_self .., hfn.symm, ht⟩

/-- Something else is recorded. -/
theorem Sound.other {sys : CallSystem F Spec} (h : sys.Sound B) (call : SessionCall F) :
    Sound B { sys with recorder :=
      { sys.recorder with session := (call.run B.inference sys.recorder.session).2 } } := by
  obtain ⟨hfilled, hextends⟩ := h.recorder.filled.run B.inference call
  have hgrows : sys.recorder.Grows
      { sys.recorder with session := (call.run B.inference sys.recorder.session).2 } :=
    ⟨hextends, fun _ _ h => h, fun _ h => h, fun _ _ h => h, fun _ _ h => h⟩
  refine ⟨⟨hfilled, h.recorder.taken, h.recorder.apart, ?_⟩, ?_, h.holder⟩
  · intro item hitem
    obtain ⟨node, hnode, hrest⟩ := h.recorder.external item hitem
    exact ⟨node, hextends.node hnode, hrest⟩
  · intro id call' phase hcall
    obtain ⟨hinputs, hwears, hfits⟩ := h.call id call' phase hcall
    refine ⟨fun i hi => ?_, hwears.grows hgrows, hfits.grows h.recorder hgrows hinputs⟩
    exact Nat.lt_of_lt_of_le (hinputs i hi) hextends.nodes.length_le

theorem Sound.step {sys : CallSystem F Spec} (h : sys.Sound B) (event : CallEvent F Spec) :
    (sys.step B event).Sound B := by
  cases event with
  | enter id call =>
      unfold CallSystem.step
      dsimp only
      split_ifs with hbad
      · exact h
      · push Not at hbad
        obtain ⟨hs', hgrows, hwears, hheld⟩ := h.recorder.fnName call
        have hinputs : ∀ i ∈ call.inputs,
            i < (sys.recorder.fnName call.fn call.name).2.session.nodes.length := fun i hi =>
          Nat.lt_of_lt_of_le (hbad.2 i hi) hgrows.session.nodes.length_le
        refine h.update hs' hgrows ⟨hinputs, hwears, trivial⟩ ?_ ?_
        · intro call' phase' hcall'
          rw [hcall'] at hbad
          exact absurd rfl hbad.1
        · exact fun key held hkey => Or.inl (hheld ▸ hkey)
  | turn id =>
      unfold CallSystem.step
      dsimp only
      cases hcall : sys.calls id with
      | none => exact h
      | some entry =>
          obtain ⟨call, phase⟩ := entry
          obtain ⟨hinputs, hwears, hfits⟩ := h.call id call phase hcall
          have hadv := advances_advanceCall h.recorder hinputs hfits
          refine h.update hadv.sound hadv.grows ⟨fun i hi => ?_, ?_, hadv.fits⟩ ?_ ?_
          · exact Nat.lt_of_lt_of_le (hinputs i hi) hadv.grows.session.nodes.length_le
          · exact hadv.name ▸ hwears.grows hadv.grows
          · intro call' phase' hcall'
            obtain ⟨rfl, rfl⟩ := Prod.mk.inj (Option.some.inj (hcall.symm.trans hcall'))
            exact ⟨rfl, hadv.name.symm⟩
          · exact fun key held hkey => hadv.name ▸ hadv.held key held hkey
  | other call =>
      cases call with
      | external kind descriptor inputs params form => exact h
      | source name form data params => exact h.other _
      | field x name => exact h.other _
      | fields x names => exact h.other _
      | op name hfield hfields inputs params reduction rowsFrom => exact h.other _
      | exchange input scheme => exact h.other _
      | join left right scheme => exact h.other _

theorem sound_run (events : List (CallEvent F Spec)) :
    ((start .new : CallSystem F Spec).run B events).Sound B := by
  unfold run
  induction events using List.reverseRecOn with
  | nil => exact sound_start
  | append_singleton events event ih =>
      rw [List.foldl_append]
      exact ih.step event

/-! ### Answers -/

end CallSystem

/-- A dict built item by item holds items it was built from, one for each of their keys. -/
theorem lookup_foldl_dictUpdate {ν : Type} (items : List (String × ν)) (key : String) :
    (∀ v, (items.foldl (fun d item => dictUpdate d [item]) []).lookup key = some v →
      (key, v) ∈ items) ∧
    ((∃ v, (key, v) ∈ items) →
      ((items.foldl (fun d item => dictUpdate d [item]) []).lookup key).isSome) := by
  induction items using List.reverseRecOn with
  | nil => exact ⟨(fun v h => by cases h), fun ⟨v, h⟩ => by cases h⟩
  | append_singleton items item ih =>
      obtain ⟨k, w⟩ := item
      rw [List.foldl_append, List.foldl_cons, List.foldl_nil, lookup_dictUpdate]
      by_cases hk : key = k
      · subst hk
        rw [List.lookup_cons_self, Option.some_or]
        refine ⟨fun v hv => ?_, fun _ => rfl⟩
        rw [← Option.some.inj hv]
        simp
      · have hne : (key == k) = false := by simpa using hk
        rw [List.lookup_cons, hne, List.lookup_nil, Option.none_or]
        refine ⟨fun v hv => List.mem_append_left _ (ih.1 v hv), ?_⟩
        rintro ⟨v, hv⟩
        rcases List.mem_append.mp hv with hv | hv
        · exact ih.2 ⟨v, hv⟩
        · exact absurd (Prod.mk.inj (List.mem_singleton.mp hv)).1 hk

omit [DecidableEq F] in
theorem externalKey_nodeKey (node : MapNode F) (inputs : List Nat) :
    externalKey B (node.nodeKey B inputs) = some (node.key B) := rfl

omit [DecidableEq F] in
/-- A plan resolves a map's External to the callable its key holds. -/
theorem Recorder.Sound.evaluatorOf {s : Recorder F} (hs : s.Sound B) {nid : Nat}
    {external : ExternalFn} (hexternal : s.externals.lookup nid = some external)
    {node : MapNode F} {inputs : List Nat}
    (hnode : s.session.nodes[nid]? = some (node.nodeKey B inputs)) :
    ∃ found first, s.evaluatorOf B nid = some found ∧
      s.fnHeld.lookup (node.key B) = some (found.fn, first) := by
  unfold Recorder.evaluatorOf
  rw [hnode, Option.bind_some, externalKey_nodeKey, Option.bind_some]
  have hbuilt := lookup_foldl_dictUpdate (s.externals.filterMap fun item =>
    (s.session.nodes[item.1]?.bind (externalKey B)).map (·, item.2)) (node.key B)
  obtain ⟨front, rest, hitems, -⟩ := List.lookup_eq_some_iff.mp hexternal
  have hmem : (node.key B, external) ∈ s.externals.filterMap fun item =>
      (s.session.nodes[item.1]?.bind (externalKey B)).map (·, item.2) := by
    refine List.mem_filterMap.mpr ⟨(nid, external), by rw [hitems]; simp, ?_⟩
    rw [hnode, Option.bind_some, externalKey_nodeKey]
    rfl
  obtain ⟨found, hfound⟩ := Option.isSome_iff_exists.mp (hbuilt.2 ⟨external, hmem⟩)
  obtain ⟨item, hitem, hkey⟩ := List.mem_filterMap.mp (hbuilt.1 found hfound)
  obtain ⟨node', hnode', -, first, hfirst⟩ := hs.external item hitem
  rw [hnode', Option.bind_some, externalKey_nodeKey] at hkey
  obtain ⟨hsame, rfl⟩ := Prod.mk.inj (Option.some.inj hkey)
  exact ⟨item.2, first, hfound, hsame ▸ hfirst⟩

namespace CallSystem

omit [DecidableEq F] in
/-- Calls of one name derived for both are one call. -/
theorem Sound.answersOwn {sys : CallSystem F Spec} (h : sys.Sound B) : sys.AnswersOwn B := by
  intro id call node nid warning hcall
  obtain ⟨-, hwears, -, fn, ⟨first, hheld, hcompare⟩, hnode, hexternal⟩ := h.call _ _ _ hcall
  obtain ⟨found, first', hfound, hheld'⟩ := h.recorder.evaluatorOf hexternal hnode
  obtain rfl : fn = found.fn := (Prod.mk.inj (Option.some.inj (hheld.symm.trans hheld'))).1
  refine ⟨found, hfound, ?_⟩
  by_cases hidentity : found.fn.identity = call.fn.identity
  · exact Or.inl hidentity
  · refine Or.inr ?_
    unfold compareCallables at hcompare
    rw [if_neg hidentity] at hcompare
    split at hcompare
    · rename_i a b ha hb
      split_ifs at hcompare with hdigest
      refine Or.inr ⟨by rw [ha]; rfl, by rw [ha, hb, not_not.mp hdigest], ?_⟩
      obtain ⟨id', call', phase', t, hcall', hfn, hkey⟩ := h.holder _ _ hheld
      obtain ⟨hname, -⟩ := mapKey_inj hkey
      obtain ⟨-, hwears', -⟩ := h.call _ _ _ hcall'
      refine ⟨id', call', phase', hcall', hfn, hname.symm, ?_⟩
      cases hdeclared : call.name with
      | some declared =>
          have hsame : node.name = declared := hwears.declared declared hdeclared
          exact Or.inl (by rw [hsame])
      | none =>
          cases hdeclared' : call'.name with
          | some declared =>
              exact Or.inr (by rw [hname, hwears'.declared declared hdeclared'])
          | none =>
              -- both names were derived, so the callables are one call
              obtain ⟨f, hf⟩ := hwears.derived hdeclared
              obtain ⟨f', hf'⟩ := hwears'.derived hdeclared'
              rw [← hname, hfn] at hf'
              exact absurd (h.recorder.apart _ _ _ _ _ hf' hf) hidentity
    · refine Or.inl ?_
      rw [← Except.ok.inj hcompare]
      rfl

end CallSystem

/-! ### The same call again -/

/-- The same call on the same inputs, from any line. -/
structure MapCall.Again (call call' : MapCall Spec) : Prop where
  fn : call'.fn = call.fn
  name : call'.name = call.name
  inputs : call'.inputs = call.inputs
  outputType : call'.outputType = call.outputType

omit [DecidableEq F] in
theorem Wears.name_eq {s : Recorder F} {call call' : MapCall Spec} {name name' : String}
    (h : Wears s call name) (h' : Wears s call' name') (hagain : call.Again call') :
    name' = name := by
  cases hdeclared : call.name with
  | some declared =>
      rw [h.declared declared hdeclared, h'.declared declared (hagain.name.trans hdeclared)]
  | none =>
      obtain ⟨f, hf⟩ := h.derived hdeclared
      obtain ⟨f', hf'⟩ := h'.derived (hagain.name.trans hdeclared)
      rw [hagain.fn, hf] at hf'
      exact ((Prod.mk.inj (Option.some.inj hf')).2).symm

omit [DecidableEq F] in
theorem checkCall_again {s : Session F} {call call' : MapCall Spec} (hagain : call.Again call')
    (name : String) : checkCall B s call' name = checkCall B s call name := by
  unfold checkCall
  rw [hagain.inputs, hagain.outputType]

omit [DecidableEq F] in
/-- Of one name the two calls record one node. -/
theorem Passes.nodeKey_eq {s : Recorder F} {call call' : MapCall Spec} {node node' : MapNode F}
    (h : Passes B s call node) (h' : Passes B s call' node') (hagain : call.Again call')
    (hname : node'.name = node.name) : node'.declaredType = node.declaredType := by
  obtain ⟨form, hform⟩ := h
  obtain ⟨form', hform'⟩ := h'
  rw [checkCall_again hagain, hname, hform] at hform'
  exact (congrArg MapNode.declaredType (Except.ok.inj hform')).symm

omit [DecidableEq F] in
theorem compareCallables_again {held : PyCallable} {first first' : String}
    {call call' : MapCall Spec} (hfn : call'.fn = call.fn) {name name' : String}
    {warning : Option String} (h : compareCallables B held first call name = .ok warning)
    (e : CallError) : compareCallables B held first' call' name' ≠ .error e := by
  unfold compareCallables at h ⊢
  rw [hfn]
  by_cases hidentity : held.identity = call.fn.identity
  · rw [if_pos hidentity]
    simp
  · rw [if_neg hidentity] at h ⊢
    split at h
    · split_ifs at h with hdigest
      simp [not_not.mp hdigest]
    · simp

namespace CallSystem

omit [DecidableEq F] in
theorem Sound.rerecords {sys : CallSystem F Spec} (h : sys.Sound B) : sys.Rerecords := by
  intro id id' call call' node nid warning phase hcall hcall' hfn hname hinputs htype
  have hagain : call.Again call' := ⟨hfn, hname, hinputs, htype⟩
  obtain ⟨-, hwears, ⟨form, hform⟩, fn, ⟨first, hheld, hcompare⟩, hnode, -⟩ := h.call _ _ _ hcall
  have hpasses : Passes B sys.recorder call node := ⟨form, hform⟩
  obtain ⟨-, hwears', hfits'⟩ := h.call _ _ _ hcall'
  constructor
  · rintro name e rfl
    have hsame : name = node.name := hwears.name_eq hwears' hagain
    rcases hfits' with herror | ⟨node', held, first', hname', hpasses', hheld', herror⟩
    · rw [checkCall_again hagain, hsame, hform] at herror
      cases herror
    · have htype' := hpasses.nodeKey_eq hpasses' hagain (hname'.trans hsame)
      have hkey : node'.key B = node.key B := by
        unfold MapNode.key
        rw [hname'.trans hsame, htype']
      rw [hkey, hheld] at hheld'
      obtain ⟨rfl, -⟩ := Prod.mk.inj (Option.some.inj hheld')
      exact compareCallables_again hfn hcompare e herror
  · rintro node' nid' warning' rfl
    obtain ⟨hpasses', -, -, hnode', -⟩ := hfits'
    have hsame : node'.name = node.name := hwears.name_eq hwears' hagain
    have htype' := hpasses.nodeKey_eq hpasses' hagain hsame
    have hkey : node'.nodeKey B call'.inputs = node.nodeKey B call.inputs := by
      unfold MapNode.nodeKey
      rw [hsame, htype', hinputs]
    exact h.recorder.filled.interned.distinct _ _ _ _ hnode' hnode
      (by rw [hkey]; exact NodeKey.beq_refl _)

/-! ### Refused calls -/

/-- A call with a callable held keeps it. -/
theorem Sound.holding_step {sys : CallSystem F Spec} (h : sys.Sound B) {id : Nat}
    {call : MapCall Spec} {phase : CallPhase F} (hcall : sys.calls id = some (call, phase))
    (hholding : phase.Holding) (event : CallEvent F Spec) :
    ∃ phase', (sys.step B event).calls id = some (call, phase') ∧ phase'.Holding := by
  have hsame : ∃ phase', sys.calls id = some (call, phase') ∧ phase'.Holding :=
    ⟨phase, hcall, hholding⟩
  cases event with
  | enter id' call' =>
      unfold CallSystem.step
      dsimp only
      split_ifs with hbad
      · exact hsame
      · have hne : id ≠ id' := by
          rintro rfl
          rw [hcall] at hbad
          exact hbad (Or.inl rfl)
        exact ⟨phase, by simp only [Function.update_of_ne hne, hcall], hholding⟩
  | turn id' =>
      unfold CallSystem.step
      dsimp only
      cases hcall' : sys.calls id' with
      | none => exact hsame
      | some entry =>
          obtain ⟨call', phase'⟩ := entry
          by_cases hid : id = id'
          · subst hid
            obtain ⟨rfl, rfl⟩ := Prod.mk.inj (Option.some.inj (hcall.symm.trans hcall'))
            obtain ⟨hinputs, -, hfits⟩ := h.call _ _ _ hcall
            have hadv := advances_advanceCall h.recorder hinputs hfits
            exact ⟨_, Function.update_self .., hadv.holding hholding⟩
          · exact ⟨phase, by simp only [Function.update_of_ne hid, hcall], hholding⟩
  | other call' => cases call' <;> exact hsame

/-- A call with a callable held is not refused later. -/
theorem Sound.holding_run {sys : CallSystem F Spec} (h : sys.Sound B) {id : Nat}
    {call : MapCall Spec} {phase : CallPhase F} (hcall : sys.calls id = some (call, phase))
    (hholding : phase.Holding) (events : List (CallEvent F Spec)) :
    ∃ phase', (sys.run B events).calls id = some (call, phase') ∧ phase'.Holding := by
  unfold run
  induction events generalizing sys phase with
  | nil => exact ⟨phase, hcall, hholding⟩
  | cons event events ih =>
      obtain ⟨phase', hcall', hholding'⟩ := h.holding_step hcall hholding event
      exact ih (h.step event) hcall' hholding'

/-- Two systems with the same tables and the same calls, one call apart. -/
structure SameBut (id : Nat) (sys sys' : CallSystem F Spec) : Prop where
  recorder : sys'.recorder = sys.recorder
  calls : ∀ id' ≠ id, sys'.calls id' = sys.calls id'

/-- A step of another call does the same in both. -/
theorem SameBut.step {id : Nat} {sys sys' : CallSystem F Spec} (h : SameBut id sys sys')
    {event : CallEvent F Spec} (hevent : event.isOf id = false) :
    SameBut id (sys.step B event) (sys'.step B event) := by
  obtain ⟨recorder, calls⟩ := sys
  obtain ⟨recorder', calls'⟩ := sys'
  obtain ⟨rfl, hcalls⟩ := h
  have hupdate : ∀ {id' : Nat} (hne : id' ≠ id) (entry : Option (MapCall Spec × CallPhase F)),
      ∀ other ≠ id,
        Function.update calls' id' entry other = Function.update calls id' entry other := by
    intro id' hne entry other hother
    by_cases hid : other = id'
    · subst hid
      rw [Function.update_self, Function.update_self]
    · rw [Function.update_of_ne hid, Function.update_of_ne hid]
      exact hcalls other hother
  cases event with
  | enter id' call =>
      have hne : id' ≠ id := by simpa [CallEvent.isOf] using hevent
      unfold CallSystem.step
      dsimp only at hcalls ⊢
      simp only [hcalls id' hne]
      split_ifs
      · exact ⟨rfl, hcalls⟩
      · exact ⟨rfl, hupdate hne _⟩
  | turn id' =>
      have hne : id' ≠ id := by simpa [CallEvent.isOf] using hevent
      unfold CallSystem.step
      dsimp only at hcalls ⊢
      rw [hcalls id' hne]
      cases calls id' with
      | none => exact ⟨rfl, hcalls⟩
      | some entry => exact ⟨rfl, hupdate hne _⟩
  | other call => cases call <;> exact ⟨rfl, hcalls⟩

omit [DecidableEq F] in
/-- A name that is known is handed out without a trace. -/
theorem fnName_of_knows {s : Recorder F} {call : MapCall Spec} (h : s.Knows call) :
    (s.fnName call.fn call.name).2 = s := by
  unfold Recorder.Knows at h
  unfold Recorder.fnName
  cases hname : call.name with
  | some declared =>
      rw [hname] at h
      simp only [insertNew_of_mem h]
  | none =>
      rw [hname] at h
      obtain ⟨held, hheld⟩ := Option.isSome_iff_exists.mp h
      simp only [hheld]

/-- A step of a call refused later leaves no trace, if it took a known name. -/
theorem sameBut_own_step {events : List (CallEvent F Spec)}
    (hknown : (start .new : CallSystem F Spec).RefusedKnown B events) {id : Nat}
    (hrefused : ∃ call name e,
      ((start .new : CallSystem F Spec).run B events).calls id = some (call, .refused name e))
    {front back : List (CallEvent F Spec)} {event : CallEvent F Spec}
    (hevents : events = front ++ ([event] ++ back)) (hof : event.isOf id = true) :
    SameBut id ((start .new : CallSystem F Spec).run B front)
      (((start .new : CallSystem F Spec).run B front).step B event) := by
  have hsound := sound_run (B := B) front
  have hend : (start .new : CallSystem F Spec).run B events =
      (((start .new : CallSystem F Spec).run B front).step B event).run B back := by
    unfold run
    rw [hevents, List.foldl_append, List.foldl_append]
    rfl
  have hsame : SameBut id ((start .new : CallSystem F Spec).run B front)
      ((start .new : CallSystem F Spec).run B front) := ⟨rfl, fun _ _ => rfl⟩
  cases event with
  | enter id' call =>
      obtain rfl : id' = id := by simpa [CallEvent.isOf] using hof
      have hknows := hknown front id' call back hevents
      generalize (start .new : CallSystem F Spec).run B front = sys at *
      unfold CallSystem.step
      dsimp only
      split_ifs with hbad
      · exact hsame
      · have hnone : sys.calls id' = none := by
          rw [not_or] at hbad
          simpa using hbad.1
        refine ⟨fnName_of_knows (hknows hnone hrefused), fun other hother => ?_⟩
        exact Function.update_of_ne hother _ _
  | turn id' =>
      obtain rfl : id' = id := by simpa [CallEvent.isOf] using hof
      generalize (start .new : CallSystem F Spec).run B front = sys at *
      have hstep := hsound.step (.turn id')
      unfold CallSystem.step at hend hstep ⊢
      dsimp only at hend hstep ⊢
      cases hcall : sys.calls id' with
      | none => exact hsame
      | some entry =>
          obtain ⟨call, phase⟩ := entry
          rw [hcall] at hend hstep
          obtain ⟨hinputs, -, hfits⟩ := hsound.call _ _ _ hcall
          have hadv := advances_advanceCall hsound.recorder hinputs hfits
          refine ⟨hadv.untouched fun hholding => ?_, fun other hother => ?_⟩
          · -- with a callable held it would not be refused in the end
            obtain ⟨phase', hlast, hlast'⟩ :=
              hstep.holding_run (Function.update_self ..) hholding back
            obtain ⟨call', name, e, hrefused⟩ := hrefused
            rw [hend] at hrefused
            obtain ⟨-, rfl⟩ := Prod.mk.inj (Option.some.inj (hlast.symm.trans hrefused))
            exact hlast'
          · exact Function.update_of_ne hother _ _
  | other call => cases hof

/-- Up to any point a refused call has left no trace, if it took a known name. -/
theorem sameBut_run {events : List (CallEvent F Spec)}
    (hknown : (start .new : CallSystem F Spec).RefusedKnown B events) {id : Nat}
    (hrefused : ∃ call name e,
      ((start .new : CallSystem F Spec).run B events).calls id = some (call, .refused name e))
    (front back : List (CallEvent F Spec)) (hevents : events = front ++ back) :
    SameBut id ((start .new : CallSystem F Spec).run B front)
      ((start .new).run B (front.filter (!·.isOf id))) := by
  induction front using List.reverseRecOn generalizing back with
  | nil => exact ⟨rfl, fun _ _ => rfl⟩
  | append_singleton front event ih =>
      rw [List.append_assoc] at hevents
      have hsofar := ih _ hevents
      have hstep : ∀ evs : List (CallEvent F Spec),
          (start .new : CallSystem F Spec).run B (evs ++ [event]) =
            ((start .new : CallSystem F Spec).run B evs).step B event := by
        intro evs
        unfold run
        rw [List.foldl_append]
        rfl
      rw [hstep]
      cases hof : event.isOf id with
      | false =>
          have hfilter : (front ++ [event]).filter (!·.isOf id) =
              front.filter (!·.isOf id) ++ [event] := by simp [hof]
          rw [hfilter, hstep]
          exact hsofar.step hof
      | true =>
          have hfilter : (front ++ [event]).filter (!·.isOf id) = front.filter (!·.isOf id) := by
            simp [hof]
          rw [hfilter]
          have hown := sameBut_own_step hknown hrefused hevents hof
          exact ⟨hsofar.recorder.trans hown.recorder.symm,
            fun id' hid' => (hsofar.calls id' hid').trans (hown.calls id' hid').symm⟩

end CallSystem

end OwnAnswers

/-! ### A refused call that keeps a name -/

namespace CallSystem

/-- A backend that types every map alike and spells one output type. -/
def plainBackend : CallBackend String String where
  inference :=
    { opForm := fun op _ _ => if op = "fields" then .error "no fields" else .ok op
      hasRows := fun _ => true
      fieldNames := fun _ => []
      fields_known := fun _ h => by cases h }
  describe := id
  typeName := "PlainBackend"
  canonicalOutputType := some fun spec => if spec = "f8" then .ok spec else .error "unknown type"
  checksOutputType := true
  tracedForm := none
  pythonVersion := "3.12.0"
  repr := fun s => "'" ++ s ++ "'"
  floatJson := fun _ => .word .null

/-- Two functions of one `__name__` that behave differently. -/
def scale : PyCallable := ⟨.object 1, some "q", "<function q>", some "scale"⟩
def shift : PyCallable := ⟨.object 2, some "q", "<function q>", some "shift"⟩

/-- A map of `scale`, and one that declares a type nobody spells. -/
def refusedAfter : List (CallEvent String String) :=
  [.other (.source "events" "record" ⟨0, none, true⟩ (.new [])),
    .enter 0 ⟨scale, none, [0], none, "cell 1"⟩, .turn 0, .turn 0, .turn 0, .turn 0,
    .enter 1 ⟨scale, none, [0], some "unknown", "cell 2"⟩, .turn 1]

/-- Every name a refused call takes there is known. -/
theorem refusedKnown_refusedAfter : (start .new).RefusedKnown plainBackend refusedAfter := by
  intro front id call back hevents hnone hrefused
  have hlength : front.length < 8 := by
    have h := congrArg List.length hevents
    rw [List.length_append, List.length_cons] at h
    have height : refusedAfter.length = 8 := rfl
    omega
  have hfront : front = refusedAfter.take front.length := by rw [hevents, List.take_left]
  have henter : refusedAfter[front.length]? = some (.enter id call) := by
    rw [hevents, List.getElem?_append_right (Nat.le_refl _), Nat.sub_self]
    rfl
  generalize front.length = n at hlength hfront henter
  subst hfront
  have hcases : n = 1 ∨ n = 6 := by
    have hcheck : ∀ m < 8, (refusedAfter[m]?.any fun event => event matches .enter ..) = true →
        m = 1 ∨ m = 6 := by decide
    exact hcheck n hlength (by rw [henter]; rfl)
  rcases hcases with rfl | rfl
  · obtain ⟨rfl, rfl⟩ := CallEvent.enter.inj (Option.some.inj henter)
    obtain ⟨call', name, e, hcall'⟩ := hrefused
    have hreturned : ((start .new).run plainBackend refusedAfter).calls 0 =
        some (⟨scale, none, [0], none, "cell 1"⟩, .returned ⟨"q", none, "map"⟩ 1 none) := by
      decide +kernel
    rw [hreturned] at hcall'
    cases hcall'
  · obtain ⟨rfl, rfl⟩ := CallEvent.enter.inj (Option.some.inj henter)
    change (List.lookup _ _).isSome = true
    decide +kernel

/-- A refused map of `scale`, a map of `shift` under the name it left, and `scale` again. -/
def refusedFirst : List (CallEvent String String) :=
  [.other (.source "events" "record" ⟨0, none, true⟩ (.new [])),
    .enter 0 ⟨scale, none, [0], some "unknown", "cell 1"⟩, .turn 0,
    .enter 1 ⟨shift, some "q", [0], none, "cell 2"⟩, .turn 1, .turn 1, .turn 1, .turn 1,
    .enter 2 ⟨scale, none, [0], none, "cell 3"⟩, .turn 2, .turn 2, .turn 2, .turn 2]

end CallSystem

end Graphed
