import Graphed.Frontend.CallKeys
import Graphed.Frontend.Session
import Graphed.Library.Dict
import Mathlib.Data.List.Perm.Subperm

/-!
# Recording opaque callables

A map or an apply takes a name for its callable, is checked, holds the callable under its evaluator
key, and enters an External node. Each of these takes the Session's lock on its own, so the calls of
several threads interleave between them.
-/

namespace Graphed

open JsonText FirstSeen

/-! ### Callables -/

/-- What makes two callables one call: the object, or a method's owner and function. -/
inductive CallIdentity where
  | object (id : Nat)
  | method (self func : Nat)
deriving DecidableEq

/-- A callable, as far as the Session looks at it. The digest is what a checkpoint key makes of it;
it has none where its key pickling raises. -/
structure PyCallable where
  identity : CallIdentity
  dunderName : Option String
  repr : String
  digest : Option String
deriving DecidableEq

def fnLabel (fn : PyCallable) : String := fn.dunderName.getD fn.repr

/-- What a Session asks of its backend and of Python when it records a callable. -/
structure CallBackend (F Spec : Type) where
  inference : Inference F
  describe : F → String
  typeName : String
  /-- The backend's optional `canonical_output_type`. -/
  canonicalOutputType : Option (Spec → Except String String)
  /-- The backend has a `check_output_type`. -/
  checksOutputType : Bool
  /-- The backend's optional `traced_form`; it gives nothing where it fails. -/
  tracedForm : Option (PyCallable → List F → Option F)
  pythonVersion : String
  repr : String → String
  floatJson : UInt64 → Value

/-- One `map` or `apply` call. -/
structure MapCall (Spec : Type) where
  fn : PyCallable
  name : Option String
  inputs : List Nat
  outputType : Option Spec
  prov : String
deriving DecidableEq

/-- The evaluator of an External: the callable, and the type its values are checked to have. -/
structure ExternalFn where
  fn : PyCallable
  declared : Option String
  inputs : List Nat
deriving DecidableEq

/-- A Session and the tables it keeps about callables. -/
structure Recorder (F : Type) where
  session : Session F
  fnNames : List (CallIdentity × PyCallable × String)
  fnTaken : List String
  fnHeld : List (String × PyCallable × String)
  fnTraced : List ((String × List String) × Option F)
  externals : List (Nat × ExternalFn)

inductive CallError where
  | record (e : RecordError)
  | usedName (message : String)
  | declaredOnce
deriving DecidableEq

/-! ### Names -/

/-- The names a derived name advances through: `q`, `q#1`, `q#2`. -/
def candidate (derived : String) (ordinal : Nat) : String :=
  if ordinal = 0 then derived else derived ++ "#" ++ ordinal.repr

/-- The loop over ordinals, from one on. -/
def firstFree (taken : List String) (derived : String) : Nat → Nat → String
  | 0, ordinal => candidate derived ordinal
  | fuel + 1, ordinal =>
      if candidate derived ordinal ∈ taken then firstFree taken derived fuel (ordinal + 1)
      else candidate derived ordinal

/-- The first candidate nothing answers to; one of the first as many as are taken, and one. -/
def uniqueName (taken : List String) (derived : String) : String :=
  firstFree taken derived taken.length 0

theorem candidate_injective (derived : String) : Function.Injective (candidate derived) := by
  intro j k h
  have hlonger : ∀ n : Nat, derived ≠ derived ++ "#" ++ n.repr := by
    intro n hn
    have hlength := congrArg String.length hn
    simp only [String.length_append] at hlength
    have hhash : "#".length = 1 := by decide
    omega
  unfold candidate at h
  split_ifs at h with hj hk hk
  · rw [hj, hk]
  · exact absurd h (hlonger k)
  · exact absurd h.symm (hlonger j)
  · exact repr_nat_inj (String.append_right_inj _ |>.mp h)

theorem mem_of_firstFree {taken : List String} {derived : String} {fuel ordinal : Nat}
    (h : firstFree taken derived fuel ordinal ∈ taken) :
    ∀ i ≤ fuel, candidate derived (ordinal + i) ∈ taken := by
  induction fuel generalizing ordinal with
  | zero =>
      intro i hi
      rwa [Nat.le_zero.mp hi]
  | succ fuel ih =>
      have hmem : candidate derived ordinal ∈ taken := by
        by_contra hnot
        rw [firstFree, if_neg hnot] at h
        exact hnot h
      rw [firstFree, if_pos hmem] at h
      intro i hi
      cases i with
      | zero => exact hmem
      | succ i =>
          have hrest := ih h i (Nat.le_of_succ_le_succ hi)
          rwa [Nat.add_assoc, Nat.add_comm 1 i] at hrest

/-- A derived name is one nothing else answers to. -/
theorem uniqueName_notMem (taken : List String) (derived : String) :
    uniqueName taken derived ∉ taken := by
  intro h
  have hall := mem_of_firstFree h
  have hsubset : (List.range (taken.length + 1)).map (candidate derived) ⊆ taken := by
    intro name hname
    obtain ⟨i, hi, rfl⟩ := List.mem_map.mp hname
    have hmem := hall i (Nat.le_of_lt_succ (List.mem_range.mp hi))
    rwa [Nat.zero_add] at hmem
  have hnodup := List.nodup_range (n := taken.length + 1) |>.map (candidate_injective derived)
  have hlength := (List.subperm_of_subset hnodup hsubset).length_le
  rw [List.length_map, List.length_range] at hlength
  exact Nat.not_succ_le_self _ hlength

namespace Recorder

variable {F Spec : Type}

def start (session : Session F) : Recorder F := ⟨session, [], [], [], [], []⟩

/-- The name an opaque callable is recorded under. -/
def fnName (s : Recorder F) (fn : PyCallable) (name : Option String) : String × Recorder F :=
  match name with
  | some declared => (declared, { s with fnTaken := insertNew s.fnTaken declared })
  | none =>
      match s.fnNames.lookup fn.identity with
      | some held => (held.2, s)
      | none =>
          let unique := uniqueName s.fnTaken (fn.dunderName.getD "lambda")
          (unique, { s with
            fnTaken := insertNew s.fnTaken unique
            fnNames := s.fnNames ++ [(fn.identity, fn, unique)] })

end Recorder

/-! ### The calls in flight -/

section Calls

variable {F Spec : Type} (B : CallBackend F Spec)

/-- What a checked call is going to record. -/
structure MapNode (F : Type) where
  name : String
  declaredType : Option String
  form : F
deriving DecidableEq

/-- The type a call declares, as the backend spells it. -/
def canonical (outputType : Option Spec) : Except CallError (Option String) :=
  match outputType with
  | none => .ok none
  | some spec =>
      match B.canonicalOutputType with
      | none => .error (.record (.form (B.typeName ++ " cannot declare output_type")))
      | some canonicalize =>
          match canonicalize spec with
          | .error detail => .error (.record (.form detail))
          | .ok t => .ok (some t)

/-- The type an evaluator's values are checked to have. -/
def declaration (declaredType : Option String) : Option String :=
  if B.checksOutputType then declaredType else none

def descriptorOf (name : String) : PayloadDescriptor :=
  ⟨"opaque_callable", opaqueHash name, "python", B.pythonVersion, "opaque->opaque", none⟩

def MapNode.key (node : MapNode F) : String := mapKey B.floatJson node.name node.declaredType

/-- The External a call's node is, over its inputs. -/
def MapNode.nodeKey (node : MapNode F) (inputs : List Nat) : NodeKey :=
  .external (descriptorOf B node.name) (mapParams node.name node.declaredType) inputs

/-- The refusals of the call itself: rows of several sources, a type the backend cannot spell, and
an operation it has no form for. -/
def checkCall (s : Session F) (call : MapCall Spec) (name : String) :
    Except CallError (MapNode F) :=
  match s.sameRows "map" call.inputs with
  | .error e => .error (.record e)
  | .ok () =>
      match canonical B call.outputType with
      | .error e => .error e
      | .ok declaredType =>
          match s.located B.inference "map" call.inputs (mapParams name declaredType) with
          | .error e => .error (.record e)
          | .ok form => .ok ⟨name, declaredType, form⟩

/-- A callable beside the one held is the same call, cannot be compared, or must behave alike. -/
def compareCallables (held : PyCallable) (first : String) (call : MapCall Spec) (name : String) :
    Except CallError (Option String) :=
  if held.identity = call.fn.identity then .ok none
  else
    match held.digest, call.fn.digest with
    | some a, some b =>
        if a ≠ b then
          .error (.usedName ("graphed: name=" ++ B.repr name ++ " at " ++ call.prov ++
            " is already used by " ++ fnLabel held ++ " (" ++ first ++
            "); a different function needs a different name"))
        else .ok none
    | _, _ =>
        .ok (some ("could not compare " ++ fnLabel call.fn ++ " with " ++ fnLabel held ++ " (" ++
          first ++ "); the first one answers for both"))

namespace Recorder

/-- Hold a callable for a key, unless one is held already; the one held answers. -/
def holdFn (s : Recorder F) (call : MapCall Spec) (node : MapNode F) :
    Except CallError (PyCallable × Option String) × Recorder F :=
  let key := node.key B
  let held := (s.fnHeld.lookup key).getD (call.fn, call.prov)
  ((compareCallables B held.1 held.2 call node.name).map (held.1, ·),
    { s with fnHeld := dictDefault s.fnHeld key (call.fn, call.prov) })

/-- The form a callable that declares none gives its inputs, once per input types. -/
def tracedForm (s : Recorder F) (fn : PyCallable) (key : String) (inputs : List Nat) :
    Option F × Recorder F :=
  match B.tracedForm with
  | none => (none, s)
  | some trace =>
      let forms := inputs.filterMap (s.session.forms[·]?)
      let traced := (key, forms.map B.describe)
      let form := trace fn forms
      ((s.fnTraced.lookup traced).getD form,
        { s with fnTraced := dictDefault s.fnTraced traced form })

/-- Enter the External and its evaluator, both where there is none yet. -/
def enterExternal (s : Recorder F) (node : MapNode F) (fn : PyCallable) (inputs : List Nat) :
    Except CallError Nat × Recorder F :=
  match s.session.enter B.inference (node.nodeKey B inputs) node.form none with
  | (.error e, session) => (.error (.record e), { s with session })
  | (.ok id, session) =>
      let external : ExternalFn := ⟨fn, declaration B node.declaredType, inputs⟩
      let prior := (s.externals.lookup id).getD external
      if prior.declared.isSome ≠ external.declared.isSome then (.error .declaredOnce, s)
      else (.ok id, { s with session, externals := dictDefault s.externals id external })

end Recorder

/-- Where a call is between two of its critical sections. -/
inductive CallPhase (F : Type) where
  | named (name : String)
  | checked (node : MapNode F)
  | held (node : MapNode F) (fn : PyCallable) (warning : Option String)
  | typed (node : MapNode F) (fn : PyCallable) (warning : Option String)
  | returned (node : MapNode F) (id : Nat) (warning : Option String)
  | refused (name : String) (e : CallError)
deriving DecidableEq

/-- One critical section of a call that has its name. -/
def advanceCall (s : Recorder F) (call : MapCall Spec) : CallPhase F → CallPhase F × Recorder F
  | .named name =>
      match checkCall B s.session call name with
      | .error e => (.refused name e, s)
      | .ok node => (.checked node, s)
  | .checked node =>
      match s.holdFn B call node with
      | (.error e, s') => (.refused node.name e, s')
      | (.ok held, s') => (.held node held.1 held.2, s')
  | .held node fn warning =>
      if (declaration B node.declaredType).isSome then (.typed node fn warning, s)
      else
        match s.tracedForm B fn (node.key B) call.inputs with
        | (form, s') => (.typed { node with form := form.getD node.form } fn warning, s')
  | .typed node fn warning =>
      match s.enterExternal B node fn call.inputs with
      | (.error e, s') => (.refused node.name e, s')
      | (.ok id, s') => (.returned node id warning, s')
  | .returned node id warning => (.returned node id warning, s)
  | .refused name e => (.refused name e, s)

/-- A step of some thread: a call takes its name, a call goes on, or something that is no External
is recorded. -/
inductive CallEvent (F Spec : Type) where
  | enter (id : Nat) (call : MapCall Spec)
  | turn (id : Nat)
  | other (call : SessionCall F)

/-- The calls made so far, each where it is. -/
structure CallSystem (F Spec : Type) where
  recorder : Recorder F
  calls : Nat → Option (MapCall Spec × CallPhase F)

namespace CallSystem

def start (session : Session F) : CallSystem F Spec := ⟨.start session, fun _ => none⟩

/-- A call reads arrays of this Session, and has an id of its own. -/
def step [DecidableEq F] (sys : CallSystem F Spec) : CallEvent F Spec → CallSystem F Spec
  | .enter id call =>
      if (sys.calls id).isSome ∨ ∃ i ∈ call.inputs, sys.recorder.session.nodes.length ≤ i then sys
      else
        match sys.recorder.fnName call.fn call.name with
        | (name, recorder) => ⟨recorder, Function.update sys.calls id (some (call, .named name))⟩
  | .turn id =>
      match sys.calls id with
      | none => sys
      | some (call, phase) =>
          match advanceCall B sys.recorder call phase with
          | (phase', recorder) => ⟨recorder, Function.update sys.calls id (some (call, phase'))⟩
  | .other (.external ..) => sys
  | .other call =>
      { sys with recorder :=
          { sys.recorder with session := (call.run B.inference sys.recorder.session).2 } }

def run [DecidableEq F] (sys : CallSystem F Spec) (events : List (CallEvent F Spec)) :
    CallSystem F Spec := events.foldl (step B) sys

end CallSystem

end Calls

end Graphed
