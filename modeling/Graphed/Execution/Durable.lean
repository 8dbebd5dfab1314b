import Graphed.Core.Token
import Graphed.Execution.Plan
import Graphed.Library.Bytes
import Graphed.Library.Json

/-!
# Durable plans

A durable plan carries its serialized graph and the specs of its callables, and files each task
under a hash of what it runs. The hash takes each part behind its length, so it tells the parts
apart; of a partition it takes the JSON, which leaves a blind step out unless both its numbers are
set.
-/

namespace Graphed

open Bytes JsonText

theorem bind_ok_iff {α β : Type} {x : Except Raised α} {f : α → Except Raised β} {b : β} :
    (x >>= f) = .ok b ↔ ∃ a, x = .ok a ∧ f a = .ok b := by
  cases x with
  | error e => simp [bind, Except.bind]
  | ok a => simp [bind, Except.bind]

theorem map_ok_iff {α β : Type} {x : Except Raised α} {f : α → β} {b : β} :
    x.map f = .ok b ↔ ∃ a, x = .ok a ∧ f a = b := by
  cases x with
  | error e => simp [Except.map]
  | ok a => simp [Except.map]

/-! ### Hashed parts -/

def utf8 (s : String) : List UInt8 := s.toByteArray.data.toList

theorem utf8_inj {s t : String} : utf8 s = utf8 t ↔ s = t := by
  unfold utf8
  rw [Array.toList_inj, ← ByteArray.ext_iff, String.toByteArray_inj]

/-- A length in eight bytes, most significant first. -/
def lengthBytes (n : Nat) : Except Raised (List UInt8) :=
  if n < 2 ^ 64 then .ok (leBytes 8 n).reverse
  else .error (.exception ⟨"OverflowError", "int too big to convert", none, none⟩)

/-- The parts as they are hashed, each behind its length. -/
def framed : List (List UInt8) → Except Raised (List UInt8)
  | [] => .ok []
  | part :: parts => do
      let length ← lengthBytes part.length
      let rest ← framed parts
      .ok (length ++ (part ++ rest))

def sha256Hex (sha : List UInt8 → String) (parts : List (List UInt8)) : Except Raised String :=
  (framed parts).map sha

theorem lengthBytes_ok {n : Nat} {bs : List UInt8} (h : lengthBytes n = .ok bs) :
    n < 256 ^ 8 ∧ bs = (leBytes 8 n).reverse := by
  unfold lengthBytes at h
  split_ifs at h with hn
  exact ⟨by omega, (Except.ok.inj h).symm⟩

theorem framed_cons {part : List UInt8} {parts : List (List UInt8)} {bs : List UInt8} :
    framed (part :: parts) = .ok bs ↔ ∃ length rest, lengthBytes part.length = .ok length ∧
      framed parts = .ok rest ∧ bs = length ++ (part ++ rest) := by
  simp only [framed, bind_ok_iff, Except.ok.injEq, exists_and_left, @eq_comm _ bs]

theorem framed_inj {ps qs : List (List UInt8)} {bs : List UInt8} (hp : framed ps = .ok bs)
    (hq : framed qs = .ok bs) : ps = qs := by
  induction ps generalizing qs bs with
  | nil =>
      obtain rfl := Except.ok.inj hp
      cases qs with
      | nil => rfl
      | cons q qs =>
          obtain ⟨length, rest, hlength, -, hbs⟩ := framed_cons.mp hq
          obtain ⟨-, rfl⟩ := lengthBytes_ok hlength
          have hzero := congrArg List.length hbs
          simp only [List.length_nil, List.length_append, List.length_reverse,
            length_leBytes] at hzero
          omega
  | cons p ps ih =>
      obtain ⟨length, rest, hlength, hrest, hbs⟩ := framed_cons.mp hp
      obtain ⟨hsize, rfl⟩ := lengthBytes_ok hlength
      cases qs with
      | nil =>
          obtain rfl := Except.ok.inj hq
          have hzero := congrArg List.length hbs
          simp only [List.length_nil, List.length_append, List.length_reverse,
            length_leBytes] at hzero
          omega
      | cons q qs =>
          obtain ⟨length', rest', hlength', hrest', hbs'⟩ := framed_cons.mp hq
          obtain ⟨hsize', rfl⟩ := lengthBytes_ok hlength'
          obtain ⟨hbytes, htail⟩ := List.append_inj (hbs.symm.trans hbs') (by simp)
          have hsame : p.length = q.length := by
            have hnumbers := congrArg ofLeBytes (List.reverse_inj.mp hbytes)
            rwa [ofLeBytes_leBytes hsize, ofLeBytes_leBytes hsize'] at hnumbers
          obtain ⟨rfl, rfl⟩ := List.append_inj htail hsame
          rw [ih hrest hrest']

/-- A hash without collisions tells the parts apart. -/
theorem sha256Hex_inj {sha : List UInt8 → String} (hsha : Function.Injective sha)
    {ps qs : List (List UInt8)} {digest : String} (hp : sha256Hex sha ps = .ok digest)
    (hq : sha256Hex sha qs = .ok digest) : ps = qs := by
  obtain ⟨bs, hps, rfl⟩ := map_ok_iff.mp hp
  obtain ⟨bs', hqs, heq⟩ := map_ok_iff.mp hq
  obtain rfl := hsha heq
  exact framed_inj hps hqs

/-! ### Partitions -/

def numberValue (n : Int) : Value := .num (Number.ofInt n)

/-- The step of a blind partition, when both its numbers are set. -/
def Partition.step (p : Partition) : Option (Int × Int) :=
  match p.blindStep, p.blindNSteps with
  | some step, some nSteps => some (step, nSteps)
  | _, _ => none

/-- Its items in the order of their keys; the blind ones only when set. -/
def partitionJson (p : Partition) : Fields :=
  let named := Fields.cons "entry_start".toList (numberValue p.entryStart)
    (.cons "entry_stop".toList (numberValue p.entryStop)
      (.cons "tree".toList (.str p.tree.toList) (.cons "uri".toList (.str p.uri.toList) .nil)))
  let stepped :=
    match p.step with
    | some (step, nSteps) => Fields.cons "blind_n_steps".toList (numberValue nSteps)
        (.cons "blind_step".toList (numberValue step) named)
    | none => named
  match p.blindLimit with
  | some limit => .cons "blind_limit".toList (numberValue limit) stepped
  | none => stepped

/-- The one canonical text of a dict. -/
def jsonBytes (fields : Fields) : List UInt8 := utf8 (String.ofList (dump (.obj fields)))

def partitionBytes (p : Partition) : List UInt8 := jsonBytes (partitionJson p)

theorem jsonBytes_inj {x y : Fields} (h : jsonBytes x = jsonBytes y) : x = y := by
  have hdump := String.ofList_inj.mp (utf8_inj.mp h)
  have hload := loads_dump (.obj x)
  rw [hdump, loads_dump] at hload
  exact (Value.obj.inj (Option.some.inj hload)).symm

theorem numberValue_inj {a b : Int} (h : numberValue a = numberValue b) : a = b := by
  have htext : a.repr.toList = b.repr.toList := congrArg Number.text (Value.num.inj h)
  exact repr_int_inj (String.toList_inj.mp htext)

/-- What the JSON of a partition says. -/
structure PartitionKey where
  uri : String
  tree : String
  entryStart : Int
  entryStop : Int
  step : Option (Int × Int)
  blindLimit : Option Int
deriving DecidableEq

def Partition.jsonKey (p : Partition) : PartitionKey :=
  ⟨p.uri, p.tree, p.entryStart, p.entryStop, p.step, p.blindLimit⟩

theorem partitionJson_inj {p q : Partition} (h : partitionJson p = partitionJson q) :
    p.jsonKey = q.jsonKey := by
  unfold partitionJson at h
  unfold Partition.jsonKey
  have htext : ∀ {s t : String}, Value.str s.toList = Value.str t.toList → s = t :=
    fun hs => String.toList_inj.mp (Value.str.inj hs)
  cases hpl : p.blindLimit <;> cases hql : q.blindLimit <;> cases hps : p.step <;>
    cases hqs : q.step <;> rw [hpl, hql, hps, hqs] at h <;>
    simp only [Fields.cons.injEq, String.toList_inj, reduceCtorEq, and_true, true_and,
      String.reduceEq, and_false] at h
  case none.none.none.none =>
    rw [numberValue_inj h.1, numberValue_inj h.2.1, htext h.2.2.1, htext h.2.2.2]
  case none.none.some.some =>
    rw [Prod.ext (numberValue_inj h.2.1) (numberValue_inj h.1), numberValue_inj h.2.2.1,
      numberValue_inj h.2.2.2.1, htext h.2.2.2.2.1, htext h.2.2.2.2.2]
  case some.some.none.none =>
    rw [numberValue_inj h.1, numberValue_inj h.2.1, numberValue_inj h.2.2.1, htext h.2.2.2.1,
      htext h.2.2.2.2]
  case some.some.some.some =>
    rw [numberValue_inj h.1, Prod.ext (numberValue_inj h.2.2.1) (numberValue_inj h.2.1),
      numberValue_inj h.2.2.2.1, numberValue_inj h.2.2.2.2.1, htext h.2.2.2.2.2.1,
      htext h.2.2.2.2.2.2]

theorem partitionBytes_inj {p q : Partition} (h : partitionBytes p = partitionBytes q) :
    p.jsonKey = q.jsonKey := partitionJson_inj (jsonBytes_inj h)

/-- A partition whose blind step is set with its number of steps, or neither. -/
def Partition.WholeStep (p : Partition) : Prop := p.blindStep.isSome = p.blindNSteps.isSome

theorem Partition.eq_of_jsonKey {p q : Partition} (hp : p.WholeStep) (hq : q.WholeStep)
    (h : p.jsonKey = q.jsonKey) : p = q := by
  obtain ⟨uri, tree, start, stop, step, nSteps, limit⟩ := p
  obtain ⟨uri', tree', start', stop', step', nSteps', limit'⟩ := q
  unfold WholeStep at hp hq
  cases step <;> cases nSteps <;> cases step' <;> cases nSteps' <;>
    simp_all [jsonKey, Partition.step]

/-! ### Specs of callables -/

inductive OpKind where
  | ref
  | opaqueOp
deriving DecidableEq

/-- How to recover a callable, and what is recovered: a bound copy where there is one. -/
structure OpSpec (F : Type) where
  kind : OpKind
  ref : String
  blob : List UInt8
  callable : F

namespace OpSpec

variable {F F' : Type}

/-- The bytes that identify the callable; a bound copy does not count. -/
def identity (spec : OpSpec F) : List UInt8 :=
  match spec.kind with
  | .ref => utf8 "ref" ++ 0 :: utf8 spec.ref
  | .opaqueOp => utf8 "opaque" ++ 0 :: spec.blob

theorem identity_inj {x : OpSpec F} {y : OpSpec F'} (h : x.identity = y.identity) :
    x.kind = y.kind ∧ (x.kind = .ref → x.ref = y.ref) ∧ (x.kind = .opaqueOp → x.blob = y.blob) := by
  have hhead : ∀ bs cs : List UInt8, utf8 "ref" ++ 0 :: bs ≠ utf8 "opaque" ++ 0 :: cs := by
    intro bs cs heq
    have hfirst : some (114 : UInt8) = some 111 := congrArg List.head? heq
    exact absurd hfirst (by decide)
  unfold identity at h
  cases hx : x.kind <;> cases hy : y.kind <;> rw [hx, hy] at h <;> dsimp only at h
  · refine ⟨rfl, ?_, ?_⟩
    · intro _
      exact utf8_inj.mp (List.cons.inj (List.append_cancel_left h)).2
    · intro hne
      cases hne
  · exact absurd h (hhead _ _)
  · exact absurd h.symm (hhead _ _)
  · refine ⟨rfl, ?_, ?_⟩
    · intro hne
      cases hne
    · intro _
      exact (List.cons.inj (List.append_cancel_left h)).2

end OpSpec

/-! ### Plans of one stage -/

/-- A durable plan over values `V`. Of its stopping conditions its runner reads the error budget. -/
structure DurablePlan (V : Type) where
  ir : List UInt8
  process : OpSpec (Partition → Except Raised V)
  combine : OpSpec (V → V → Except Raised V)
  empty : OpSpec (Except Raised V)
  partitions : List Partition
  errorBudget : Option Int
  finalize : Option (OpSpec (V → Except Raised V))

def taskDomain : List UInt8 := utf8 "graphed-task-v1"

def DurablePlan.taskId {V : Type} (sha : List UInt8 → String) (plan : DurablePlan V)
    (partition : Partition) : Except Raised String :=
  sha256Hex sha [taskDomain, plan.ir, plan.process.identity, partitionBytes partition]

/-! ### Plans of several stages -/

/-- A stage's process: a task and the payloads of the stages it reads. -/
abbrev StageProcess := Task → List (List UInt8) → Except Raised (List UInt8)

structure StageSpec where
  kind : String
  inputs : List Nat
  process : OpSpec StageProcess
  routing : Fields
  tasks : List Task

structure DurablePlanV2 where
  ir : List UInt8
  stages : List StageSpec

def taskDomainV2 : List UInt8 := utf8 "graphed-task-v2"

/-- The id of one task of the stage at an index. -/
def DurablePlanV2.taskId (sha : List UInt8 → String) (plan : DurablePlanV2) (stageIndex : Nat)
    (stage : StageSpec) (task : Task) : Except Raised String :=
  sha256Hex sha [taskDomainV2, plan.ir, utf8 stageIndex.repr, utf8 stage.kind,
    stage.process.identity, jsonBytes stage.routing, partitionBytes task.partition,
    utf8 task.key.repr]

/-! ### Running stage by stage -/

def keyError (key : String) : Raised := .exception ⟨"KeyError", key, none, none⟩

/-- What the stages read have, one stage after the other. -/
def gatherInputs {α : Type} (blocks : List (List α)) : List Nat → Except Raised (List α)
  | [] => .ok []
  | dep :: deps =>
      match blocks[dep]? with
      | none => .error (keyError dep.repr)
      | some block => (gatherInputs blocks deps).map fun rest => block ++ rest

/-- The payloads of every stage, each task handed those of the stages its own reads. -/
def runStages : List StageSpec → List (List (List UInt8)) → Except Raised (List (List (List UInt8)))
  | [], payloads => .ok payloads
  | stage :: stages, payloads => do
      let upstream ← gatherInputs payloads stage.inputs
      let out ← stage.tasks.mapM fun task => stage.process.callable task upstream
      runStages stages (payloads ++ [out])

/-- The payloads a run passes for its value: the last stage's. -/
def lastPayloads (plan : DurablePlanV2) : Except Raised (List (List UInt8)) := do
  let payloads ← runStages plan.stages []
  match payloads.getLast? with
  | some last => .ok last
  | none => .error (.exception ⟨"IndexError", "list index out of range", none, none⟩)

/-! ### What an id tells -/

section Ids

variable {sha : List UInt8 → String} {V V' : Type} {id : String}

theorem DurablePlan.taskId_inj (hsha : Function.Injective sha) {plan : DurablePlan V}
    {plan' : DurablePlan V'} {p q : Partition} (hp : plan.taskId sha p = .ok id)
    (hq : plan'.taskId sha q = .ok id) :
    plan.ir = plan'.ir ∧ plan.process.identity = plan'.process.identity ∧
      p.jsonKey = q.jsonKey := by
  have hparts := sha256Hex_inj hsha hp hq
  simp only [List.cons.injEq, and_true, true_and] at hparts
  exact ⟨hparts.1, hparts.2.1, partitionBytes_inj hparts.2.2⟩

theorem DurablePlanV2.taskId_inj (hsha : Function.Injective sha) {plan plan' : DurablePlanV2}
    {i j : Nat} {stage stage' : StageSpec} {t u : Task}
    (ht : plan.taskId sha i stage t = .ok id) (hu : plan'.taskId sha j stage' u = .ok id) :
    plan.ir = plan'.ir ∧ i = j ∧ stage.kind = stage'.kind ∧
      stage.process.identity = stage'.process.identity ∧ stage.routing = stage'.routing ∧
      t.partition.jsonKey = u.partition.jsonKey ∧ t.key = u.key := by
  have hparts := sha256Hex_inj hsha ht hu
  simp only [List.cons.injEq, and_true, true_and, utf8_inj] at hparts
  obtain ⟨hir, hindex, hkind, hprocess, hrouting, hpartition, hkey⟩ := hparts
  exact ⟨hir, repr_nat_inj hindex, hkind, hprocess, jsonBytes_inj hrouting,
    partitionBytes_inj hpartition, repr_int_inj hkey⟩

/-- The two kinds of plan share no id. -/
theorem DurablePlan.taskId_ne_v2 (hsha : Function.Injective sha) {plan : DurablePlan V}
    {plan' : DurablePlanV2} {p : Partition} {j : Nat} {stage : StageSpec} {u : Task}
    (hp : plan.taskId sha p = .ok id) : plan'.taskId sha j stage u ≠ .ok id := by
  intro hu
  have hlength := congrArg List.length (sha256Hex_inj hsha hp hu)
  simp at hlength

end Ids

end Graphed
