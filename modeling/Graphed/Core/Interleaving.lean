import Graphed.Core.Recording
import Graphed.Library.Terms
import Mathlib.Data.Set.Function

/-!
# Interleaved threads

Threads share one store, and every call is one critical section. A schedule says whose turn it is;
a command names ids, or what commands of its own or another thread returned, and waits for those.
Whatever the schedule, the store keeps its invariant and the ids it handed out. Two schedules that
run the same programs to their end give the same arena up to a renumbering: the terms the nodes
unfold to are those of the commands.
-/

namespace Graphed

open Terms GraphStore

/-! ### Terms of an arena -/

/-- The operator tokens a node stands for, its inputs unfolded. -/
def arenaTerm (nodes : List NodeKey) : Nat → Term String :=
  unfold NodeKey.token NodeKey.inputs (.node "" []) nodes

theorem arenaTerm_eq {nodes : List NodeKey} (h : TopologicalKeys nodes) {i : Nat} {key : NodeKey}
    (hi : nodes[i]? = some key) :
    arenaTerm nodes i = .node key.token (key.inputs.map (arenaTerm nodes)) :=
  unfold_eq h hi

/-- Nodes of an interned arena with one term are one node. -/
theorem GraphStore.Interned.arenaTerm_inj {s : GraphStore} (hs : s.Interned) {i j : Nat}
    (hi : i < s.nodes.length) (hj : j < s.nodes.length)
    (h : arenaTerm s.nodes i = arenaTerm s.nodes j) : i = j := by
  induction i using Nat.strongRecOn generalizing j with
  | ind i ih =>
      have hki := List.getElem?_eq_getElem hi
      have hkj := List.getElem?_eq_getElem hj
      rw [arenaTerm_eq hs.inputs_lt hki, arenaTerm_eq hs.inputs_lt hkj, Term.node.injEq] at h
      obtain ⟨htoken, hargs⟩ := h
      refine hs.distinct i j _ _ hki hkj (NodeKey.beq_iff_operator.mpr
        ⟨NodeKey.token_inj.mp htoken, ?_⟩)
      have hlen := congrArg List.length hargs
      simp only [List.length_map] at hlen
      refine List.ext_getElem hlen fun k hk hk' => ?_
      have hx := hs.inputs_lt i _ hki _ (List.getElem_mem hk)
      have hy := hs.inputs_lt j _ hkj _ (List.getElem_mem hk')
      refine ih _ hx (hx.trans hi) (hy.trans hj) ?_
      have hterm := congrArg (·[k]?) hargs
      simpa [List.getElem?_eq_getElem hk, List.getElem?_eq_getElem hk'] using hterm

/-! ### Commands and schedules -/

/-- The call on other inputs; a source has none. -/
def Recording.withInputs : Recording → List Nat → Recording
  | source name params, _ => .source name params
  | op name _ params, ins => .op name ins params
  | reduction name _ params, ins => .reduction name ins params
  | external descriptor _ params, ins => .external descriptor ins params
  | exchange _ scheme, ins => .exchange ins scheme
  | join _ scheme, ins => .join ins scheme

theorem Recording.key_withInputs (call : Recording) (ins : List Nat) :
    (call.withInputs ins).key = call.key.withInputs ins := by
  cases call <;> rfl

/-- What each thread's commands returned so far. -/
abbrev Returned := Nat → List (Except BadNodeId Nat)

/-- An operand of a command: an id, or what command `k` of thread `t` returned. -/
inductive Ref where
  | id (i : Nat)
  | result (t k : Nat)

inductive Command where
  | record (call : Recording) (refs : List Ref)
  | mark (ref : Ref)

/-- The id an operand stands for; none while the command it names has not returned one. -/
def Ref.resolve (returned : Returned) : Ref → Option Nat
  | id i => some i
  | result t k =>
      match (returned t)[k]? with
      | some (.ok i) => some i
      | _ => none

def Command.refs : Command → List Ref
  | record _ refs => refs
  | mark ref => [ref]

/-- What a command returns and the store after it. A mark returns the id it marks. -/
def Command.exec (s : GraphStore) (returned : Returned) :
    Command → Option (Except BadNodeId Nat × GraphStore)
  | record call refs =>
      (refs.mapM (Ref.resolve returned)).map fun ins => (call.withInputs ins).run s
  | mark ref => (ref.resolve returned).map fun i =>
      ((s.markOutput i).1.map fun _ => i, (s.markOutput i).2)

/-- The shared store, and what each thread's commands returned so far. -/
structure System where
  store : GraphStore
  returned : Returned

namespace System

def start (s : GraphStore) : System := ⟨s, fun _ => []⟩

/-- Thread `t`'s command returned `res` and left the store `s`. -/
def advance (sys : System) (t : Nat) (res : Except BadNodeId Nat) (s : GraphStore) : System :=
  ⟨s, Function.update sys.returned t (sys.returned t ++ [res])⟩

/-- Thread `t` runs its next command, if it has one whose operands resolve. -/
def step (programs : Nat → List Command) (sys : System) (t : Nat) : System :=
  match (programs t)[(sys.returned t).length]? with
  | none => sys
  | some command =>
      match command.exec sys.store sys.returned with
      | none => sys
      | some (res, s) => sys.advance t res s

/-- Run a schedule. -/
def run (programs : Nat → List Command) (sys : System) (schedule : List Nat) : System :=
  schedule.foldl (step programs) sys

/-- Every thread ran its whole program. -/
def Complete (programs : Nat → List Command) (sys : System) : Prop :=
  ∀ t, (sys.returned t).length = (programs t).length

end System

/-! ### One command -/

theorem GraphStore.prefix_intern (s : GraphStore) (key : NodeKey) :
    s.nodes <+: (s.intern key).2.nodes := by
  rcases s.intern_cases key with ⟨_, _, _, h⟩ | ⟨_, ⟨_, _, h⟩ | ⟨_, h⟩⟩
  · exact h.symm ▸ List.prefix_rfl
  · exact h.symm ▸ List.prefix_rfl
  · exact h.symm ▸ List.prefix_append _ _

/-- A command keeps the invariant and the nodes. -/
theorem Command.exec_spec {s s' : GraphStore} (hs : s.Interned) {returned : Returned}
    {command : Command} {res : Except BadNodeId Nat}
    (h : command.exec s returned = some (res, s')) : s'.Interned ∧ s.nodes <+: s'.nodes := by
  cases command with
  | record call refs =>
      rw [exec, Option.map_eq_some_iff] at h
      obtain ⟨ins, -, hrun⟩ := h
      rw [Recording.run_eq_intern] at hrun
      obtain rfl := congrArg Prod.snd hrun
      exact ⟨hs.intern _, prefix_intern s _⟩
  | mark ref =>
      rw [exec, Option.map_eq_some_iff] at h
      obtain ⟨i, -, hrun⟩ := h
      obtain rfl := congrArg Prod.snd hrun
      exact ⟨hs.markOutput i, (nodes_markOutput s i).symm ▸ List.prefix_rfl⟩

/-- A schedule keeps the invariant and the nodes, whatever the programs. -/
theorem System.run_spec (programs : Nat → List Command) {sys : System}
    (hs : sys.store.Interned) (schedule : List Nat) :
    (sys.run programs schedule).store.Interned ∧
      sys.store.nodes <+: (sys.run programs schedule).store.nodes := by
  induction schedule generalizing sys with
  | nil => exact ⟨hs, List.prefix_rfl⟩
  | cons t schedule ih =>
      have hstep : (sys.step programs t).store.Interned ∧
          sys.store.nodes <+: (sys.step programs t).store.nodes := by
        unfold step
        cases (programs t)[(sys.returned t).length]? with
        | none => exact ⟨hs, List.prefix_rfl⟩
        | some command =>
            dsimp only
            cases hexec : command.exec sys.store sys.returned with
            | none => exact ⟨hs, List.prefix_rfl⟩
            | some next => exact Command.exec_spec hs hexec
      obtain ⟨hinterned, hpre⟩ := ih hstep.1
      exact ⟨hinterned, hstep.2.trans hpre⟩

/-- An id the store does not hold is refused, and nothing changes. -/
theorem Recording.run_of_bad {s : GraphStore} {call : Recording} {i : Nat}
    (hi : i ∈ call.key.inputs) (hbad : s.nodes.length ≤ i) :
    ∃ bad ∈ call.key.inputs, s.nodes.length ≤ bad ∧ call.run s = (.error ⟨bad⟩, s) := by
  rw [call.run_eq_intern]
  rcases s.intern_cases call.key with h | ⟨hvalid, -⟩
  · exact h
  · exact absurd (hvalid i hi) (Nat.not_lt.mpr hbad)

theorem GraphStore.markOutput_of_bad {s : GraphStore} {i : Nat} (hbad : s.nodes.length ≤ i) :
    s.markOutput i = (.error ⟨i⟩, s) := by
  rw [markOutput, if_pos hbad]

theorem GraphStore.markOutput_of_lt {s : GraphStore} {i : Nat} (hlt : i < s.nodes.length) :
    (s.markOutput i).1 = .ok () ∧
      ∀ o, o ∈ (s.markOutput i).2.outputs ↔ o ∈ s.outputs ∨ o = i := by
  unfold markOutput
  rw [if_neg (Nat.not_le.mpr hlt)]
  split_ifs with hmem
  · exact ⟨rfl, fun o => ⟨Or.inl, fun ho => ho.elim id fun ho => ho ▸ hmem⟩⟩
  · exact ⟨rfl, fun o => by simp⟩

/-- Interning valid inputs returns a node with the key. -/
theorem GraphStore.Interned.intern_ok {s : GraphStore} (hs : s.Interned) {key : NodeKey}
    (hvalid : ∀ i ∈ key.inputs, i < s.nodes.length) :
    ∃ id k, (s.intern key).1 = .ok id ∧ (s.intern key).2.nodes[id]? = some k ∧
      (k == key) = true ∧ ∀ j < (s.intern key).2.nodes.length, j < s.nodes.length ∨ j = id := by
  rcases s.intern_cases key with ⟨i, hi, hbad, -⟩ | ⟨-, ⟨id, hlookup, h⟩ | ⟨-, h⟩⟩
  · exact absurd (hvalid i hi) (Nat.not_lt.mpr hbad)
  · obtain ⟨k, hk, hkey⟩ := (hs.lookup_iff key id).mp hlookup
    rw [h]
    exact ⟨id, k, rfl, hk, hkey, fun j hj => Or.inl hj⟩
  · rw [h]
    refine ⟨_, key, rfl, by simp [GraphStore.push], NodeKey.beq_refl key, fun j hj => ?_⟩
    simp only [GraphStore.push, List.length_append, List.length_singleton] at hj
    omega

/-- A returned id names the key. -/
theorem GraphStore.Interned.intern_key {s : GraphStore} (hs : s.Interned) {key : NodeKey} {id : Nat}
    (h : (s.intern key).1 = .ok id) :
    ∃ k, (s.intern key).2.nodes[id]? = some k ∧ (k == key) = true := by
  rcases s.intern_cases key with ⟨i, -, -, heq⟩ | ⟨hvalid, -⟩
  · rw [heq] at h
    exact absurd h (by simp)
  · obtain ⟨id', k, hok, hk, hkey, -⟩ := hs.intern_ok hvalid
    obtain rfl : id' = id := Except.ok.inj (hok.symm.trans h)
    exact ⟨k, hk, hkey⟩

/-! ### Programs over returned ids -/

/-- An operand that is an id is below `n`. -/
def Ref.InRange (n : Nat) : Ref → Prop
  | id i => i < n
  | result _ _ => True

/-- The programs name ids below `n` and what commands returned. -/
def ClosedPrograms (n : Nat) (programs : Nat → List Command) : Prop :=
  ∀ t, ∀ command ∈ programs t, ∀ ref ∈ command.refs, ref.InRange n

/-- The id an operand that resolves stands for. -/
def Ref.target (returned : Returned) (ref : Ref) : Nat := (ref.resolve returned).getD 0

/-- The term of a command from the terms of its operands. -/
def Command.term (term : Nat → Term String) (returned : Returned) : Command → Term String
  | record call refs => .node call.key.token
      ((call.key.withInputs (refs.map (Ref.target returned))).inputs.map term)
  | mark ref => term (ref.target returned)

/-- A command's term depends on its operands' terms only. -/
theorem Command.term_congr {term term' : Nat → Term String} {returned returned' : Returned}
    {command : Command} (h : ∀ ref ∈ command.refs,
      term' (ref.target returned') = term (ref.target returned)) :
    command.term term' returned' = command.term term returned := by
  cases command with
  | mark ref => exact h ref (List.mem_singleton_self ref)
  | record call refs =>
      rw [Command.term, Command.term]
      congr 1
      cases hsource : call.key.isSource with
      | true =>
          have hnil : ∀ ins, (call.key.withInputs ins).inputs = [] := fun ins =>
            NodeKey.inputs_of_isSource (by rwa [NodeKey.isSource_withInputs])
          rw [hnil, hnil, List.map_nil, List.map_nil]
      | false =>
          have hins : ∀ ins, (call.key.withInputs ins).inputs = ins := fun ins =>
            NodeKey.inputs_withInputs fun hs => absurd (hsource.symm.trans hs) (by decide)
          rw [hins, hins, List.map_map, List.map_map]
          exact List.map_congr_left h

theorem mapM_resolve {returned : Returned} {refs : List Ref} {ins : List Nat}
    (h : refs.mapM (Ref.resolve returned) = some ins) :
    ins = refs.map (Ref.target returned) ∧ ∀ ref ∈ refs, (ref.resolve returned).isSome = true := by
  induction refs generalizing ins with
  | nil => exact ⟨(Option.some.inj h).symm, by simp⟩
  | cons ref refs ih =>
      rw [List.mapM_cons] at h
      obtain ⟨i, hi, h⟩ := Option.bind_eq_some_iff.mp h
      obtain ⟨rest, hrest, h⟩ := Option.bind_eq_some_iff.mp h
      obtain ⟨rfl, hall⟩ := ih hrest
      obtain rfl := Option.some.inj h
      have htarget : ref.target returned = i := by rw [Ref.target, hi, Option.getD_some]
      exact ⟨by rw [List.map_cons, htarget], List.forall_mem_cons.mpr ⟨by rw [hi]; rfl, hall⟩⟩

namespace System

variable {programs : Nat → List Command} {s₀ : GraphStore}

/-- What a run of closed programs from `s₀` has done: every command succeeded, its id has the
command's term, and the nodes and outputs are the old ones and the commands'. -/
structure Faithful (programs : Nat → List Command) (s₀ : GraphStore) (sys : System) : Prop where
  interned : sys.store.Interned
  extends_start : s₀.nodes <+: sys.store.nodes
  result : ∀ (t k : Nat), k < (sys.returned t).length → ∃ command i,
    (programs t)[k]? = some command ∧ (sys.returned t)[k]? = some (.ok i) ∧
      i < sys.store.nodes.length ∧
        (∀ ref ∈ command.refs, (ref.resolve sys.returned).isSome = true) ∧
          arenaTerm sys.store.nodes i = command.term (arenaTerm sys.store.nodes) sys.returned
  covered : ∀ i < sys.store.nodes.length,
    i < s₀.nodes.length ∨ ∃ t k : Nat, (sys.returned t)[k]? = some (.ok i)
  outputs : ∀ o, o ∈ sys.store.outputs ↔ o ∈ s₀.outputs ∨ ∃ (t k : Nat) (ref : Ref),
    (programs t)[k]? = some (.mark ref) ∧ (sys.returned t)[k]? = some (.ok o)

/-- What a turn of thread `t` did: its command returned `i`, which has the command's term. -/
structure Turn (programs : Nat → List Command) (sys : System) (t : Nat) (command : Command)
    (i : Nat) (s' : GraphStore) : Prop where
  next : (programs t)[(sys.returned t).length]? = some command
  resolved : ∀ ref ∈ command.refs, (ref.resolve sys.returned).isSome = true
  interned : s'.Interned
  extends_store : sys.store.nodes <+: s'.nodes
  lt : i < s'.nodes.length
  term_eq : arenaTerm s'.nodes i = command.term (arenaTerm sys.store.nodes) sys.returned
  covered : ∀ j < s'.nodes.length, j < sys.store.nodes.length ∨ j = i
  outputs : ∀ o, o ∈ s'.outputs ↔ o ∈ sys.store.outputs ∨ (∃ ref, command = .mark ref) ∧ o = i

theorem faithful_start (hs : s₀.Interned) : Faithful programs s₀ (start s₀) where
  interned := hs
  extends_start := List.prefix_rfl
  result := fun t k hk => absurd hk (Nat.not_lt_zero k)
  covered := fun i hi => Or.inl hi
  outputs := fun o => by simp [start]

/-- What an operand resolves to is an id of the store. -/
theorem Faithful.target_lt {sys : System} (h : Faithful programs s₀ sys) {ref : Ref}
    (href : ref.InRange s₀.nodes.length) (hres : (ref.resolve sys.returned).isSome = true) :
    ref.target sys.returned < sys.store.nodes.length := by
  cases ref with
  | id i => exact Nat.lt_of_lt_of_le href h.extends_start.length_le
  | result t k =>
      have hk : k < (sys.returned t).length := by
        by_contra hk
        simp [Ref.resolve, List.getElem?_eq_none (Nat.not_lt.mp hk)] at hres
      obtain ⟨_, i, -, hi, hlt, -⟩ := h.result t k hk
      simpa only [Ref.target, Ref.resolve, hi, Option.getD_some] using hlt

/-- What a thread returned stays when a thread returns more. -/
theorem returned_advance {sys : System} {t t' k : Nat} {res x : Except BadNodeId Nat}
    {s' : GraphStore} (hx : (sys.returned t')[k]? = some x) :
    ((sys.advance t res s').returned t')[k]? = some x := by
  unfold advance
  by_cases ht : t' = t
  · subst ht
    simp only [Function.update_self]
    rw [List.getElem?_append_left (List.getElem?_eq_some_iff.mp hx).1, hx]
  · simpa only [Function.update_of_ne ht] using hx

theorem returned_advance_self {sys : System} {t : Nat} {res : Except BadNodeId Nat}
    {s' : GraphStore} :
    ((sys.advance t res s').returned t)[(sys.returned t).length]? = some res := by
  simp [advance]

theorem returned_advance_cases {sys : System} {t t' k : Nat} {res x : Except BadNodeId Nat}
    {s' : GraphStore} (hx : ((sys.advance t res s').returned t')[k]? = some x) :
    (sys.returned t')[k]? = some x ∨ t' = t ∧ k = (sys.returned t).length ∧ x = res := by
  unfold advance at hx
  by_cases ht : t' = t
  · subst ht
    simp only [Function.update_self, List.getElem?_append] at hx
    split_ifs at hx with hk
    · exact Or.inl hx
    · rw [List.getElem?_singleton] at hx
      split_ifs at hx with hk'
      exact Or.inr ⟨rfl, by omega, (Option.some.inj hx).symm⟩
  · exact Or.inl (by simpa only [Function.update_of_ne ht] using hx)

theorem resolve_advance {sys : System} {t : Nat} {res : Except BadNodeId Nat} {s' : GraphStore}
    {ref : Ref} (hres : (ref.resolve sys.returned).isSome = true) :
    ref.resolve (sys.advance t res s').returned = ref.resolve sys.returned := by
  cases ref with
  | id i => rfl
  | result t' k =>
      rw [Ref.resolve] at hres ⊢
      cases hx : (sys.returned t')[k]? with
      | none => simp [hx] at hres
      | some x => rw [returned_advance hx, Ref.resolve, hx]

/-- A turn of closed programs either waits or runs a command to success. -/
theorem Faithful.turn {sys : System} (h : Faithful programs s₀ sys)
    (hclosed : ClosedPrograms s₀.nodes.length programs) (t : Nat) :
    sys.step programs t = sys ∨ ∃ command i s', Turn programs sys t command i s' ∧
      sys.step programs t = sys.advance t (.ok i) s' := by
  unfold System.step
  cases hnext : (programs t)[(sys.returned t).length]? with
  | none => exact Or.inl rfl
  | some command =>
      have hrefs := hclosed t command (List.mem_of_getElem? hnext)
      cases command with
      | record call refs =>
          cases hres : refs.mapM (Ref.resolve sys.returned) with
          | none => exact Or.inl (by simp only [Command.exec, hres, Option.map_none])
          | some ins =>
              obtain ⟨rfl, hall⟩ := mapM_resolve hres
              have hvalid : ∀ x ∈ (call.key.withInputs
                  (refs.map (Ref.target sys.returned))).inputs, x < sys.store.nodes.length := by
                intro x hx
                obtain ⟨ref, href, rfl⟩ :=
                  List.mem_map.mp (NodeKey.mem_of_mem_inputs_withInputs hx)
                exact h.target_lt (hrefs ref href) (hall ref href)
              obtain ⟨i, k, hok, hk, hkey, hnew⟩ := h.interned.intern_ok hvalid
              have hinterned := h.interned.intern
                (call.key.withInputs (refs.map (Ref.target sys.returned)))
              have hpre := prefix_intern sys.store
                (call.key.withInputs (refs.map (Ref.target sys.returned)))
              refine Or.inr ⟨_, i, _, ⟨hnext, hall, hinterned, hpre,
                (List.getElem?_eq_some_iff.mp hk).1, ?_, hnew,
                fun o => by simp [outputs_intern]⟩, ?_⟩
              · obtain ⟨hop, hins⟩ := NodeKey.beq_iff_operator.mp hkey
                rw [arenaTerm_eq hinterned.inputs_lt hk, NodeKey.token_inj.mpr hop, hins,
                  NodeKey.token_withInputs, Command.term]
                congr 1
                exact List.map_congr_left fun x hx =>
                  (unfold_extend hinterned.inputs_lt hpre (hvalid x hx)).symm
              · simp only [Command.exec, hres, Option.map_some, Recording.run_eq_intern,
                  Recording.key_withInputs, hok]
      | mark ref =>
          cases hres : ref.resolve sys.returned with
          | none => exact Or.inl (by simp only [Command.exec, hres, Option.map_none])
          | some i =>
              have hsome : (ref.resolve sys.returned).isSome = true := by rw [hres]; rfl
              have htarget : ref.target sys.returned = i := by
                rw [Ref.target, hres, Option.getD_some]
              have hlt := htarget ▸ h.target_lt (hrefs ref (List.mem_singleton_self ref)) hsome
              obtain ⟨hok, houts⟩ := markOutput_of_lt hlt
              have hnodes := nodes_markOutput sys.store i
              refine Or.inr ⟨_, i, _, ⟨hnext, ?_, h.interned.markOutput i, ?_, ?_, ?_, ?_, ?_⟩, ?_⟩
              · exact List.forall_mem_singleton.mpr hsome
              · exact hnodes.symm ▸ List.prefix_rfl
              · rwa [hnodes]
              · rw [hnodes, Command.term, htarget]
              · exact fun j hj => Or.inl (hnodes ▸ hj)
              · exact fun o => by simp [houts]
              · simp only [Command.exec, hres, Option.map_some, hok, Except.map]

/-- A command that ran keeps its term after a turn. -/
theorem Faithful.term_advance {sys : System} (h : Faithful programs s₀ sys)
    (hclosed : ClosedPrograms s₀.nodes.length programs) {t i : Nat} {command : Command}
    {s' : GraphStore} (hinterned : s'.Interned) (hpre : sys.store.nodes <+: s'.nodes)
    {t' : Nat} (hmem : command ∈ programs t')
    (hres : ∀ ref ∈ command.refs, (ref.resolve sys.returned).isSome = true) :
    command.term (arenaTerm s'.nodes) (sys.advance t (.ok i) s').returned =
      command.term (arenaTerm sys.store.nodes) sys.returned := by
  refine Command.term_congr fun ref href => ?_
  have hlt := h.target_lt (hclosed t' command hmem ref href) (hres ref href)
  rw [Ref.target, resolve_advance (hres ref href)]
  exact (unfold_extend hinterned.inputs_lt hpre hlt).symm

/-- A turn keeps a run of closed programs faithful. -/
theorem Faithful.advance {sys : System} (h : Faithful programs s₀ sys)
    (hclosed : ClosedPrograms s₀.nodes.length programs) {t i : Nat} {command : Command}
    {s' : GraphStore} (hturn : Turn programs sys t command i s') :
    Faithful programs s₀ (sys.advance t (.ok i) s') := by
  obtain ⟨hnext, hall, hinterned, hpre, hi, hterm, hnew, houts⟩ := hturn
  refine ⟨hinterned, h.extends_start.trans hpre, fun t' k hk => ?_, fun j hj => ?_, fun o => ?_⟩
  · rcases returned_advance_cases (List.getElem?_eq_getElem hk) with hold | ⟨rfl, rfl, -⟩
    · obtain ⟨command', i', hcommand, hi', hlt, hres, hterm'⟩ :=
        h.result t' k (List.getElem?_eq_some_iff.mp hold).1
      refine ⟨command', i', hcommand, returned_advance hi', hlt.trans_le hpre.length_le,
        fun ref href => by rw [resolve_advance (hres ref href)]; exact hres ref href, ?_⟩
      exact (unfold_extend hinterned.inputs_lt hpre hlt).symm.trans (hterm'.trans
        (h.term_advance hclosed hinterned hpre (List.mem_of_getElem? hcommand) hres).symm)
    · refine ⟨command, i, hnext, returned_advance_self, hi,
        fun ref href => by rw [resolve_advance (hall ref href)]; exact hall ref href, ?_⟩
      exact hterm.trans (h.term_advance hclosed hinterned hpre
        (List.mem_of_getElem? hnext) hall).symm
  · rcases hnew j hj with hold | rfl
    · exact (h.covered j hold).imp id fun ⟨t', k, hk⟩ => ⟨t', k, returned_advance hk⟩
    · exact Or.inr ⟨t, _, returned_advance_self⟩
  · refine (houts o).trans ?_
    rw [h.outputs]
    constructor
    · rintro ((ho | ⟨t', k, ref, hcommand, hk⟩) | ⟨⟨ref, rfl⟩, rfl⟩)
      · exact Or.inl ho
      · exact Or.inr ⟨t', k, ref, hcommand, returned_advance hk⟩
      · exact Or.inr ⟨t, _, ref, hnext, returned_advance_self⟩
    · rintro (ho | ⟨t', k, ref, hcommand, hk⟩)
      · exact Or.inl (Or.inl ho)
      · rcases returned_advance_cases hk with hold | ⟨rfl, rfl, hval⟩
        · exact Or.inl (Or.inr ⟨t', k, ref, hcommand, hold⟩)
        · rw [hnext, Option.some.injEq] at hcommand
          exact Or.inr ⟨⟨ref, hcommand⟩, Except.ok.inj hval⟩

theorem Faithful.run {sys : System} (h : Faithful programs s₀ sys)
    (hclosed : ClosedPrograms s₀.nodes.length programs) (schedule : List Nat) :
    Faithful programs s₀ (sys.run programs schedule) := by
  induction schedule generalizing sys with
  | nil => exact h
  | cons t schedule ih =>
      refine ih ?_
      rcases h.turn hclosed t with heq | ⟨command, i, s', hturn, heq⟩
      · rwa [heq]
      · rw [heq]
        exact h.advance hclosed hturn

/-! ### Two schedules -/

/-- What `sys` returned, `sys'` returned too, up to the terms the ids stand for. -/
def Agrees (sys sys' : System) : Prop :=
  ∀ (t k i : Nat), (sys.returned t)[k]? = some (.ok i) → ∃ i',
    (sys'.returned t)[k]? = some (.ok i') ∧
      arenaTerm sys.store.nodes i = arenaTerm sys'.store.nodes i'

/-- Operands that both systems resolve stand for one term. -/
theorem Agrees.target {sys sys' : System} (hagrees : Agrees sys sys')
    (h : Faithful programs s₀ sys) (h' : Faithful programs s₀ sys') {ref : Ref}
    (href : ref.InRange s₀.nodes.length) (hres : (ref.resolve sys.returned).isSome = true) :
    arenaTerm sys'.store.nodes (ref.target sys'.returned) =
      arenaTerm sys.store.nodes (ref.target sys.returned) := by
  cases ref with
  | id i =>
      exact (unfold_extend h'.interned.inputs_lt h'.extends_start href).symm.trans
        (unfold_extend h.interned.inputs_lt h.extends_start href)
  | result t k =>
      rw [Ref.resolve] at hres
      rw [Ref.target, Ref.target, Ref.resolve, Ref.resolve]
      cases hx : (sys.returned t)[k]? with
      | none => simp [hx] at hres
      | some x =>
          cases x with
          | error bad => simp [hx] at hres
          | ok i =>
              obtain ⟨i', hi', hterm⟩ := hagrees t k i hx
              rw [hi']
              exact hterm.symm

/-- A turn returns what a system that ran every program returned. -/
theorem Agrees.advance {sys sys' : System} (hagrees : Agrees sys sys')
    (h : Faithful programs s₀ sys) (h' : Faithful programs s₀ sys')
    (hclosed : ClosedPrograms s₀.nodes.length programs) (hdone : sys'.Complete programs)
    {t i : Nat} {command : Command} {s' : GraphStore} (hturn : Turn programs sys t command i s') :
    Agrees (sys.advance t (.ok i) s') sys' := by
  intro t' k j hj
  rcases returned_advance_cases hj with hold | ⟨rfl, rfl, hval⟩
  · obtain ⟨j', hj', hterm⟩ := hagrees t' k j hold
    obtain ⟨_, i', -, hi', hlt, -⟩ := h.result t' k (List.getElem?_eq_some_iff.mp hold).1
    obtain rfl : j = i' := Except.ok.inj (Option.some.inj (hold.symm.trans hi'))
    exact ⟨j', hj', (unfold_extend hturn.interned.inputs_lt hturn.extends_store hlt).symm.trans
      hterm⟩
  · obtain rfl := Except.ok.inj hval
    have hlt := (List.getElem?_eq_some_iff.mp hturn.next).1
    obtain ⟨command', j', hcommand, hj', -, -, hterm⟩ := h'.result t' _ (hdone t' ▸ hlt)
    obtain rfl : command = command' := Option.some.inj (hturn.next.symm.trans hcommand)
    refine ⟨j', hj', hturn.term_eq.trans (Eq.trans (Eq.symm ?_) hterm.symm)⟩
    exact Command.term_congr fun ref href => hagrees.target h h'
      (hclosed t' command (List.mem_of_getElem? hcommand) ref href) (hturn.resolved ref href)

theorem Agrees.run {sys sys' : System} (hagrees : Agrees sys sys')
    (h : Faithful programs s₀ sys) (h' : Faithful programs s₀ sys')
    (hclosed : ClosedPrograms s₀.nodes.length programs) (hdone : sys'.Complete programs)
    (schedule : List Nat) : Agrees (sys.run programs schedule) sys' := by
  induction schedule generalizing sys with
  | nil => exact hagrees
  | cons t schedule ih =>
      rcases h.turn hclosed t with heq | ⟨command, i, s', hturn, heq⟩
      · apply @ih (sys.step programs t)
        · exact heq.symm ▸ hagrees
        · exact heq.symm ▸ h
      · apply @ih (sys.step programs t)
        · exact heq.symm ▸ hagrees.advance h h' hclosed hdone hturn
        · exact heq.symm ▸ h.advance hclosed hturn

end System

/-- `f` renumbers the store `a` into the store `b`. -/
structure Renumbers (f : Nat → Nat) (a b : GraphStore) : Prop where
  bijOn : Set.BijOn f (Set.Iio a.nodes.length) (Set.Iio b.nodes.length)
  node : ∀ (i : Nat) (key : NodeKey), a.nodes[i]? = some key → ∃ key', b.nodes[f i]? = some key' ∧
    (key' == key.withInputs (key.inputs.map f)) = true
  outputs : ∀ i < a.nodes.length, f i ∈ b.outputs ↔ i ∈ a.outputs

/-- Interned arenas with the same terms and outputs are one up to a renumbering. -/
theorem renumbers_of_arenaTerm {a b : GraphStore} (ha : a.Interned) (hb : b.Interned)
    {f : Nat → Nat}
    (hf : ∀ i < a.nodes.length, f i < b.nodes.length ∧
      arenaTerm a.nodes i = arenaTerm b.nodes (f i))
    (hsurj : ∀ j < b.nodes.length, ∃ i < a.nodes.length, arenaTerm a.nodes i = arenaTerm b.nodes j)
    (houtputs : ∀ i < a.nodes.length, f i ∈ b.outputs ↔ i ∈ a.outputs) : Renumbers f a b where
  bijOn := by
    refine ⟨fun i hi => (hf i hi).1, fun i hi j hj hij => ?_, fun j hj => ?_⟩
    · refine ha.arenaTerm_inj hi hj ?_
      rw [(hf i hi).2, (hf j hj).2, hij]
    · obtain ⟨i, hi, hterm⟩ := hsurj j hj
      exact ⟨i, hi, hb.arenaTerm_inj (hf i hi).1 hj ((hf i hi).2.symm.trans hterm)⟩
  node := by
    intro i key hkey
    have hi := (List.getElem?_eq_some_iff.mp hkey).1
    obtain ⟨hfi, hterm⟩ := hf i hi
    refine ⟨_, List.getElem?_eq_getElem hfi, ?_⟩
    rw [arenaTerm_eq ha.inputs_lt hkey, arenaTerm_eq hb.inputs_lt (List.getElem?_eq_getElem hfi),
      Term.node.injEq] at hterm
    obtain ⟨htoken, hargs⟩ := hterm
    have hins : b.nodes[f i].inputs = key.inputs.map f := by
      have hlen := congrArg List.length hargs
      simp only [List.length_map] at hlen
      refine List.ext_getElem (by rw [List.length_map, hlen]) fun k hk hk' => ?_
      rw [List.length_map] at hk'
      have hx := (ha.inputs_lt i key hkey _ (List.getElem_mem hk')).trans hi
      have hy := (hb.inputs_lt _ _ (List.getElem?_eq_getElem hfi) _ (List.getElem_mem hk)).trans hfi
      rw [List.getElem_map]
      refine hb.arenaTerm_inj hy (hf _ hx).1 (Eq.trans ?_ (hf _ hx).2)
      have hterm := congrArg (·[k]?) hargs
      simpa [List.getElem?_eq_getElem hk, List.getElem?_eq_getElem hk'] using hterm.symm
    refine NodeKey.beq_iff_operator.mpr ⟨?_, ?_⟩
    · rw [NodeKey.operator_withInputs]
      exact NodeKey.token_inj.mp htoken.symm
    · rw [NodeKey.inputs_withInputs_map]
      exact hins
  outputs := houtputs

namespace System

variable {programs : Nat → List Command} {s₀ : GraphStore}

/-- An id of the arena has a counterpart in a system that ran every program. -/
theorem Agrees.counterpart {sys sys' : System} (hagrees : Agrees sys sys')
    (h : Faithful programs s₀ sys) (h' : Faithful programs s₀ sys') {i : Nat}
    (hi : i < sys.store.nodes.length) : ∃ i' < sys'.store.nodes.length,
      arenaTerm sys.store.nodes i = arenaTerm sys'.store.nodes i' := by
  rcases h.covered i hi with hold | ⟨t, k, hk⟩
  · exact ⟨i, Nat.lt_of_lt_of_le hold h'.extends_start.length_le,
      (unfold_extend h.interned.inputs_lt h.extends_start hold).symm.trans
        (unfold_extend h'.interned.inputs_lt h'.extends_start hold)⟩
  · obtain ⟨i', hi', hterm⟩ := hagrees t k i hk
    obtain ⟨_, j, -, hj, hlt, -⟩ := h'.result t k (List.getElem?_eq_some_iff.mp hi').1
    obtain rfl : i' = j := Except.ok.inj (Option.some.inj (hi'.symm.trans hj))
    exact ⟨i', hlt, hterm⟩

/-- Two runs of the same closed programs to their end differ by a renumbering that keeps the ids of
the store they started from and takes what one returned to what the other did. -/
theorem renumbers {schedule schedule' : List Nat} (hs : s₀.Interned)
    (hclosed : ClosedPrograms s₀.nodes.length programs)
    (hdone : ((start s₀).run programs schedule).Complete programs)
    (hdone' : ((start s₀).run programs schedule').Complete programs) :
    ∃ f : Nat → Nat, Renumbers f ((start s₀).run programs schedule).store
        ((start s₀).run programs schedule').store ∧
      (∀ i < s₀.nodes.length, f i = i) ∧
      ∀ (t k i : Nat), (((start s₀).run programs schedule).returned t)[k]? = some (.ok i) →
        (((start s₀).run programs schedule').returned t)[k]? = some (.ok (f i)) := by
  have hstart : Faithful programs s₀ (start s₀) := faithful_start hs
  have hempty : ∀ sys', Agrees (start s₀) sys' := fun sys' t k i hi => by simp [start] at hi
  have h := hstart.run hclosed schedule
  have h' := hstart.run hclosed schedule'
  have hagrees := (hempty _).run hstart h' hclosed hdone' schedule
  have hagrees' := (hempty _).run hstart h hclosed hdone schedule'
  revert hdone hagrees hagrees' h h'
  generalize (start s₀).run programs schedule = sys
  generalize (start s₀).run programs schedule' = sys'
  intro hdone h h' hagrees hagrees'
  choose f hflt hfterm using fun (i : Nat) (hi : i < sys.store.nodes.length) =>
    hagrees.counterpart h h' hi
  -- past the arena the renumbering is the identity
  let f' : Nat → Nat := fun i => if hi : i < sys.store.nodes.length then f i hi else i
  have hf' : ∀ i (hi : i < sys.store.nodes.length), f' i < sys'.store.nodes.length ∧
      arenaTerm sys.store.nodes i = arenaTerm sys'.store.nodes (f' i) := fun i hi => by
    simp only [f', dif_pos hi]
    exact ⟨hflt i hi, hfterm i hi⟩
  have hunique : ∀ i i' : Nat, i < sys.store.nodes.length → i' < sys'.store.nodes.length →
      arenaTerm sys.store.nodes i = arenaTerm sys'.store.nodes i' → f' i = i' :=
    fun i i' hi hi' hterm =>
      h'.interned.arenaTerm_inj (hf' i hi).1 hi' ((hf' i hi).2.symm.trans hterm)
  have hinj : ∀ i j : Nat, i < sys.store.nodes.length → j < sys.store.nodes.length →
      f' i = f' j → i = j := fun i j hi hj hij =>
    h.interned.arenaTerm_inj hi hj (by rw [(hf' i hi).2, (hf' j hj).2, hij])
  have hold : ∀ i < s₀.nodes.length, f' i = i := fun i hi =>
    hunique i i (Nat.lt_of_lt_of_le hi h.extends_start.length_le)
      (Nat.lt_of_lt_of_le hi h'.extends_start.length_le)
      ((unfold_extend h.interned.inputs_lt h.extends_start hi).symm.trans
        (unfold_extend h'.interned.inputs_lt h'.extends_start hi))
  have hreturned : ∀ (t k i : Nat), (sys.returned t)[k]? = some (.ok i) →
      (sys'.returned t)[k]? = some (.ok (f' i)) := by
    intro t k i hi
    obtain ⟨_, i₁, -, hi₁, hlt, -⟩ := h.result t k (List.getElem?_eq_some_iff.mp hi).1
    obtain rfl : i = i₁ := Except.ok.inj (Option.some.inj (hi.symm.trans hi₁))
    obtain ⟨i', hi', hterm⟩ := hagrees t k i hi
    obtain ⟨_, j, -, hj, hlt', -⟩ := h'.result t k (List.getElem?_eq_some_iff.mp hi').1
    obtain rfl : i' = j := Except.ok.inj (Option.some.inj (hi'.symm.trans hj))
    rw [hunique i i' hlt hlt' hterm]
    exact hi'
  refine ⟨f', renumbers_of_arenaTerm h.interned h'.interned hf' (fun j hj => ?_) (fun i hi => ?_),
    hold, hreturned⟩
  · obtain ⟨i, hi, hterm⟩ := hagrees'.counterpart h' h hj
    exact ⟨i, hi, hterm.symm⟩
  · rw [h.outputs, h'.outputs]
    constructor
    · rintro (ho | ⟨t, k, ref, hcommand, hk⟩)
      · have ho' := hs.outputs_lt _ ho
        have hlt := Nat.lt_of_lt_of_le ho' h.extends_start.length_le
        exact Or.inl (hinj _ i hlt hi (hold _ ho') ▸ ho)
      · have hk' := (List.getElem?_eq_some_iff.mp hcommand).1
        obtain ⟨_, j, -, hj, hlt, -⟩ := h.result t k ((hdone t).symm ▸ hk')
        have hsame := Except.ok.inj (Option.some.inj ((hreturned t k j hj).symm.trans hk))
        exact Or.inr ⟨t, k, ref, hcommand, hinj j i hlt hi hsame ▸ hj⟩
    · rintro (ho | ⟨t, k, ref, hcommand, hk⟩)
      · exact Or.inl ((hold i (hs.outputs_lt i ho)).symm ▸ ho)
      · exact Or.inr ⟨t, k, ref, hcommand, hreturned t k i hk⟩

end System

end Graphed
