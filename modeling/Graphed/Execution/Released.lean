import Graphed.Execution.Evaluate
import Graphed.Library.BottomUp
import Mathlib.Data.List.Range

/-!
# What is dropped is not read again

The plain evaluation keeps every value. A stage that drops its members after their last use hands
every member the values the plain one does, and so does a graph to its nodes.
-/

namespace Graphed

open Liveness

/-! ### Last consumers -/

theorem mem_lastReads {inputs : List (List Nat)} {i c : Nat} : (i, c) ∈ lastReads inputs ↔
    i ∈ inputs.getD c [] ∧ ∀ later, c < later → i ∉ inputs.getD later [] := by
  have hused : ∀ (used : List Nat) (n : Nat) (last : List (Nat × Nat)),
      (i, c) ∈ used.foldl (fun last i => dictUpdate last [(i, n)]) last ↔
        i ∈ used ∧ c = n ∨ i ∉ used ∧ (i, c) ∈ last := by
    intro used n
    induction used with
    | nil => simp
    | cons j used ih =>
        intro last
        rw [List.foldl_cons, ih, mem_dictUpdate_single]
        simp only [Prod.mk.injEq, List.mem_cons]
        tauto
  induction inputs using List.reverseRecOn with
  | nil => simp [lastReads]
  | append_singleton inputs used ih =>
      have hfold : lastReads (inputs ++ [used]) =
          used.foldl (fun last i => dictUpdate last [(i, inputs.length)]) (lastReads inputs) := by
        unfold lastReads
        rw [List.zipIdx_append, List.foldl_append, List.zipIdx_singleton, Nat.zero_add]
        rfl
      simp only [hfold, hused, ih]
      have hbefore : ∀ k, k < inputs.length →
          (inputs ++ [used]).getD k [] = inputs.getD k [] := by
        intro k hk
        rw [List.getD_eq_getElem?_getD, List.getElem?_append_left hk, ← List.getD_eq_getElem?_getD]
      have hlast : (inputs ++ [used]).getD inputs.length [] = used := by simp
      have hafter : ∀ (l : List (List Nat)) k, l.length ≤ k → l.getD k [] = [] := by
        intro l k hk
        rw [List.getD_eq_getElem?_getD, List.getElem?_eq_none hk, Option.getD_none]
      constructor
      · rintro (⟨hmem, rfl⟩ | ⟨hnot, hmem, hlater⟩)
        · refine ⟨by rwa [hlast], fun later h => ?_⟩
          rw [hafter _ _ (by simpa using Nat.succ_le_of_lt h)]
          exact List.not_mem_nil
        · have hc : c < inputs.length := by
            by_contra hge
            rw [hafter _ _ (Nat.le_of_not_lt hge)] at hmem
            cases hmem
          refine ⟨by rwa [hbefore c hc], fun later h => ?_⟩
          rcases Nat.lt_trichotomy later inputs.length with hlt | rfl | hgt
          · rw [hbefore later hlt]
            exact hlater later h
          · rwa [hlast]
          · rw [hafter _ _ (by simpa using Nat.succ_le_of_lt hgt)]
            exact List.not_mem_nil
      · rintro ⟨hmem, hlater⟩
        rcases Nat.lt_trichotomy c inputs.length with hlt | rfl | hgt
        · rw [hbefore c hlt] at hmem
          have hnot := hlater inputs.length hlt
          rw [hlast] at hnot
          refine Or.inr ⟨hnot, hmem, fun later h => ?_⟩
          rcases Nat.lt_or_ge later inputs.length with hl | hl
          · rw [← hbefore later hl]
            exact hlater later h
          · rw [hafter _ _ hl]
            exact List.not_mem_nil
        · rw [hlast] at hmem
          exact Or.inl ⟨hmem, rfl⟩
        · rw [hafter _ _ (by simpa using Nat.succ_le_of_lt hgt)] at hmem
          cases hmem

theorem mem_lastConsumers {inputs : List (List Nat)} {keep : List Nat} {i c : Nat} :
    i ∈ ((lastConsumers inputs keep).lookup c).getD [] ↔ i ∉ keep ∧ (i, c) ∈ lastReads inputs := by
  have hfold : ∀ (items : List (Nat × Nat)) (out : List (Nat × List Nat)),
      i ∈ ((items.foldl (fun out item =>
        if item.1 ∈ keep then out
        else dictUpdate out [(item.2, (out.lookup item.2).getD [] ++ [item.1])]) out).lookup
          c).getD [] ↔ i ∈ (out.lookup c).getD [] ∨ i ∉ keep ∧ (i, c) ∈ items := by
    intro items
    induction items with
    | nil => simp
    | cons item items ih =>
        intro out
        rw [List.foldl_cons, ih]
        by_cases hkeep : item.1 ∈ keep
        · rw [if_pos hkeep, List.mem_cons]
          have hne : i ∉ keep → (i, c) ≠ item := by
            rintro hi rfl
            exact hi hkeep
          tauto
        · rw [if_neg hkeep, lookup_dictUpdate, List.mem_cons]
          by_cases hc : c = item.2
          · subst hc
            have hmem : i ∈ ((([(item.2, (out.lookup item.2).getD [] ++ [item.1])] :
                List (Nat × List Nat)).lookup item.2).or (out.lookup item.2)).getD [] ↔
                i ∈ (out.lookup item.2).getD [] ∨ i = item.1 := by
              simp
            have heq : (i, item.2) = item ↔ i = item.1 := by simp [Prod.ext_iff]
            rw [hmem, heq]
            have hkeep' : i = item.1 → i ∉ keep := fun h => h ▸ hkeep
            tauto
          · have hne : (c == item.2) = false := by simpa using hc
            have heq : (i, c) ≠ item := fun h => hc (by rw [← h])
            simp only [List.lookup_cons, hne, List.lookup_nil, Option.none_or]
            tauto
  rw [lastConsumers, hfold]
  simp

/-- What a consumer drops is not needed after it. -/
theorem not_stillRead_of_mem_lastConsumers {inputs : List (List Nat)} {keep : List Nat} {i c : Nat}
    (h : i ∈ ((lastConsumers inputs keep).lookup c).getD []) : ¬StillRead inputs keep (c + 1) i := by
  obtain ⟨hkeep, hlast⟩ := mem_lastConsumers.mp h
  rintro (hmem | ⟨later, hlater, hmem⟩)
  · exact hkeep hmem
  · exact (mem_lastReads.mp hlast).2 later hlater hmem

/-! ### The plain evaluation -/

namespace Evaluator

variable {V ε : Type} (E : Evaluator V ε) (chunked : Bool)

/-- One member with all earlier members' values. -/
def plainTurn (nid : Nat) (ins : List (Option V)) (vals : List V) (m : StageMember × Nat) :
    Except ε (List V) := do
  let mins := m.1.inputs.map (memberOperand ins (vals.map some))
  let v ← E.dispatch (nid, some m.2) m.1.name mins (E.evaluate chunked m.1.name mins m.1.params)
  pure (vals ++ [v])

/-- A stage is worth its last member. -/
def plainStage (nid : Nat) (members : List StageMember) (ins : List (Option V)) : Except ε V := do
  let vals ← members.zipIdx.foldlM (E.plainTurn chunked nid ins) []
  vals.getLast?.elim (.error (E.unknownKind "stage")) .ok

/-- A node on the values of its inputs. -/
def plainNode (nid : Nat) (nd : IrNode) (ins : List V) : Except ε V :=
  match nd with
  | .stage _ members => E.plainStage chunked nid members (ins.map some)
  | nd => E.evaluateSingle chunked nid nd (ins.map some)

/-- What every node is worth: what it is given, or its evaluation on what its inputs are worth. -/
def plainValues (nodes : List IrNode) (given : List (Nat × V)) : List (Except ε V) :=
  BottomUp.results (fun nd : IrNode × Nat => nd.1.inputs)
    (fun nd ins => (given.lookup nd.2).elim (ins.mapM id >>= E.plainNode chunked nd.2 nd.1) .ok)
    (.error (E.unknownKind "")) nodes.zipIdx

def plainValue (nodes : List IrNode) (given : List (Nat × V)) (nid : Nat) : Except ε V :=
  (E.plainValues chunked nodes given).getD nid (.error (E.unknownKind ""))

end Evaluator

/-- A reference inside a stage of so many slots, from the member at `index`. -/
def StageRef.Within (slots index : Nat) : StageRef → Prop
  | .input i => i < slots
  | .member i => i < index

instance (slots index : Nat) : DecidablePred (StageRef.Within slots index)
  | .input i => inferInstanceAs (Decidable (i < slots))
  | .member i => inferInstanceAs (Decidable (i < index))

/-- Inputs are earlier nodes; a stage has a member, and its members refer to its slots and to
earlier members. -/
structure WellFormedIr (nodes : List IrNode) : Prop where
  topological : BottomUp.Topological IrNode.inputs nodes
  nonempty : ∀ ins members, .stage ins members ∈ nodes → members ≠ []
  within : ∀ ins members, .stage ins members ∈ nodes → ∀ (i : Nat) (m : StageMember),
    members[i]? = some m → ∀ ref ∈ m.inputs, ref.Within ins.length i

namespace Evaluator

variable {V ε : Type} {E : Evaluator V ε} {chunked : Bool}

/-! ### Stages -/

section Stage

variable {nid : Nat} {members : List StageMember} {ins : List (Option V)}

theorem mem_memberInputs {m : StageMember} {i : Nat} :
    i ∈ memberInputs m ↔ .member i ∈ m.inputs := by
  unfold memberInputs
  rw [List.mem_filterMap]
  constructor
  · rintro ⟨ref, href, heq⟩
    cases ref with
    | input j => cases heq
    | member j =>
        obtain rfl := Option.some.inj heq
        exact href
  · exact fun h => ⟨_, h, rfl⟩

/-- Slots that hold the earlier members' values hand a member what it reads. -/
theorem memberOperand_of_holds {keep : List Nat} {c : Nat} {m : StageMember}
    (hm : members[c]? = some m) {vals : List V} {slots : List (Option V)}
    (hholds : Retains (members.map memberInputs) keep (vals[·]?) c slots)
    (hwithin : ∀ ref ∈ m.inputs, ref.Within ins.length c) :
    m.inputs.map (memberOperand ins slots) = m.inputs.map (memberOperand ins (vals.map some)) := by
  refine List.map_congr_left fun ref href => ?_
  cases ref with
  | input i => rfl
  | member i =>
      have hread : i ∈ (members.map memberInputs).getD c [] := by
        rw [List.getD_eq_getElem?_getD, List.getElem?_map, hm]
        exact mem_memberInputs.mpr href
      change slots.getD i none = (vals.map some).getD i none
      rw [hholds.read hread (hwithin _ href), List.getD_eq_getElem?_getD, List.getElem?_map]
      cases vals[i]? <;> rfl

theorem memberOperand_isSome {vals : List V} {m : StageMember}
    (hins : ∀ x ∈ ins, x.isSome = true)
    (hwithin : ∀ ref ∈ m.inputs, ref.Within ins.length vals.length) :
    ∀ x ∈ m.inputs.map (memberOperand ins (vals.map some)), x.isSome = true := by
  intro x hx
  obtain ⟨ref, href, rfl⟩ := List.mem_map.mp hx
  cases ref with
  | input i =>
      have hi : i < ins.length := hwithin _ href
      change (ins.getD i none).isSome = true
      rw [List.getD_eq_getElem?_getD, List.getElem?_eq_getElem hi]
      exact hins _ (List.getElem_mem hi)
  | member i =>
      have hi : i < (vals.map some).length := by
        rw [List.length_map]
        exact hwithin _ href
      change ((vals.map some).getD i none).isSome = true
      rw [List.getD_eq_getElem?_getD, List.getElem?_eq_getElem hi, List.getElem_map]
      rfl

/-- The reading of a stage member: handed values only. -/
def MemberReading (nid : Nat) (r : Reading V) : Prop :=
  (∃ index, r.address = (nid, some index)) ∧ ∀ x ∈ r.operands, x.isSome = true

/-- Members up to some point, dropping and not: they fail alike, or the slots that are needed later
hold the values. -/
structure InStep (members : List StageMember) (nid n : Nat)
    (run : Traced (Reading V) ε (List (Option V))) (plain : Except ε (List V)) : Prop where
  log : ∀ r ∈ run.log, MemberReading nid r
  result : (∃ e, run.result = .error e ∧ plain = .error e) ∨ ∃ vals slots, plain = .ok vals ∧
    run.result = .ok slots ∧ vals.length = n ∧
    Retains (members.map memberInputs) [members.length - 1] (vals[·]?) n slots

theorem inStep_turn (E : Evaluator V ε) (chunked : Bool) (nid : Nat) {n : Nat}
    {m : StageMember} (hm : members[n]? = some m) {vals : List V}
    {slots : List (Option V)} (hlength : vals.length = n)
    (hholds : Retains (members.map memberInputs) [members.length - 1] (vals[·]?) n slots)
    (hwithin : ∀ ref ∈ m.inputs, ref.Within ins.length n) (hins : ∀ x ∈ ins, x.isSome = true) :
    InStep members nid (n + 1)
      (E.memberTurn chunked nid ins
        (lastConsumers (members.map memberInputs) [members.length - 1]) slots (m, n))
      (E.plainTurn chunked nid ins vals (m, n)) := by
  have hoperands := memberOperand_of_holds hm hholds hwithin
  have hsome := memberOperand_isSome hins (by rwa [hlength])
  unfold memberTurn plainTurn
  simp only [hoperands]
  cases hv : E.dispatch (nid, some n) m.name (m.inputs.map (memberOperand ins (vals.map some)))
      (E.evaluate chunked m.name (m.inputs.map (memberOperand ins (vals.map some))) m.params) with
  | error e =>
      refine ⟨?_, Or.inl ⟨e, rfl, rfl⟩⟩
      intro r hr
      obtain rfl := List.mem_singleton.mp hr
      exact ⟨⟨n, rfl⟩, hsome⟩
  | ok v =>
      refine ⟨?_, Or.inr ⟨vals ++ [v], _, rfl, rfl, by simp [hlength], ?_⟩⟩
      · intro r hr
        obtain rfl := List.mem_singleton.mp hr
        exact ⟨⟨n, rfl⟩, hsome⟩
      · have hgrown : Retains (members.map memberInputs) [members.length - 1]
            ((vals ++ [v])[·]?) n slots :=
          hholds.congr fun i hi => (List.getElem?_append_left (by rwa [hlength])).symm
        exact hgrown.advance (fun _ => by simp [← hlength])
          fun i hi => not_stillRead_of_mem_lastConsumers hi

theorem inStep_prefix (E : Evaluator V ε) (chunked : Bool) (nid : Nat)
    (hwithin : ∀ (i : Nat) (m : StageMember), members[i]? = some m →
      ∀ ref ∈ m.inputs, ref.Within ins.length i)
    (hins : ∀ x ∈ ins, x.isSome = true)
    {done : List StageMember} (hdone : done <+: members) :
    InStep members nid done.length
      (done.zipIdx.foldlM (E.memberTurn chunked nid ins
        (lastConsumers (members.map memberInputs) [members.length - 1])) [])
      (done.zipIdx.foldlM (E.plainTurn chunked nid ins) []) := by
  induction done using List.reverseRecOn with
  | nil => exact ⟨by simp, Or.inr ⟨[], [], rfl, rfl, rfl, holds_start⟩⟩
  | append_singleton done m ih =>
      have hm : members[done.length]? = some m := by
        obtain ⟨rest, rfl⟩ := hdone
        simp
      have hsofar := ih ((List.prefix_append done [m]).trans hdone)
      rw [List.zipIdx_append, List.zipIdx_singleton, Nat.zero_add, Traced.foldlM_concat,
        List.foldlM_append, List.length_append, List.length_singleton]
      rcases hsofar.result with ⟨e, hrun, hplain⟩ | ⟨vals, slots, hplain, hrun, hlength, hholds⟩
      · rw [Traced.bind_of_error hrun, hplain]
        exact ⟨hsofar.log, Or.inl ⟨e, rfl, rfl⟩⟩
      · have hturn := inStep_turn E chunked nid hm hlength hholds
          (hwithin _ m hm) hins
        rw [Traced.bind_of_ok hrun, hplain]
        refine ⟨?_, ?_⟩
        · intro r hr
          exact (List.mem_append.mp hr).elim (hsofar.log r) (hturn.log r)
        · have hsingle : ([(m, done.length)].foldlM (E.plainTurn chunked nid ins) vals) =
              E.plainTurn chunked nid ins vals (m, done.length) := by
            rw [List.foldlM_cons]
            cases E.plainTurn chunked nid ins vals (m, done.length) <;> rfl
          rw [← hsingle] at hturn
          exact hturn.result

/-- **A fused stage** reads handed values only and is worth what the plain evaluation says. -/
theorem evaluateStage_plain (hne : members ≠ []) (hwithin : ∀ (i : Nat) (m : StageMember),
      members[i]? = some m → ∀ ref ∈ m.inputs, ref.Within ins.length i)
    (hins : ∀ x ∈ ins, x.isSome = true) :
    (∀ r ∈ (E.evaluateStage chunked nid members ins).log, MemberReading nid r) ∧
      (E.evaluateStage chunked nid members ins).result =
        (E.plainStage chunked nid members ins).map some := by
  have hall := inStep_prefix E chunked nid hwithin hins
    List.prefix_rfl
  unfold evaluateStage plainStage
  rcases hall.result with ⟨e, hrun, hplain⟩ | ⟨vals, slots, hplain, hrun, hlength, hholds⟩
  · rw [Traced.bind_of_error hrun, hplain]
    exact ⟨hall.log, rfl⟩
  · rw [Traced.bind_of_ok hrun, hplain]
    refine ⟨by simpa using hall.log, ?_⟩
    have hpos : members.length - 1 < members.length :=
      Nat.sub_lt (List.length_pos_iff.mpr hne) Nat.one_pos
    have hslot := hholds.slots (members.length - 1) hpos (Or.inl (List.mem_singleton.mpr rfl))
    have hlast : slots.getLast?.getD none = vals[members.length - 1]? := by
      rw [← hslot, List.getLast?_eq_getElem?, hholds.length, List.getD_eq_getElem?_getD]
    have hvals : vals.getLast? = vals[members.length - 1]? := by
      rw [List.getLast?_eq_getElem?, hlength]
    change Except.ok (slots.getLast?.getD none) =
      (vals.getLast?.elim (.error (E.unknownKind "stage")) .ok : Except ε V).map some
    rw [hlast, hvals, List.getElem?_eq_getElem (by rwa [hlength])]
    rfl

end Stage

end Evaluator

end Graphed
