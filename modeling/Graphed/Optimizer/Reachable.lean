import Graphed.Core.Interleaving
import Graphed.Core.RoundTrip
import Graphed.Optimizer.Proof.Incremental
import Graphed.Optimizer.Proof.Pipeline
import Graphed.Optimizer.Proof.Reintern

/-!
# Reachable stores

Every store the library can hand out, whichever calls made it: recording, marking, reducing in one
shot or incrementally, taking a cone, reading bytes. All of them keep the store's invariant, and the
stages they hold refer to earlier members only. So what threads do with such a store from there on
keeps the invariant too, and what it holds can be written and read back.
-/

namespace Graphed

open FirstSeen GraphStore

/-- A store or an incremental reducer. -/
inductive Object where
  | store (s : GraphStore)
  | reducer (r : IncrementalReducer)

/-- What the library's calls can build. -/
inductive Built : Object → Prop
  | new : Built (.store .new)
  | record {s : GraphStore} (call : Recording) :
      Built (.store s) → Built (.store (call.run s).2)
  | mark {s : GraphStore} (id : Nat) : Built (.store s) → Built (.store (s.markOutput id).2)
  | reduceWith {s : GraphStore} (engine : EggEngine) (mode : FusionMode) :
      Built (.store s) → Built (.store (s.reduceWith engine mode).1)
  | reduceWithOutputs {s : GraphStore} {outputs : List Nat} {engine : EggEngine}
      {mode : FusionMode} {r : GraphStore × ReductionReport} : Built (.store s) →
      s.reduceWithOutputs outputs engine mode = .ok r → Built (.store r.1)
  | cone {s t : GraphStore} {outputs : List Nat} : Built (.store s) → s.cone outputs = .ok t →
      Built (.store t)
  | deserialize {data : List UInt8} {s : GraphStore} : deserialize data = .ok s →
      Built (.store s)
  | reducer : Built (.reducer .new)
  | step {s : GraphStore} {r : IncrementalReducer} : Built (.store s) → Built (.reducer r) →
      Built (.reducer (r.step (s.snapshotFrom r.watermark)).2)
  | finalize {r : IncrementalReducer} {outputs : List Nat} {engine : EggEngine}
      {mode : FusionMode} {red : Reduced} : Built (.reducer r) →
      r.finalize outputs engine mode = .ok red → Built (.store (fromReduced red).1)

/-! ### Reduced graphs are writable -/

theorem membersEarlier_default : MembersEarlier (default : NodeKey).members := by
  intro m op hm
  exact absurd hm (by simp [default, NodeKey.members])

theorem membersEarlier_template {keys : List NodeKey} (h : ∀ k ∈ keys, MembersEarlier k.members)
    (token : String) : MembersEarlier (template keys token).members := by
  unfold template
  cases hfind : keys.find? fun k => k.token == token with
  | none => exact membersEarlier_default
  | some k => exact h k (List.mem_of_find?_eq_some hfind)

/-- A rebuilt stage's members read slots or members before them. -/
theorem membersEarlier_componentNode {g : EngineGraph} {comp ids : List Nat}
    (hplan : FusionPlan g comp) (hg : g.Topological) {keys : List NodeKey}
    (hkeys : ∀ k ∈ keys, MembersEarlier k.members) (c : Nat) :
    MembersEarlier (componentNode g keys comp ids c).members := by
  unfold componentNode
  split_ifs
  · rw [NodeKey.members_withInputs]
    exact membersEarlier_template hkeys _
  · rw [fuseStage_eq]
    intro m op hop r hr
    rw [NodeKey.members, List.getElem?_map, Option.map_eq_some_iff] at hop
    obtain ⟨i, hi, rfl⟩ := hop
    obtain ⟨x, hx, rfl⟩ := List.mem_map.mp hr
    unfold refOf
    split_ifs with hmem
    · -- an input is below the operator that reads it, so it comes before it
      obtain ⟨hm, rfl⟩ := List.getElem?_eq_some_iff.mp hi
      have hlt := (mem_membersOf.mp (List.getElem_mem hm)).1
      rw [hplan.length_eq] at hlt
      rw [nodeAt_eq (List.getElem?_eq_getElem hlt)] at hx
      have hxi := hg.inputs_lt _ _ (List.getElem?_eq_getElem hlt) x hx
      change (membersOf comp c).idxOf x < m
      by_contra hge
      have hxlt := List.idxOf_lt_length_of_mem hmem
      rcases Nat.eq_or_lt_of_le (Nat.not_lt.mp hge) with heq | hlt'
      · have hval := List.getElem_idxOf hxlt
        simp only [← heq] at hval
        omega
      · have hpairwise : (membersOf comp c).Pairwise (· < ·) := pairwise_membersOf c
        have hpair := List.pairwise_iff_getElem.mp hpairwise m _ hm hxlt hlt'
        rw [List.getElem_idxOf] at hpair
        omega
    · exact trivial

theorem membersEarlier_keptKeys {nodes : List NodeKey} (htopo : TopologicalKeys nodes)
    (h : ∀ k ∈ nodes, MembersEarlier k.members) (swap : Option (List Bool)) (outputs : List Nat) :
    ∀ k ∈ keptKeys htopo swap outputs, MembersEarlier k.members := by
  intro k hk
  obtain ⟨i, -, rfl⟩ := List.mem_map.mp hk
  rw [keptKey, NodeKey.members_withInputs, List.getD_eq_getElem?_getD]
  cases hkey : nodes[i]? with
  | none => exact membersEarlier_default
  | some key => exact h key (List.mem_of_getElem? hkey)

/-- Rebuilding a topological reduced graph gives a writable store. -/
theorem fromReduced_writable {red : Reduced} (htopo : TopologicalKeys red.nodes)
    (houts : ∀ o ∈ red.outputs, o < red.nodes.length)
    (hmembers : ∀ k ∈ red.nodes, MembersEarlier k.members) : (fromReduced red).1.Writable := by
  obtain ⟨hinterned, hnumbering, hlen, hnode, -, -⟩ := fromReduced_spec htopo houts
  refine ⟨hinterned, fun k hk => ?_⟩
  obtain ⟨c, hc⟩ := List.mem_iff_getElem?.mp hk
  have hmem := hnumbering.mem_iff.mpr (List.getElem?_eq_some_iff.mp hc).1
  have hfirst : (reinternMap red).idxOf c < red.nodes.length :=
    hlen ▸ List.idxOf_lt_length_of_mem hmem
  obtain ⟨k', hk', hcanon, -⟩ := hnode _ _ (List.getElem?_eq_getElem hfirst)
  rw [getD_idxOf hmem, hc, Option.some.injEq] at hk'
  rw [hk', ← NodeKey.members_canon, hcanon, NodeKey.members_canon, NodeKey.members_withInputs]
  exact hmembers _ (List.getElem_mem hfirst)

/-- The pipeline's result is writable, whatever classes the engine finds. -/
theorem reduceOriented_writable {nodes : List NodeKey} (htopo : TopologicalKeys nodes)
    (hmembers : ∀ k ∈ nodes, MembersEarlier k.members) {swap : Option (List Bool)}
    (hpairs : SwapsPairs nodes swap) {outputs : List Nat}
    (houtputs : ∀ o ∈ outputs, o < nodes.length) (engine : EggEngine) (mode : FusionMode) :
    TopologicalKeys (reduceOriented nodes outputs swap engine mode).nodes ∧
      (∀ o ∈ (reduceOriented nodes outputs swap engine mode).outputs,
        o < (reduceOriented nodes outputs swap engine mode).nodes.length) ∧
      ∀ k ∈ (reduceOriented nodes outputs swap engine mode).nodes, MembersEarlier k.members := by
  obtain ⟨hrtopo, hrouts⟩ := reduceOriented_topological htopo engine hpairs houtputs mode
  refine ⟨hrtopo, hrouts, fun k hk => ?_⟩
  have hg : (dedupedGraph htopo swap outputs engine).Topological :=
    deduped_topological htopo engine hpairs
  rw [(reduceOriented_eq htopo engine hpairs houtputs mode).1] at hk
  obtain ⟨c, -, rfl⟩ := List.mem_map.mp hk
  exact membersEarlier_componentNode (mode.plan hg) hg
    (membersEarlier_keptKeys htopo hmembers swap outputs) c

/-! ### The invariant -/

/-- What every object keeps. -/
def Object.Good : Object → Prop
  | store s => s.Writable
  | reducer r => r.Consistent ∧ ∀ k ∈ r.canonNodes, MembersEarlier k.members

theorem membersEarlier_recording (call : Recording) : MembersEarlier call.key.members := by
  intro m op hm
  cases call <;> exact absurd hm (by simp [Recording.key, NodeKey.members])

theorem GraphStore.Writable.run {s : GraphStore} (hs : s.Writable) (call : Recording) :
    (call.run s).2.Writable := by
  rw [call.run_eq_intern]
  refine ⟨hs.interned.intern call.key, fun k hk => ?_⟩
  rcases s.intern_cases call.key with ⟨_, _, _, h⟩ | ⟨_, ⟨_, _, h⟩ | ⟨_, h⟩⟩ <;> rw [h] at hk
  · exact hs.members k hk
  · exact hs.members k hk
  · rcases List.mem_append.mp hk with hk | hk
    · exact hs.members k hk
    · rw [List.mem_singleton.mp hk]
      exact membersEarlier_recording call

theorem GraphStore.Writable.reduceWithMode {s : GraphStore} (hs : s.Writable) {outputs : List Nat}
    (houtputs : ∀ o ∈ outputs, o < s.nodes.length) (engine : EggEngine) (mode : FusionMode) :
    (fromReduced (reduceWithMode s.nodes outputs engine mode)).1.Writable := by
  obtain ⟨htopo, houts, hmembers⟩ := reduceOriented_writable hs.interned.inputs_lt hs.members
    (swapsPairs_symmetricSwaps s.nodes) houtputs engine mode
  exact fromReduced_writable htopo houts hmembers

theorem GraphStore.Writable.cone {s t : GraphStore} (hs : s.Writable) {outputs : List Nat}
    (h : s.cone outputs = .ok t) : t.Writable := by
  unfold GraphStore.cone at h
  cases hheld : s.arenaHolding outputs with
  | error bad => simp [hheld] at h
  | ok nodes =>
      obtain ⟨rfl, houtputs⟩ := arenaHolding_eq_ok.mp hheld
      have htopo := hs.interned.inputs_lt
      have hpairs := swapsPairs_none s.nodes
      obtain rfl : (fromReduced _).1 = t := by simpa [hheld] using h
      rw [deadCodeElimination_eq htopo hpairs houtputs]
      have hkept : (keptGraph htopo none outputs).Topological := keptGraph_topological htopo hpairs
      refine fromReduced_writable (fun i key hkey x hx => ?_) (fun o ho => ?_)
        (membersEarlier_keptKeys htopo hs.members none outputs)
      · refine hkept.inputs_lt i ⟨key.token, key.isBoundary, key.inputs⟩ ?_ x hx
        rw [keptGraph, getElem?_toEngineGraph]
        exact congrArg (Option.map _) hkey
      · have hlt := hkept.outputs_lt o ho
        rw [length_keptGraph] at hlt
        simpa using hlt

theorem IncrementalReducer.finalize_writable {r : IncrementalReducer} (hr : r.Consistent)
    (hmembers : ∀ k ∈ r.canonNodes, MembersEarlier k.members) {outputs : List Nat}
    {engine : EggEngine} {mode : FusionMode} {red : Reduced}
    (h : r.finalize outputs engine mode = .ok red) : (fromReduced red).1.Writable := by
  unfold finalize at h
  cases hbad : outputs.find? fun o => decide (r.map.length ≤ o) with
  | some bad => simp [hbad] at h
  | none =>
      have hvalid : ∀ o ∈ outputs, o < r.map.length := by simpa using hbad
      have houtputs : ∀ o ∈ outputs.map (r.map.getD · 0), o < r.canonNodes.length := by
        intro o ho
        obtain ⟨x, hx, rfl⟩ := List.mem_map.mp ho
        rw [getD_eq_getElem (hvalid x hx)]
        exact hr.map_lt _ (List.getElem_mem _)
      obtain ⟨htopo, houts, hred⟩ := reduceOriented_writable hr.interned.inputs_lt hmembers
        (swapsPairs_none r.canonNodes) houtputs engine mode
      obtain rfl := by simpa only [hbad, Except.ok.injEq] using h
      exact fromReduced_writable htopo houts hred

theorem Built.good {o : Object} (h : Built o) : o.Good := by
  induction h with
  | new => exact ⟨interned_new, by simp [GraphStore.new]⟩
  | record call _ ih => exact GraphStore.Writable.run ih call
  | mark id _ ih =>
      exact ⟨ih.interned.markOutput id, fun k hk => ih.members k (by
        rwa [nodes_markOutput] at hk)⟩
  | reduceWith engine mode _ ih =>
      exact GraphStore.Writable.reduceWithMode ih ih.interned.outputs_lt engine mode
  | reduceWithOutputs _ hr ih =>
      obtain ⟨houtputs, rfl⟩ := reduceWithOutputs_eq_ok.mp hr
      exact GraphStore.Writable.reduceWithMode ih houtputs _ _
  | cone _ hr ih => exact GraphStore.Writable.cone ih hr
  | deserialize hd =>
      obtain ⟨b, hb, -, hbuild⟩ := deserialize_eq_ok.mp hd
      obtain ⟨hinterned, -, hsub, -⟩ := Blob.build_eq_ok hbuild
      refine ⟨hinterned, fun k hk => ?_⟩
      obtain ⟨w, hw, rfl⟩ := List.mem_map.mp (hsub k hk)
      exact (hb.mem hw).members
  | reducer => exact ⟨IncrementalReducer.consistent_new, by simp [IncrementalReducer.new]⟩
  | @step s r _ _ ihs ihr =>
      obtain ⟨hcons, hsub⟩ := IncrementalReducer.step_consistent ihr.1 (s.snapshotFrom r.watermark)
      refine ⟨hcons, fun k hk => ?_⟩
      rcases hsub k hk with hk | ⟨key, hkey, ins, rfl⟩
      · exact ihr.2 k hk
      · rw [NodeKey.members_withInputs]
        exact ihs.members key (List.mem_of_mem_drop hkey)
  | finalize _ hr ih => exact IncrementalReducer.finalize_writable ih.1 ih.2 hr

/-- **Encode then decode, for every reachable store.** Bytes that were written read back as the same
arena and outputs and are written again as they were; writing fails only at a length or an index
that does not fit a `u32` field. -/
theorem roundTrip_of_built {s : GraphStore} (hs : Built (.store s)) {outputs : List Nat}
    (hnodup : outputs.Nodup) (hvalid : ∀ o ∈ outputs, o < s.nodes.length) :
    (∀ b, serializeWith s outputs = .ok b → ∃ t, deserialize b = .ok t ∧ t.nodes = s.nodes ∧
      t.outputs = outputs ∧ serialize t = .ok b) ∧
    ∀ e, serializeWith s outputs = .error e →
      e.n ∈ storeFields s outputs ∧ 2 ^ 32 ≤ e.n :=
  ⟨fun _ h => deserialize_serializeWith hs.good hnodup hvalid h, fun _ h => serializeWith_eq_error h⟩

theorem built_record (calls : List Recording) : Built (.store (record calls)) := by
  induction calls using List.reverseRecOn with
  | nil => exact Built.new
  | append_singleton calls call ih =>
      rw [record, List.foldl_append]
      exact Built.record call ih

theorem roundTrip_of_built_op :
    (∀ b, serializeWith (record [.source "x" (.new []), .op "f" [0, 0] (.new [])]) [1] = .ok b →
      ∃ t, deserialize b = .ok t ∧
        t.nodes = (record [.source "x" (.new []), .op "f" [0, 0] (.new [])]).nodes ∧
          t.outputs = [1] ∧ serialize t = .ok b) ∧
    ∀ e, serializeWith (record [.source "x" (.new []), .op "f" [0, 0] (.new [])]) [1] =
      .error e → e.n ∈ storeFields (record [.source "x" (.new []), .op "f" [0, 0] (.new [])]) [1] ∧
        2 ^ 32 ≤ e.n :=
  roundTrip_of_built (built_record _) (by simp) (by decide)

/-! ### Threads -/

/-- A turn of a thread is a call of the library. -/
theorem Built.exec {s s' : GraphStore} (hs : Built (.store s)) {returned : Returned}
    {command : Command} {res : Except BadNodeId Nat}
    (h : command.exec s returned = some (res, s')) : Built (.store s') := by
  cases command with
  | record call refs =>
      rw [Command.exec, Option.map_eq_some_iff] at h
      obtain ⟨ins, -, hrun⟩ := h
      obtain rfl := congrArg Prod.snd hrun
      exact hs.record _
  | mark ref =>
      rw [Command.exec, Option.map_eq_some_iff] at h
      obtain ⟨i, -, hrun⟩ := h
      obtain rfl := congrArg Prod.snd hrun
      exact hs.mark i

theorem Built.run (programs : Nat → List Command) {sys : System} (hs : Built (.store sys.store))
    (schedule : List Nat) : Built (.store (sys.run programs schedule).store) := by
  induction schedule generalizing sys with
  | nil => exact hs
  | cons t schedule ih =>
      rw [System.run, List.foldl_cons]
      refine ih ?_
      unfold System.step
      cases (programs t)[(sys.returned t).length]? with
      | none => exact hs
      | some command =>
          dsimp only
          cases hexec : command.exec sys.store sys.returned with
          | none => exact hs
          | some next => exact hs.exec hexec

/-- **The interned store under any interleaving.** Threads run programs over a store the library
built, in any order. In every state they reach the store keeps its invariant, an id keeps its key
from then on, a call returns an id of its own key, and a call with an id the store does not hold is
refused and changes nothing. Programs over the store's ids and returned ids, run to their end in two
orders, give stores that are one up to a renumbering, which takes what one run returned to what the
other did. -/
theorem interned_of_built {s : GraphStore} (hs : Built (.store s))
    (programs : Nat → List Command) :
    (∀ (schedule : List Nat) (t : GraphStore),
      t = ((System.start s).run programs schedule).store →
      t.Interned ∧
      (∀ more : List Nat,
        t.nodes <+: ((System.start s).run programs (schedule ++ more)).store.nodes) ∧
      (∀ (call : Recording) (id : Nat), (call.run t).1 = .ok id →
        ∃ key, (call.run t).2.nodes[id]? = some key ∧ (key == call.key) = true) ∧
      (∀ call : Recording, (∃ i ∈ call.key.inputs, t.nodes.length ≤ i) →
        ∃ bad ∈ call.key.inputs, t.nodes.length ≤ bad ∧ call.run t = (.error ⟨bad⟩, t)) ∧
      ∀ i : Nat, t.nodes.length ≤ i → t.markOutput i = (.error ⟨i⟩, t)) ∧
    (ClosedPrograms s.nodes.length programs → ∀ schedule schedule' : List Nat,
      ((System.start s).run programs schedule).Complete programs →
      ((System.start s).run programs schedule').Complete programs →
      ∃ f : Nat → Nat, Renumbers f ((System.start s).run programs schedule).store
          ((System.start s).run programs schedule').store ∧
        (∀ i < s.nodes.length, f i = i) ∧
        ∀ (t k i : Nat),
          (((System.start s).run programs schedule).returned t)[k]? = some (.ok i) →
          (((System.start s).run programs schedule').returned t)[k]? = some (.ok (f i))) := by
  refine ⟨fun schedule t ht => ?_, fun hclosed schedule schedule' hdone hdone' =>
    System.renumbers hs.good.interned hclosed hdone hdone'⟩
  have hinterned : t.Interned := ht ▸ (Built.run programs hs schedule).good.interned
  refine ⟨hinterned, fun more => ?_, fun call id hid => ?_, ?_, fun i => markOutput_of_bad⟩
  · rw [System.run, List.foldl_append, ht]
    exact (System.run_spec programs (ht ▸ hinterned) more).2
  · rw [call.run_eq_intern] at hid ⊢
    exact hinterned.intern_key hid
  · rintro call ⟨i, hi, hbad⟩
    exact Recording.run_of_bad hi hbad

/-- Two threads that record a source each, and an operator on both. -/
def twoThreads : Nat → List Command
  | 0 => [.record (.source "x" (.new [])) [],
      .record (.op "f" [] (.new [])) [.result 0 0, .result 1 0]]
  | 1 => [.record (.source "y" (.new [])) [], .mark (.result 0 1)]
  | _ => []

theorem interned_of_built_twoThreads :
    ∃ f : Nat → Nat, Renumbers f ((System.start .new).run twoThreads [0, 1, 0, 1]).store
        ((System.start .new).run twoThreads [1, 0, 1, 0, 1]).store ∧
      (∀ i < GraphStore.new.nodes.length, f i = i) ∧
      ∀ (t k i : Nat),
        (((System.start .new).run twoThreads [0, 1, 0, 1]).returned t)[k]? = some (.ok i) →
        (((System.start .new).run twoThreads [1, 0, 1, 0, 1]).returned t)[k]? = some (.ok (f i)) := by
  refine (interned_of_built Built.new twoThreads).2 ?_ _ _ ?_ ?_
  · -- every operand is a returned id
    intro t command hcommand ref href
    rcases t with _ | _ | t <;> simp only [twoThreads, List.mem_cons, List.not_mem_nil, or_false]
      at hcommand
    · rcases hcommand with rfl | rfl
      · exact absurd href (by simp [Command.refs])
      · rcases List.mem_pair.mp href with rfl | rfl <;> exact trivial
    · rcases hcommand with rfl | rfl
      · exact absurd href (by simp [Command.refs])
      · rw [List.mem_singleton.mp href]
        exact trivial
  · rintro (_ | _ | t)
    · decide
    · decide
    · rfl
  · rintro (_ | _ | t)
    · decide
    · decide
    · rfl

end Graphed
