import Graphed.Systematics.Lineage

/-!
# Re-indexing a value to a context

A value read at a context is carried down the links of the lineage, each mask applied label by
label. Recording a selection unifies the handles of its operands, so a walk needs the nodes it
records and, at every label, handles that meet on one ancestry chain.
-/

namespace Graphed

open Attempts Descent

/-- How re-indexing refuses. -/
inductive HandleError (E : Type) where
  | recording (error : E)
  | divergent (best handle : Nat)
  | contextFree (handle : Nat)
  | descendant (handle ctx : Nat)
  | noPath (handle ctx : Nat)

namespace ContextTree

variable {N E : Type} (tree : ContextTree N) (registry : PointRegistry)
  (select : N → N → Except E N)

def merged (a b : Option Nat) : Except (HandleError E) (Option Nat) :=
  (tree.unifyContexts [a, b]).mapError fun pair => .divergent pair.1 pair.2

/-- `item[mask]`: the recorded node, under the unified handle. -/
def selecting : Verb (HandleError E) (HandledArray N) (Option Nat) where
  record item mask := do
    let node ← (select item.node mask.node).mapError .recording
    let handle ← tree.merged item.handle mask.handle
    .ok ⟨node, handle⟩
  merge := tree.merged
  contextOf := HandledArray.handle

end ContextTree

/-- The handle a value was read through; of a container, its own. -/
def contextOf {N : Type} : HandledValue N → Option Nat
  | .array array => array.handle
  | .varied _ context => context

/-- Stamp a handle on a value, leaving its nodes alone. -/
def withContext {N : Type} (ctx : Option Nat) (value : HandledValue N) : HandledValue N :=
  value.map (fun array => ⟨array.node, ctx⟩) fun _ => ctx

namespace ContextTree

variable {N E : Type} (tree : ContextTree N) (registry : PointRegistry)
  (select : N → N → Except E N)

/-- Where the walk starts: the handle, or the row space above a run of `vary` links. -/
def startOf (handle ctx : Nat) : Except (HandleError E) Nat :=
  if tree.isAncestor handle ctx then .ok handle
  else
    match tree.rowSpaceAbove handle ctx with
    | some above => .ok above
    | none =>
        if tree.isAncestor ctx handle then .error (.descendant handle ctx)
        else .error (.noPath handle ctx)

/-- A value re-expressed in a context's row space. -/
def reindexTo (value : HandledValue N) (ctx : Option Nat) :
    Except (HandleError E) (HandledValue N) :=
  match contextOf value, ctx with
  | none, _ => .ok value
  | some handle, none => .error (.contextFree handle)
  | some handle, some ctx =>
      if handle = ctx then .ok value
      else do
        let start ← tree.startOf handle ctx
        let value ← (tree.selecting select).followAll registry value (tree.linksBelow ctx start)
        .ok (withContext (some ctx) value)

end ContextTree

/-! ### The nodes of a walk, and its handles -/

/-- The nodes of a value. -/
def nodesOf {N : Type} (value : HandledValue N) : Broadcast N Unit :=
  value.map HandledArray.node fun _ => ()

/-- What a re-indexing recorded, `none` where it was refused. -/
def recordedBy {N E : Type} (answer : Except E (HandledValue N)) : Option (Broadcast N Unit) :=
  answer.toOption.map nodesOf

/-- The handles of a value, at every label. -/
def handlesOf {N : Type} (value : HandledValue N) : Broadcast (List Nat) (List Nat) :=
  value.map (fun array => array.handle.toList) Option.toList

/-- A value of these labels read at one context. -/
def readAt {α κ : Type} (ctx : Nat) (value : Broadcast α κ) : Broadcast (List Nat) (List Nat) :=
  value.map (fun _ => [ctx]) fun _ => [ctx]

/-- A selection, its handles left out. -/
def recordingNodes {N E : Type} (select : N → N → Except E N) : Verb E N Unit where
  record := select
  merge := fun _ _ => .ok ()
  contextOf := fun _ => ()

def nodeLink {N : Type} : LineageLink N → Link N Unit :=
  Link.map HandledArray.node fun _ => ()

def handleLink {N : Type} : LineageLink N → Link (List Nat) (List Nat) :=
  Link.map (fun array => array.handle.toList) Option.toList

namespace ContextTree

variable {N E : Type} (tree : ContextTree N) (registry : PointRegistry)
  (select : N → N → Except E N)

instance (handles : List Nat) : Decidable (OneChain tree.isAncestor handles) :=
  inferInstanceAs (Decidable (∀ a ∈ handles, ∀ b ∈ handles,
    tree.isAncestor a b = true ∨ tree.isAncestor b a = true))

/-- Collect the handles that meet at a label; they must lie on one ancestry chain. -/
def gather (handles others : List Nat) : Except Unit (List Nat) :=
  if OneChain tree.isAncestor (handles ++ others) then .ok (handles ++ others) else .error ()

def meeting : Verb Unit (List Nat) (List Nat) where
  record := tree.gather
  merge := tree.gather
  contextOf := id

/-- The nodes along the links are recorded. -/
def Records (value : HandledValue N) (links : List (LineageLink N)) : Prop :=
  ∃ answer, (recordingNodes select).followAll registry (nodesOf value) (links.map nodeLink) =
    .ok answer

/-- At every label, the handles that meet along the links lie on one ancestry chain. -/
def Meets (handles : Broadcast (List Nat) (List Nat)) (links : List (LineageLink N)) : Prop :=
  ∃ answer, tree.meeting.followAll registry handles (links.map handleLink) = .ok answer

/-- The handles meet along `links`, and then along `rest` when every label starts from `ctx`. -/
def MeetsVia (handles : Broadcast (List Nat) (List Nat)) (links : List (LineageLink N)) (ctx : Nat)
    (rest : List (LineageLink N)) : Prop :=
  ∃ answer, tree.meeting.followAll registry handles (links.map handleLink) = .ok answer ∧
    tree.Meets registry (readAt ctx answer) rest

/-! ### A walk with its handles collected -/

/-- An array with the handles that met in it. -/
structure MetArray where
  array : HandledArray N
  met : List Nat
  unifies : tree.UnifiesTo (met.map some) array.handle

structure MetContext where
  context : Option Nat
  met : List Nat
  unifies : tree.UnifiesTo (met.map some) context

theorem unifiesTo_append {met met' : List Nat} {a b answer : Option Nat}
    (ha : tree.UnifiesTo (met.map some) a) (hb : tree.UnifiesTo (met'.map some) b) :
    tree.UnifiesTo ((met ++ met').map some) answer ↔ tree.UnifiesTo [a, b] answer := by
  have hflat : (met ++ met').map some = [met.map some, met'.map some].flatten := by simp
  rw [hflat, unifiesTo_flatten]
  constructor
  · rintro ⟨answers, hall, hanswer⟩
    cases hall with
    | cons hx hrest =>
        cases hrest with
        | cons hy hnil =>
            cases hnil
            rwa [UnifiesTo.unique tree hx ha, UnifiesTo.unique tree hy hb] at hanswer
  · exact fun h => ⟨[a, b], .cons ha (.cons hb .nil), h⟩

theorem unifiesTo_toList (handle : Option Nat) :
    tree.UnifiesTo (handle.toList.map some) handle := by
  cases handle with
  | none => exact ⟨List.mem_cons_self, fun a ha => absurd ha List.not_mem_nil⟩
  | some h =>
      refine ⟨List.mem_cons_of_mem _ (List.mem_singleton_self _), fun a ha => ⟨h, rfl, ?_⟩⟩
      rw [List.mem_singleton.mp ha |> Option.some.inj]
      exact tree.order_isAncestor.refl h

theorem gather_eq_ok_iff {met met' : List Nat} {a b : Option Nat}
    (ha : tree.UnifiesTo (met.map some) a) (hb : tree.UnifiesTo (met'.map some) b) :
    (∃ answer, tree.gather met met' = .ok answer) ↔ ∃ answer, tree.UnifiesTo [a, b] answer := by
  have hchain : OneChain tree.isAncestor (met ++ met') ↔
      ∃ answer, tree.UnifiesTo [a, b] answer := by
    have hsome : tree.OnOneChain ((met ++ met').map some) ↔
        OneChain tree.isAncestor (met ++ met') := by
      constructor
      · exact fun h x hx y hy => h x y (List.mem_map_of_mem hx) (List.mem_map_of_mem hy)
      · intro h x y hx hy
        obtain ⟨x', hx', hxx⟩ := List.mem_map.mp hx
        obtain ⟨y', hy', hyy⟩ := List.mem_map.mp hy
        rw [← Option.some.inj hxx, ← Option.some.inj hyy]
        exact h x' hx' y' hy'
    rw [← hsome, ← exists_unifiesTo_iff]
    simp only [tree.unifiesTo_append ha hb]
  rw [← hchain, gather]
  split_ifs with h
  · simp [h]
  · simp [h]

theorem merged_eq_ok_iff {a b answer : Option Nat} :
    tree.merged (E := E) a b = .ok answer ↔ tree.UnifiesTo [a, b] answer := by
  rw [← unifyContexts_eq_ok_iff, merged]
  cases tree.unifyContexts [a, b] with
  | error pair => simp [Except.mapError]
  | ok answer' => simp [Except.mapError]

def MetArray.metContext (item : tree.MetArray) : tree.MetContext :=
  ⟨item.array.handle, item.met, item.unifies⟩

/-- Unify two contexts and put their handles together. -/
def mergeMet (left right : tree.MetContext) : Except (HandleError E) tree.MetContext :=
  match h : tree.merged (E := E) left.context right.context with
  | .error error => .error error
  | .ok context =>
      .ok ⟨context, left.met ++ right.met,
        (tree.unifiesTo_append left.unifies right.unifies).mpr (tree.merged_eq_ok_iff.mp h)⟩

/-- The selection that also collects the handles. -/
def collecting : Verb (HandleError E) (tree.MetArray) (tree.MetContext) where
  record item mask := do
    let node ← (select item.array.node mask.array.node).mapError .recording
    let met ← tree.mergeMet (item.metContext tree) (mask.metContext tree)
    .ok ⟨⟨node, met.context⟩, met.met, met.unifies⟩
  merge := tree.mergeMet
  contextOf := MetArray.metContext tree

theorem mergeMet_eq_ok {left right answer : tree.MetContext}
    (h : tree.mergeMet (E := E) left right = .ok answer) :
    tree.UnifiesTo [left.context, right.context] answer.context ∧
      answer.met = left.met ++ right.met := by
  unfold mergeMet at h
  split at h
  · cases h
  next context hmerged =>
    cases h
    exact ⟨tree.merged_eq_ok_iff.mp hmerged, rfl⟩

theorem exists_mergeMet {left right : tree.MetContext} {answer : Option Nat}
    (h : tree.UnifiesTo [left.context, right.context] answer) :
    ∃ c, tree.mergeMet (E := E) left right = .ok c := by
  have hmerged := tree.merged_eq_ok_iff (E := E).mpr h
  unfold mergeMet
  split
  next error herror =>
    rw [hmerged] at herror
    cases herror
  next context _ => exact ⟨_, rfl⟩

theorem mapError_eq_ok_iff {ε ε' α : Type} {x : Except ε α} {f : ε → ε'} {a : α} :
    x.mapError f = .ok a ↔ x = .ok a := by
  cases x with
  | error e => simp [Except.mapError]
  | ok a => simp [Except.mapError]

theorem collecting_record_eq_ok {item mask answer : tree.MetArray}
    (h : (tree.collecting select).record item mask = .ok answer) :
    select item.array.node mask.array.node = .ok answer.array.node ∧
      tree.UnifiesTo [item.array.handle, mask.array.handle] answer.array.handle ∧
      answer.met = item.met ++ mask.met := by
  obtain ⟨node, hnode, hrest⟩ := bind_eq_ok_iff.mp h
  obtain ⟨met, hmet, hanswer⟩ := bind_eq_ok_iff.mp hrest
  cases hanswer
  exact ⟨mapError_eq_ok_iff.mp hnode, tree.mergeMet_eq_ok hmet⟩

theorem exists_collecting_record {item mask : tree.MetArray} {node : N} {answer : Option Nat}
    (hnode : select item.array.node mask.array.node = .ok node)
    (h : tree.UnifiesTo [item.array.handle, mask.array.handle] answer) :
    ∃ c, (tree.collecting select).record item mask = .ok c := by
  have hmerge : ∃ met, tree.mergeMet (E := E) (item.metContext tree) (mask.metContext tree) =
      .ok met := tree.exists_mergeMet h
  obtain ⟨met, hmet⟩ := hmerge
  exact ⟨_, bind_eq_ok_iff.mpr ⟨node, mapError_eq_ok_iff.mpr hnode,
    bind_eq_ok_iff.mpr ⟨met, hmet, rfl⟩⟩⟩

theorem selecting_record_eq_ok_iff {item mask answer : HandledArray N} :
    (tree.selecting select).record item mask = .ok answer ↔
      select item.node mask.node = .ok answer.node ∧
        tree.UnifiesTo [item.handle, mask.handle] answer.handle := by
  simp only [selecting, bind_eq_ok_iff, merged_eq_ok_iff, mapError_eq_ok_iff, Except.ok.injEq]
  constructor
  · rintro ⟨node, hnode, handle, hhandle, rfl⟩
    exact ⟨hnode, hhandle⟩
  · rintro ⟨hnode, hhandle⟩
    exact ⟨answer.node, hnode, answer.handle, hhandle, rfl⟩

theorem seenAs_selecting : SeenAs (tree.collecting select) (tree.selecting select)
    MetArray.array MetContext.context where
  record a b c h := by
    obtain ⟨hnode, hhandle, -⟩ := tree.collecting_record_eq_ok select h
    exact (tree.selecting_record_eq_ok_iff select).mpr ⟨hnode, hhandle⟩
  merge _ _ _ h := tree.merged_eq_ok_iff.mpr (tree.mergeMet_eq_ok h).1
  contextOf _ := rfl

theorem seenAs_recordingNodes : SeenAs (tree.collecting select) (recordingNodes select)
    (fun a => a.array.node) (fun _ => ()) where
  record _ _ _ h := (tree.collecting_record_eq_ok select h).1
  merge _ _ _ _ := rfl
  contextOf _ := rfl

theorem gather_eq_ok {met met' : List Nat} (h : ∃ answer, tree.gather met met' = .ok answer) :
    tree.gather met met' = .ok (met ++ met') := by
  obtain ⟨answer, h⟩ := h
  unfold gather at h ⊢
  split_ifs at h ⊢
  rfl

theorem seenAs_meeting : SeenAs (tree.collecting select) tree.meeting
    MetArray.met MetContext.met where
  record a b c h := by
    obtain ⟨-, hhandle, hmet⟩ := tree.collecting_record_eq_ok select h
    rw [hmet]
    exact tree.gather_eq_ok ((tree.gather_eq_ok_iff a.unifies b.unifies).mpr ⟨_, hhandle⟩)
  merge a b c h := by
    obtain ⟨hcontext, hmet⟩ := tree.mergeMet_eq_ok h
    rw [hmet]
    exact tree.gather_eq_ok ((tree.gather_eq_ok_iff a.unifies b.unifies).mpr ⟨_, hcontext⟩)
  contextOf _ := rfl

theorem returns_collecting : Returns (tree.collecting select) (recordingNodes select) tree.meeting
    (fun a => a.array.node) (fun _ => ()) MetArray.met MetContext.met where
  record a b c d hnode hmet := by
    obtain ⟨answer, hanswer⟩ := (tree.gather_eq_ok_iff a.unifies b.unifies).mp ⟨d, hmet⟩
    exact tree.exists_collecting_record select hnode hanswer
  merge a b c d _ hmet := by
    obtain ⟨answer, hanswer⟩ := (tree.gather_eq_ok_iff a.unifies b.unifies).mp ⟨d, hmet⟩
    exact tree.exists_mergeMet hanswer

theorem returns_of_selecting : Returns (tree.collecting select) (tree.selecting select)
    (tree.selecting select) MetArray.array MetContext.context MetArray.array MetContext.context where
  record a b c d h _ := by
    obtain ⟨hnode, hhandle⟩ := (tree.selecting_record_eq_ok_iff select).mp h
    exact tree.exists_collecting_record select hnode hhandle
  merge _ _ _ _ h _ := tree.exists_mergeMet (tree.merged_eq_ok_iff.mp h)

/-- A value, with each handle collected. -/
def lift : HandledValue N → Broadcast tree.MetArray tree.MetContext :=
  Broadcast.map (fun array => ⟨array, array.handle.toList, tree.unifiesTo_toList array.handle⟩)
    fun context => ⟨context, context.toList, tree.unifiesTo_toList context⟩

def liftLink : LineageLink N → Link tree.MetArray tree.MetContext :=
  Link.map (fun array => ⟨array, array.handle.toList, tree.unifiesTo_toList array.handle⟩)
    fun context => ⟨context, context.toList, tree.unifiesTo_toList context⟩

theorem lift_array (value : HandledValue N) :
    (tree.lift value).map MetArray.array MetContext.context = value := by
  rw [lift, Broadcast.map_map]
  exact Broadcast.map_id value

theorem liftLink_array (links : List (LineageLink N)) :
    (links.map tree.liftLink).map (Link.map MetArray.array MetContext.context) = links := by
  rw [List.map_map]
  refine (List.map_congr_left fun link _ => ?_).trans (List.map_id links)
  rw [Function.comp_apply, liftLink, Link.map_map]
  exact Link.map_id link

theorem liftLink_node (links : List (LineageLink N)) :
    (links.map tree.liftLink).map (Link.map (fun a => a.array.node) fun _ => ()) =
      links.map nodeLink := by
  rw [List.map_map]
  refine List.map_congr_left fun link _ => ?_
  rw [Function.comp_apply, liftLink, Link.map_map]
  rfl

theorem liftLink_met (links : List (LineageLink N)) :
    (links.map tree.liftLink).map (Link.map MetArray.met MetContext.met) =
      links.map handleLink := by
  rw [List.map_map]
  refine List.map_congr_left fun link _ => ?_
  rw [Function.comp_apply, liftLink, Link.map_map]
  rfl

theorem lift_node (value : HandledValue N) :
    (tree.lift value).map (fun a => a.array.node) (fun _ => ()) = nodesOf value := by
  rw [lift, Broadcast.map_map]
  rfl

theorem lift_met (value : HandledValue N) :
    (tree.lift value).map MetArray.met MetContext.met = handlesOf value := by
  rw [lift, Broadcast.map_map]
  rfl

/-- A walk that returns records its nodes, and its handles meet at the labels it answers with. -/
theorem followAll_selecting {value answer : HandledValue N} {links : List (LineageLink N)}
    (h : (tree.selecting select).followAll registry value links = .ok answer) :
    (recordingNodes select).followAll registry (nodesOf value) (links.map nodeLink) =
        .ok (nodesOf answer) ∧
      ∃ met, tree.meeting.followAll registry (handlesOf value) (links.map handleLink) = .ok met ∧
        ∀ ctx, readAt ctx met = readAt ctx answer := by
  have hlifted := h
  rw [← tree.lift_array value, ← tree.liftLink_array links] at hlifted
  obtain ⟨collected, hcollected⟩ := (tree.returns_of_selecting select).followAll
    (tree.seenAs_selecting select) (tree.seenAs_selecting select) hlifted hlifted
  have hsame := (tree.seenAs_selecting select).followAll hcollected
  rw [hlifted, Except.ok.injEq] at hsame
  have hnodes := (tree.seenAs_recordingNodes select).followAll hcollected
  rw [lift_node, liftLink_node] at hnodes
  have hmet := (tree.seenAs_meeting select).followAll hcollected
  rw [lift_met, liftLink_met] at hmet
  refine ⟨?_, _, hmet, fun ctx => ?_⟩
  · rw [hnodes, hsame, nodesOf, Broadcast.map_map]
    rfl
  · rw [hsame, readAt, readAt, Broadcast.map_map, Broadcast.map_map]
    rfl

/-- **A walk returns where its nodes are recorded and its handles meet.** -/
theorem exists_followAll_selecting {value : HandledValue N} {links : List (LineageLink N)}
    {nodes : Broadcast N Unit} (hnodes : (recordingNodes select).followAll registry (nodesOf value)
      (links.map nodeLink) = .ok nodes) (hmeets : tree.Meets registry (handlesOf value) links) :
    ∃ answer, (tree.selecting select).followAll registry value links = .ok answer ∧
      nodesOf answer = nodes := by
  obtain ⟨met, hmet⟩ := hmeets
  rw [← tree.lift_node value, ← tree.liftLink_node links] at hnodes
  rw [← tree.lift_met value, ← tree.liftLink_met links] at hmet
  obtain ⟨collected, hcollected⟩ := (tree.returns_collecting select).followAll
    (tree.seenAs_recordingNodes select) (tree.seenAs_meeting select) hnodes hmet
  have hanswer := (tree.seenAs_selecting select).followAll hcollected
  rw [lift_array, liftLink_array] at hanswer
  refine ⟨_, hanswer, ?_⟩
  have hsame := (tree.seenAs_recordingNodes select).followAll hcollected
  rw [hnodes, Except.ok.injEq] at hsame
  rw [hsame, nodesOf, Broadcast.map_map]
  rfl

/-! ### Re-indexing -/

theorem contextOf_withContext (ctx : Option Nat) (value : HandledValue N) :
    contextOf (withContext ctx value) = ctx := by
  cases value with
  | array array => rfl
  | varied container context => rfl

theorem withContext_withContext (ctx ctx' : Option Nat) (value : HandledValue N) :
    withContext ctx (withContext ctx' value) = withContext ctx value := by
  rw [withContext, withContext, Broadcast.map_map]
  rfl

theorem nodesOf_withContext (ctx : Option Nat) (value : HandledValue N) :
    nodesOf (withContext ctx value) = nodesOf value := by
  rw [nodesOf, withContext, Broadcast.map_map]
  rfl

theorem handlesOf_withContext (ctx : Nat) (value : HandledValue N) :
    handlesOf (withContext (some ctx) value) = readAt ctx value := by
  rw [handlesOf, withContext, Broadcast.map_map]
  rfl

/-- From where its walk starts, a re-indexing is the walk and a stamp. -/
theorem reindexTo_eq {value : HandledValue N} {handle ctx start : Nat}
    (hstart : tree.startOf (E := E) handle ctx = .ok start) :
    tree.reindexTo registry select (withContext (some handle) value) (some ctx) =
      ((tree.selecting select).followAll registry (withContext (some handle) value)
        (tree.linksBelow ctx start)).map (withContext (some ctx)) := by
  simp only [reindexTo, contextOf_withContext]
  split_ifs with hsame
  · subst hsame
    rw [startOf, if_pos (tree.order_isAncestor.refl handle), Except.ok.injEq] at hstart
    subst hstart
    rw [linksBelow_self]
    change Except.ok _ = Except.ok _
    rw [withContext_withContext]
  · rw [hstart]
    change ((tree.selecting select).followAll registry (withContext (some handle) value)
      (tree.linksBelow ctx start) >>= fun value => .ok (withContext (some ctx) value)) = _
    cases (tree.selecting select).followAll registry (withContext (some handle) value)
      (tree.linksBelow ctx start) with
    | error e => rfl
    | ok answer => rfl

theorem recordedBy_eq_some_iff {answer : Except (HandleError E) (HandledValue N)}
    {nodes : Broadcast N Unit} :
    recordedBy answer = some nodes ↔ ∃ w, answer = .ok w ∧ nodesOf w = nodes := by
  cases answer with
  | error e => simp [recordedBy, Except.toOption]
  | ok w => simp [recordedBy, Except.toOption]

/-- **What a re-indexing records**: the nodes of its links, where the handles meet. -/
theorem recordedBy_reindexTo {value : HandledValue N} {handle ctx start : Nat}
    {nodes : Broadcast N Unit} (hstart : tree.startOf (E := E) handle ctx = .ok start) :
    recordedBy (tree.reindexTo registry select (withContext (some handle) value) (some ctx)) =
        some nodes ↔
      (recordingNodes select).followAll registry (nodesOf value)
          ((tree.linksBelow ctx start).map nodeLink) = .ok nodes ∧
        tree.Meets registry (readAt handle value) (tree.linksBelow ctx start) := by
  rw [tree.reindexTo_eq registry select hstart, recordedBy_eq_some_iff]
  simp only [map_eq_ok_iff]
  constructor
  · rintro ⟨w, ⟨answer, hanswer, rfl⟩, rfl⟩
    obtain ⟨hnodes, met, hmet, -⟩ := tree.followAll_selecting registry select hanswer
    rw [nodesOf_withContext] at hnodes ⊢
    rw [handlesOf_withContext] at hmet
    exact ⟨hnodes, met, hmet⟩
  · rintro ⟨hnodes, hmeets⟩
    rw [← nodesOf_withContext (some handle)] at hnodes
    rw [← handlesOf_withContext] at hmeets
    obtain ⟨answer, hanswer, rfl⟩ := tree.exists_followAll_selecting registry select hnodes hmeets
    exact ⟨_, ⟨answer, hanswer, rfl⟩, nodesOf_withContext _ _⟩

end ContextTree

end Graphed
