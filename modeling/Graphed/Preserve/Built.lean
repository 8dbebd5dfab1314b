import Graphed.Core.RoundTrip
import Graphed.Preserve.Bundle

/-!
# What building a bundle leaves

A bundle that is built holds the graph as it was recorded, every dataset and, for each External a
plugin keeps, its payload and one manifest entry. Building succeeds when every such External has a
payload that hashes to its recorded id by the time its node is stored.
-/

namespace Graphed

/-! ### Faithful stores -/

namespace Disk

variable {sha : BlobData → String} {d : Disk} {blob data : BlobData} {contentHash : String}

/-- Every blob is stored under its hash. -/
def Faithful (sha : BlobData → String) (d : Disk) : Prop :=
  ∀ name blob, d.objects name = some blob → sha blob = name

/-- The store holds a blob. -/
def Held (sha : BlobData → String) (d : Disk) (blob : BlobData) : Prop :=
  d.objects (sha blob) = some blob

theorem faithful_empty : Disk.empty.Faithful sha := by
  intro name blob h
  cases h

theorem objects_put (hsha : Function.Injective sha) (hd : d.Faithful sha) (name : String) :
    (d.put sha blob).2.objects name = if name = sha blob then some blob else d.objects name := by
  unfold put
  split
  · rfl
  · rename_i hkept
    rw [not_or, not_not] at hkept
    obtain ⟨held, hheld, -⟩ := Option.map_eq_some_iff.mp hkept.2
    obtain rfl := hsha (hd _ _ hheld)
    split
    · rename_i hname
      rw [hname, hheld]
    · rfl

theorem Faithful.put (hd : d.Faithful sha) (hsha : Function.Injective sha) (blob : BlobData) :
    (d.put sha blob).2.Faithful sha := by
  intro name data h
  rw [objects_put hsha hd] at h
  split at h
  · rename_i hname
    rw [← Option.some.inj h, hname]
  · exact hd name data h

theorem held_put (hsha : Function.Injective sha) (hd : d.Faithful sha) (blob : BlobData) :
    (d.put sha blob).2.Held sha blob := by
  unfold Held
  rw [objects_put hsha hd, if_pos rfl]

theorem Held.put (h : d.Held sha data) (hsha : Function.Injective sha) (hd : d.Faithful sha)
    (blob : BlobData) : (d.put sha blob).2.Held sha data := by
  unfold Held
  rw [objects_put hsha hd]
  split
  · rename_i heq
    rw [hsha heq]
  · exact h

theorem Held.intact (h : d.Held sha blob) : d.Intact sha (sha blob) := ⟨blob, h, rfl⟩

end Disk

/-- A blob is resolved when it is there and hashes to its name. -/
theorem resolveBlob_eq_ok {sha : BlobData → String} {d : Disk} {what name : String}
    {blob : BlobData} :
    resolveBlob sha d what name = .ok blob ↔ d.objects name = some blob ∧ sha blob = name := by
  unfold resolveBlob
  rw [← Disk.get_eq_some]
  cases (d.get sha name).1 <;> simp

/-- A blob resolved is the one of its hash. -/
theorem resolveBlob_sha {sha : BlobData → String} (hsha : Function.Injective sha) {d : Disk}
    {what : String} {blob data : BlobData} :
    resolveBlob sha d what (sha blob) = .ok data ↔ data = blob ∧ d.Intact sha (sha blob) := by
  rw [resolveBlob_eq_ok]
  constructor
  · rintro ⟨hdata, heq⟩
    obtain rfl := hsha heq
    exact ⟨rfl, data, hdata, rfl⟩
  · rintro ⟨rfl, held, hheld, heq⟩
    obtain rfl := hsha heq
    exact ⟨hheld, rfl⟩

variable {V R H F : Type}

/-! ### Payloads -/

namespace Archive

variable (A : Archive V R H)

/-- The payload a node synthesizes for a hash. -/
def synthesized (contentHash : String) : NodeKey → Option BlobData
  | .external descriptor params _ =>
      if descriptor.contentHash = contentHash then
        (A.getPlugin descriptor.kind).bind fun plugin =>
          (plugin.synthesize params contentHash).toOption.join
      else none
  | _ => none

/-- The payload of a hash: the one supplied, or the first one synthesized. -/
def payloadOf (payloads : List (String × BlobData)) (nodes : List NodeKey) (contentHash : String) :
    Option BlobData :=
  (payloads.lookup contentHash).or (nodes.findSome? (A.synthesized contentHash))

/-- An External a plugin keeps has a payload when it is stored, and the payload hashes to its
recorded id. -/
def Supplied (payloads : List (String × BlobData)) (before : List NodeKey) (key : NodeKey) : Prop :=
  ∀ descriptor params ins plugin, key = .external descriptor params ins →
    A.getPlugin descriptor.kind = some plugin →
      ∃ blob, A.payloadOf payloads (before ++ [key]) descriptor.contentHash = some blob ∧
        plugin.contentHash blob = .ok descriptor.contentHash

/-- The manifest entry of a node. -/
def entryFor (payload : String → Option BlobData) (outputTypes : Nat → Option String)
    (node : NodeKey × Nat) : Option ExternalEntry :=
  match node.1 with
  | .external descriptor _ _ =>
      (A.getPlugin descriptor.kind).bind fun _ =>
        (payload descriptor.contentHash).map fun blob =>
          ⟨node.2, descriptor.kind, descriptor.contentHash, A.sha blob, descriptor.ioSchema,
            outputTypes node.2⟩
  | _ => none

variable {A}

theorem payloadOf_concat (payloads : List (String × BlobData)) (nodes : List NodeKey)
    (key : NodeKey) (contentHash : String) :
    A.payloadOf payloads (nodes ++ [key]) contentHash =
      (A.payloadOf payloads nodes contentHash).or (A.synthesized contentHash key) := by
  unfold payloadOf
  rw [List.findSome?_append, List.findSome?_singleton, Option.or_assoc]

theorem payloadOf_of_isPrefix {payloads : List (String × BlobData)} {before nodes : List NodeKey}
    (hpre : before <+: nodes) {contentHash : String} {blob : BlobData}
    (h : A.payloadOf payloads before contentHash = some blob) :
    A.payloadOf payloads nodes contentHash = some blob := by
  obtain ⟨rest, rfl⟩ := hpre
  unfold payloadOf at h ⊢
  rw [List.findSome?_append, ← Option.or_assoc, h, Option.some_or]

/-- Supplying a payload for a node. -/
theorem supply_eq_ok {plugin : ExternalPlugin V R} {contentHash : String} {params : ParamMap}
    {payloads payloads' : List (String × BlobData)}
    (h : plugin.supply contentHash params payloads = .ok payloads') (name : String) :
    payloads'.lookup name = (payloads.lookup name).or
      (if contentHash = name then (plugin.synthesize params contentHash).toOption.join else none) := by
  unfold ExternalPlugin.supply at h
  split at h
  · rename_i hsome
    obtain rfl := Except.ok.inj h
    split
    · rename_i hname
      obtain ⟨blob, hblob⟩ := Option.isSome_iff_exists.mp hsome
      rw [← hname, hblob, Option.some_or]
    · rw [Option.or_none]
  · rename_i hnone
    cases hsynth : plugin.synthesize params contentHash with
    | error e =>
        rw [hsynth] at h
        cases h
    | ok result =>
        rw [hsynth] at h
        obtain rfl := Except.ok.inj h
        rw [List.lookup_append]
        cases result with
        | none => simp [Except.toOption]
        | some blob =>
            by_cases hname : contentHash = name
            · subst hname
              simp [Except.toOption]
            · have hne : (name == contentHash) = false := by simpa using Ne.symm hname
              simp [hname, List.lookup_cons, hne]

theorem supply_eq_error {plugin : ExternalPlugin V R} {contentHash : String} {params : ParamMap}
    {payloads : List (String × BlobData)} {e : PreserveError}
    (h : plugin.supply contentHash params payloads = .error e) :
    payloads.lookup contentHash = none ∧
      (plugin.synthesize params contentHash).toOption.join = none := by
  unfold ExternalPlugin.supply at h
  split at h
  · cases h
  · rename_i hnone
    cases hsynth : plugin.synthesize params contentHash with
    | error e => exact ⟨Option.not_isSome_iff_eq_none.mp hnone, rfl⟩
    | ok result =>
        rw [hsynth] at h
        cases h

/-! ### Storing the Externals -/

/-- What storing some nodes of a graph leaves. -/
structure After (A : Archive V R H) (payloads : List (String × BlobData))
    (outputTypes : Nat → Option String) (root : Disk) (nodes before : List NodeKey)
    (st : Storing) : Prop where
  faithful : st.store.Faithful A.sha
  supplied : ∀ contentHash, st.payloads.lookup contentHash = A.payloadOf payloads before contentHash
  externals : st.externals =
    before.zipIdx.filterMap (A.entryFor (A.payloadOf payloads nodes) outputTypes)
  kept : ∀ blob, root.Held A.sha blob → st.store.Held A.sha blob
  held : ∀ descriptor params ins plugin blob, NodeKey.external descriptor params ins ∈ before →
    A.getPlugin descriptor.kind = some plugin →
      A.payloadOf payloads nodes descriptor.contentHash = some blob → st.store.Held A.sha blob

section Storing

variable {payloads : List (String × BlobData)} {outputTypes : Nat → Option String} {root : Disk}
  {nodes before : List NodeKey} {key : NodeKey} {st : Storing}

theorem zipIdx_filterMap_concat {α β : Type} (f : α × Nat → Option β) (xs : List α) (x : α) :
    (xs ++ [x]).zipIdx.filterMap f = xs.zipIdx.filterMap f ++ (f (x, xs.length)).toList := by
  rw [List.zipIdx_append, List.zipIdx_singleton, Nat.zero_add, List.filterMap_append]
  cases hfx : f (x, xs.length) with
  | none => rw [List.filterMap_cons_none hfx]; rfl
  | some y => rw [List.filterMap_cons_some hfx]; rfl

/-- A node no plugin keeps leaves the blobs and the entries as they are. -/
theorem After.skip (h : After A payloads outputTypes root nodes before st)
    (hkey : ∀ descriptor params ins, key = .external descriptor params ins →
      A.getPlugin descriptor.kind = none) (opaqueNodes : List Nat) :
    After A payloads outputTypes root nodes (before ++ [key]) { st with opaqueNodes } := by
  have hsynth : ∀ contentHash, A.synthesized contentHash key = none := by
    intro contentHash
    cases key with
    | external descriptor params ins =>
        rw [synthesized, hkey descriptor params ins rfl]
        split <;> rfl
    | _ => rfl
  have hentry : A.entryFor (A.payloadOf payloads nodes) outputTypes (key, before.length) = none := by
    cases key with
    | external descriptor params ins =>
        simp only [entryFor, hkey descriptor params ins rfl, Option.bind_none]
    | _ => rfl
  refine ⟨h.faithful, fun contentHash => ?_, ?_, h.kept, ?_⟩
  · rw [payloadOf_concat, hsynth, Option.or_none]
    exact h.supplied contentHash
  · rw [zipIdx_filterMap_concat, hentry]
    exact h.externals.trans (List.append_nil _).symm
  · intro descriptor params ins plugin blob hmem hplugin
    rcases List.mem_append.mp hmem with hmem | hmem
    · exact h.held descriptor params ins plugin blob hmem hplugin
    · rw [hkey descriptor params ins (List.mem_singleton.mp hmem).symm] at hplugin
      cases hplugin

/-- A payload stored is held, and gets an entry. -/
theorem After.store (h : After A payloads outputTypes root nodes before st)
    {descriptor : PayloadDescriptor} {params : ParamMap} {ins : List Nat}
    {plugin : ExternalPlugin V R} (hplugin : A.getPlugin descriptor.kind = some plugin)
    {payloads' : List (String × BlobData)}
    (hlookup : ∀ contentHash, payloads'.lookup contentHash =
      A.payloadOf payloads (before ++ [.external descriptor params ins]) contentHash)
    {blob : BlobData} (hfull : A.payloadOf payloads nodes descriptor.contentHash = some blob) :
    After A payloads outputTypes root nodes (before ++ [.external descriptor params ins])
      { st with
        store := (st.store.put A.sha blob).2
        payloads := payloads'
        externals := st.externals ++ [⟨before.length, descriptor.kind, descriptor.contentHash,
          A.sha blob, descriptor.ioSchema, outputTypes before.length⟩] } := by
  refine ⟨h.faithful.put A.sha_injective blob, hlookup, ?_, ?_, ?_⟩
  · rw [zipIdx_filterMap_concat, ← h.externals]
    simp only [entryFor, hplugin, hfull, Option.bind_some, Option.map_some, Option.toList_some]
  · exact fun data hdata => (h.kept data hdata).put A.sha_injective h.faithful blob
  · intro d p i plugin' data hmem hsome hdata
    rcases List.mem_append.mp hmem with hmem | hmem
    · exact (h.held d p i plugin' data hmem hsome hdata).put A.sha_injective h.faithful blob
    · obtain ⟨rfl, -, -⟩ := NodeKey.external.inj (List.mem_singleton.mp hmem)
      obtain rfl := Option.some.inj (hfull.symm.trans hdata)
      exact Disk.held_put A.sha_injective h.faithful blob

/-- **Storing one node** keeps the invariant, or fails for want of its payload. -/
theorem After.step (h : After A payloads outputTypes root nodes before st)
    (hpre : before ++ [key] <+: nodes) :
    (∃ st', A.storedExternal outputTypes st (key, before.length) = .ok st' ∧
        After A payloads outputTypes root nodes (before ++ [key]) st' ∧
        A.Supplied payloads before key) ∨
      (∃ e, A.storedExternal outputTypes st (key, before.length) = .error e) ∧
        ¬ A.Supplied payloads before key := by
  cases key with
  | external descriptor params ins =>
      cases hplugin : A.getPlugin descriptor.kind with
      | none =>
          refine Or.inl ⟨{ st with opaqueNodes := st.opaqueNodes ++ [before.length] }, ?_, ?_, ?_⟩
          · simp only [storedExternal, hplugin]
          · refine h.skip (fun d p i hkey => ?_) _
            obtain ⟨rfl, -, -⟩ := NodeKey.external.inj hkey
            exact hplugin
          · intro d p i plugin hkey hsome
            obtain ⟨rfl, -, -⟩ := NodeKey.external.inj hkey
            rw [hplugin] at hsome
            cases hsome
      | some plugin =>
          have hsynth : A.synthesized descriptor.contentHash (.external descriptor params ins) =
              (plugin.synthesize params descriptor.contentHash).toOption.join := by
            rw [synthesized, if_pos rfl, hplugin]
            rfl
          have hneeds : A.Supplied payloads before (.external descriptor params ins) ↔
              ∃ blob, A.payloadOf payloads (before ++ [.external descriptor params ins])
                descriptor.contentHash = some blob ∧
                  plugin.contentHash blob = .ok descriptor.contentHash := by
            constructor
            · exact fun hsupplied => hsupplied _ _ _ plugin rfl hplugin
            · rintro hblob d p i plugin' hkey hsome
              obtain ⟨rfl, rfl, rfl⟩ := NodeKey.external.inj hkey
              obtain rfl := Option.some.inj (hplugin.symm.trans hsome)
              exact hblob
          rw [hneeds]
          simp only [storedExternal, hplugin]
          cases hsupply : plugin.supply descriptor.contentHash params st.payloads with
          | error e =>
              refine Or.inr ⟨⟨e, rfl⟩, ?_⟩
              rintro ⟨blob, hblob, -⟩
              obtain ⟨hnone, hnosynth⟩ := supply_eq_error hsupply
              rw [payloadOf_concat, hsynth, hnosynth, Option.or_none, ← h.supplied, hnone] at hblob
              cases hblob
          | ok payloads' =>
              have hlookup : ∀ contentHash, payloads'.lookup contentHash = A.payloadOf payloads
                  (before ++ [.external descriptor params ins]) contentHash := by
                intro contentHash
                rw [supply_eq_ok hsupply, h.supplied, payloadOf_concat]
                congr 1
                rw [synthesized, hplugin]
                split
                · rename_i hname
                  rw [hname]
                  rfl
                · rfl
              rw [← hlookup]
              simp only [bind, Except.bind]
              cases hblob : payloads'.lookup descriptor.contentHash with
              | none =>
                  refine Or.inr ⟨⟨_, rfl⟩, ?_⟩
                  rintro ⟨blob, hsome, -⟩
                  cases hsome
              | some blob =>
                  have hfull : A.payloadOf payloads nodes descriptor.contentHash = some blob :=
                    payloadOf_of_isPrefix hpre ((hlookup _).symm.trans hblob)
                  dsimp only
                  cases hhash : plugin.contentHash blob with
                  | error e =>
                      refine Or.inr ⟨⟨.raised e, rfl⟩, ?_⟩
                      rintro ⟨blob', hsome, hok⟩
                      obtain rfl := Option.some.inj hsome
                      rw [hhash] at hok
                      cases hok
                  | ok actual =>
                      change (∃ st', (if actual ≠ descriptor.contentHash then _ else _) = _ ∧ _) ∨
                        (∃ e, (if actual ≠ descriptor.contentHash then _ else _) = _) ∧ _
                      by_cases hactual : actual = descriptor.contentHash
                      · rw [if_neg (not_not.mpr hactual)]
                        exact Or.inl ⟨_, rfl, h.store hplugin hlookup hfull, blob, rfl,
                          by rw [hhash, hactual]⟩
                      · rw [if_pos hactual]
                        refine Or.inr ⟨⟨_, rfl⟩, ?_⟩
                        rintro ⟨blob', hsome, hok⟩
                        obtain rfl := Option.some.inj hsome
                        rw [hhash] at hok
                        exact hactual (Except.ok.inj hok)
  | _ => 
      refine Or.inl ⟨st, rfl, h.skip (fun _ _ _ hkey => by cases hkey) _, ?_⟩
      intro _ _ _ _ hkey
      cases hkey

/-- **Storing the Externals** of a graph succeeds when each a plugin keeps is supplied. -/
theorem storedExternals_cases (A : Archive V R H) (payloads : List (String × BlobData))
    (outputTypes : Nat → Option String) {root : Disk} (hroot : root.Faithful A.sha)
    (nodes : List NodeKey) :
    (∃ st, A.storedExternals outputTypes root payloads nodes = .ok st ∧
        After A payloads outputTypes root nodes nodes st ∧
        ∀ i key, nodes[i]? = some key → A.Supplied payloads (nodes.take i) key) ∨
      (∃ e, A.storedExternals outputTypes root payloads nodes = .error e) ∧
        ∃ i key, nodes[i]? = some key ∧ ¬ A.Supplied payloads (nodes.take i) key := by
  suffices hpre : ∀ before, before <+: nodes →
      (∃ st, A.storedExternals outputTypes root payloads before = .ok st ∧
          After A payloads outputTypes root nodes before st ∧
          ∀ i key, before[i]? = some key → A.Supplied payloads (before.take i) key) ∨
        (∃ e, A.storedExternals outputTypes root payloads before = .error e) ∧
          ∃ i key, before[i]? = some key ∧ ¬ A.Supplied payloads (before.take i) key by
    exact hpre nodes (List.prefix_refl nodes)
  intro before
  induction before using List.reverseRecOn with
  | nil =>
      intro _
      refine Or.inl ⟨_, rfl, ⟨hroot, fun _ => ?_, rfl, fun _ => id, ?_⟩, ?_⟩
      · exact Option.or_none.symm
      · intro _ _ _ _ _ hmem
        cases hmem
      · intro i key hi
        cases hi
  | append_singleton before key ih =>
      intro hpre
      have hrun : A.storedExternals outputTypes root payloads (before ++ [key]) =
          A.storedExternals outputTypes root payloads before >>= fun st =>
            A.storedExternal outputTypes st (key, before.length) := by
        unfold storedExternals
        rw [List.zipIdx_append, List.zipIdx_singleton, Nat.zero_add, List.foldlM_append]
        simp
      have hearlier : ∀ {i : Nat} {k : NodeKey}, before[i]? = some k →
          (before ++ [key])[i]? = some k ∧ (before ++ [key]).take i = before.take i := by
        intro i k hi
        have hlt := (List.getElem?_eq_some_iff.mp hi).1
        exact ⟨by rw [List.getElem?_append_left hlt, hi], List.take_append_of_le_length hlt.le⟩
      have hlast : (before ++ [key])[before.length]? = some key ∧
          (before ++ [key]).take before.length = before := by simp
      rcases ih ((List.prefix_append before [key]).trans hpre) with
        ⟨st, hok, hafter, hall⟩ | ⟨⟨e, herror⟩, i, k, hi, hnot⟩
      · rw [hrun, hok]
        change (∃ st', A.storedExternal _ _ _ = _ ∧ _) ∨ (∃ e, A.storedExternal _ _ _ = _) ∧ _
        rcases hafter.step hpre with ⟨st', hst', hafter', hsupplied⟩ | ⟨herror, hnot⟩
        · refine Or.inl ⟨st', hst', hafter', fun i k hi => ?_⟩
          rcases Nat.lt_or_ge i before.length with hlt | hge
          · rw [List.getElem?_append_left hlt] at hi
            rw [(hearlier hi).2]
            exact hall i k hi
          · rw [List.getElem?_append_right hge, List.getElem?_singleton] at hi
            split at hi
            · rename_i hzero
              obtain rfl : i = before.length := by omega
              obtain rfl := Option.some.inj hi
              rw [hlast.2]
              exact hsupplied
            · cases hi
        · exact Or.inr ⟨herror, before.length, key, hlast.1, by rwa [hlast.2]⟩
      · refine Or.inr ⟨⟨e, by rw [hrun, herror]; rfl⟩, i, k, (hearlier hi).1, ?_⟩
        rwa [(hearlier hi).2]

end Storing

/-- Storing datasets holds each of them, and what was held. -/
theorem storedSources_held (A : Archive V R H) (datasets : List (String × V)) {store : Disk}
    (hstore : store.Faithful A.sha) :
    (A.storedSources store datasets).Faithful A.sha ∧
      (∀ blob, store.Held A.sha blob → (A.storedSources store datasets).Held A.sha blob) ∧
      ∀ dataset ∈ datasets, (A.storedSources store datasets).Held A.sha (A.packArray dataset.2) := by
  induction datasets generalizing store with
  | nil => exact ⟨hstore, fun _ => id, by simp⟩
  | cons dataset datasets ih =>
      obtain ⟨hfaithful, hkept, hheld⟩ := ih (hstore.put A.sha_injective (A.packArray dataset.2))
      refine ⟨hfaithful, fun blob hblob => ?_, ?_⟩
      · exact hkept blob (hblob.put A.sha_injective hstore _)
      · intro d hd
        rcases List.mem_cons.mp hd with rfl | hd
        · exact hkept _ (Disk.held_put A.sha_injective hstore _)
        · exact hheld d hd

end Archive

theorem referencedServices_eq_ok {declared : List ParamValue} {nodes : List NodeKey} {u : Unit} :
    referencedServices declared nodes = .ok u ↔
      ∀ key ∈ nodes, ∀ service ∈ key.service, declared.contains service = true := by
  unfold referencedServices
  cases hfind : (nodes.filterMap NodeKey.service).find? fun service =>
      !declared.contains service with
  | some service =>
      simp only [reduceCtorEq, false_iff]
      intro hall
      obtain ⟨key, hkey, hservice⟩ := List.mem_filterMap.mp (List.mem_of_find?_eq_some hfind)
      have hbad := List.find?_some hfind
      rw [hall key hkey service hservice] at hbad
      cases hbad
  | none =>
      refine iff_of_true rfl fun key hkey service hservice => ?_
      have hgood := List.find?_eq_none.mp hfind service (List.mem_filterMap.mpr ⟨key, hkey, hservice⟩)
      simpa using hgood

/-! ### The bundle -/

theorem Session.Kept.writable {s : Session F} {I : Inference F} (h : s.Kept I) :
    s.store.Writable where
  interned := h.interned
  members := by
    intro key hkey
    have hstage := h.stage key hkey
    cases key with
    | stage ins members => cases hstage
    | _ => exact fun _ _ hop => by cases hop

namespace Analysis

variable {a : Analysis F V H}

theorem outputs_of_markedOutputs {marked : List Nat} (h : a.markedOutputs = .ok marked) :
    ∃ outputs, a.outputs = .ok outputs := by
  unfold markedOutputs at h
  split at h
  · rename_i hvaried
    unfold isVaried at hvaried
    unfold outputs
    cases hweight : a.weight with
    | none =>
        rw [hweight] at hvaried
        cases hvaried
    | some weight => exact ⟨_, rfl⟩
  · cases houtputs : a.outputs with
    | error e =>
        rw [houtputs] at h
        cases h
    | ok outputs => exact ⟨outputs, rfl⟩

theorem outputsIn_lt (weight : Operand (Fin a.session.nodes.length)) (label : String) :
    ∀ nid ∈ (a.outputsIn weight label).value :: (a.outputsIn weight label).weight.toList,
      nid < a.nodes.length := by
  intro nid hnid
  rcases List.mem_cons.mp hnid with rfl | hnid
  · exact (a.value.memberOf a.points label).isLt
  · obtain rfl := List.mem_singleton.mp hnid
    exact (weight.memberOf a.points label).isLt

/-- The outputs are nodes of the Session. -/
theorem markedOutputs_lt {marked : List Nat} (h : a.markedOutputs = .ok marked) :
    ∀ nid ∈ marked, nid < a.nodes.length := by
  unfold markedOutputs at h
  split at h
  · rename_i hvaried
    obtain rfl := Except.ok.inj h
    intro nid hnid
    obtain ⟨entry, hentry, hmem⟩ := List.mem_flatMap.mp hnid
    unfold labelOutputs at hentry
    cases hweight : a.weight with
    | none =>
        rw [hweight] at hentry
        cases hentry
    | some weight =>
        simp only [hweight, if_pos hvaried] at hentry
        obtain ⟨label, -, rfl⟩ := List.mem_map.mp hentry
        exact a.outputsIn_lt weight label nid hmem
  · unfold outputs at h
    split at h
    · rename_i weight _
      obtain rfl := Except.ok.inj h
      exact a.outputsIn_lt weight "nominal"
    · split at h
      · rename_i value _
        obtain rfl := Except.ok.inj h
        intro nid hnid
        obtain rfl := List.mem_singleton.mp hnid
        exact value.isLt
      · cases h

variable (A : Archive V R H) (a)

/-- The payload of a hash. -/
def payload (contentHash : String) : Option BlobData :=
  A.payloadOf a.payloads a.nodes contentHash

/-- What building asks of an analysis: a weight and a histogram or neither, a graph that fits the
format, Externals that are supplied, and declared services. -/
structure Storable : Prop where
  paired : a.weight.isNone = a.histogram.isNone
  fits : ∃ marked, a.markedOutputs = .ok marked ∧
    ∀ n ∈ storeFields a.session.store marked, n < 2 ^ 32
  supplied : ∀ i key, a.nodes[i]? = some key → A.Supplied a.payloads (a.nodes.take i) key
  declared : ∀ key ∈ a.nodes, ∀ service ∈ key.service, a.services.contains service = true

/-- What building leaves: the blobs, and a manifest that names them. -/
structure Built (ir : BlobData) (b : Bundle H) : Prop where
  serialized : ∃ marked, a.markedOutputs = .ok marked ∧
    serializeWith a.session.store marked = .ok ir
  graph : ∃ t, deserialize ir = .ok t ∧ t.nodes = a.nodes
  irName : b.manifest.ir = A.sha ir
  irHeld : b.store.Held A.sha ir
  outputs : a.outputs = .ok b.manifest.outputs
  variations : b.manifest.variations =
    if a.isVaried then some (a.labelOutputs.insertionSort fun x y => x.1 ≤ y.1) else none
  histogram : b.manifest.histogram = a.histogram
  sources : b.manifest.sources =
    a.datasets.map fun dataset => (dataset.1, A.sha (A.packArray dataset.2))
  sourcesHeld : ∀ dataset ∈ a.datasets, b.store.Held A.sha (A.packArray dataset.2)
  externals : b.manifest.externals =
    a.nodes.zipIdx.filterMap (A.entryFor (a.payload A) a.outputTypes)
  payloadsHeld : ∀ descriptor params ins plugin blob,
    NodeKey.external descriptor params ins ∈ a.nodes →
      A.getPlugin descriptor.kind = some plugin →
        a.payload A descriptor.contentHash = some blob → b.store.Held A.sha blob
  provenance : b.manifest.provenance = A.sha a.sourcemap
  sourcemapHeld : b.store.Held A.sha a.sourcemap

variable {a} {A}

/-- **Building** succeeds on the storable analyses. -/
theorem buildBundle_cases {I : Inference F} (hkept : a.session.Kept I) {root : Disk}
    (hroot : root.Faithful A.sha) :
    (∃ ir b, buildBundle A root a = .ok b ∧ a.Built A ir b ∧ a.Storable A) ∨
      (∃ e, buildBundle A root a = .error e) ∧ ¬ a.Storable A := by
  unfold buildBundle
  by_cases hpaired : a.weight.isNone = a.histogram.isNone
  · rw [if_neg (by simpa using hpaired)]
    cases hmarked : a.markedOutputs with
    | error e =>
        refine Or.inr ⟨⟨e, rfl⟩, fun h => ?_⟩
        obtain ⟨marked, hok, -⟩ := h.fits
        rw [hmarked] at hok
        cases hok
    | ok marked =>
        obtain ⟨outputs, houtputs⟩ := outputs_of_markedOutputs hmarked
        rw [houtputs]
        simp only [bind, Except.bind]
        have hfits : ∀ ir, serializeWith a.session.store marked = .ok ir ↔
            (∀ n ∈ storeFields a.session.store marked, n < 2 ^ 32) ∧
              ir = tableBytes (a.session.store.nodes.map NodeKey.wire) marked :=
          fun ir => serializeWith_eq_ok
        cases hir : serializeWith a.session.store marked with
        | error e =>
            refine Or.inr ⟨⟨.encoding e, rfl⟩, fun h => ?_⟩
            obtain ⟨marked', hok, hlt⟩ := h.fits
            obtain rfl := Except.ok.inj (hmarked.symm.trans hok)
            rw [(hfits _).mpr ⟨hlt, rfl⟩] at hir
            cases hir
        | ok ir =>
            obtain ⟨graph, hgraph, hnodes⟩ := deserialize_nodes hkept.writable
              (markedOutputs_lt hmarked) hir
            have hstore : (root.put A.sha ir).2.Faithful A.sha := hroot.put A.sha_injective ir
            obtain ⟨hfaithful, hkeeps, hsources⟩ := A.storedSources_held a.datasets hstore
            simp only [Except.mapError, hgraph, hnodes]
            rcases A.storedExternals_cases a.payloads a.outputTypes hfaithful a.nodes with
              ⟨stored, hstored, hafter, hall⟩ | ⟨⟨e, herror⟩, i, key, hi, hnot⟩
            · change A.storedExternals _ _ _ a.session.store.nodes = _ at hstored
              rw [hstored]
              dsimp only
              cases hservices : referencedServices a.services a.session.store.nodes with
              | error e =>
                  refine Or.inr ⟨⟨e, rfl⟩, fun h => ?_⟩
                  have hok : referencedServices a.services a.session.store.nodes = .ok () :=
                    referencedServices_eq_ok.mpr h.declared
                  rw [hok] at hservices
                  cases hservices
              | ok _ =>
                  have hfaithful' := hafter.faithful
                  have hkept' : ∀ blob, stored.store.Held A.sha blob →
                      (stored.store.put A.sha a.sourcemap).2.Held A.sha blob :=
                    fun blob hblob => hblob.put A.sha_injective hfaithful' _
                  refine Or.inl ⟨ir, _, rfl, ?_, ?_⟩
                  · exact
                      { serialized := ⟨marked, hmarked, hir⟩
                        graph := ⟨graph, hgraph, hnodes⟩
                        irName := rfl
                        irHeld := hkept' _ (hafter.kept _ (hkeeps _
                          (Disk.held_put A.sha_injective hroot ir)))
                        outputs := houtputs
                        variations := rfl
                        histogram := rfl
                        sources := rfl
                        sourcesHeld := fun d hd => hkept' _ (hafter.kept _ (hsources d hd))
                        externals := hafter.externals
                        payloadsHeld := fun d p i plugin blob hmem hplugin hblob =>
                          hkept' _ (hafter.held d p i plugin blob hmem hplugin hblob)
                        provenance := rfl
                        sourcemapHeld := Disk.held_put A.sha_injective hfaithful' _ }
                  · exact ⟨hpaired, ⟨marked, hmarked, ((hfits ir).mp hir).1⟩, hall,
                      referencedServices_eq_ok.mp hservices⟩
            · change A.storedExternals _ _ _ a.session.store.nodes = _ at herror
              rw [herror]
              exact Or.inr ⟨⟨e, rfl⟩, fun h => hnot (h.supplied i key hi)⟩
  · rw [if_pos (by simpa using hpaired)]
    exact Or.inr ⟨⟨_, rfl⟩, fun h => hpaired h.paired⟩

end Analysis

end Graphed
