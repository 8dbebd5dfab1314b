import Graphed.Frontend.Walk
import Graphed.Preserve.Built

/-!
# Reproducing an analysis

The recorded graph gives every node a value on the packed datasets with the packed payloads. A
reproduction evaluates all of them, those no output depends on too: it returns what the analysis
asks of the values exactly when every node has one and every blob a node reads is there.
-/

namespace Graphed

variable {V R H F : Type}

/-! ### The values of the recorded graph -/

namespace Analysis

variable (A : Archive V R H) (a : Analysis F V H)

/-- What a recorded node gives on the packed datasets with the packed payloads. -/
def recordedValue (nid : Nat) (key : NodeKey) (ins : List V) : Except PreserveError V :=
  match key with
  | .source name _ =>
      match a.datasets.lookup name with
      | none => .error (.unresolved "dataset for source" name)
      | some v => .ok v
  | .external descriptor params _ =>
      match params.entries.lookup "service" with
      | some service => .error (.callsService nid service)
      | none =>
          match A.getPlugin descriptor.kind with
          | none => .error (.noPlugin descriptor.kind)
          | some plugin =>
              match a.payload A descriptor.contentHash with
              | none => .error (.noPayload descriptor.contentHash nid)
              | some blob => do
                  let r ← PreserveError.lift (plugin.load blob params)
                  let v ← PreserveError.lift (plugin.evaluate r params ins)
                  A.checked nid descriptor.kind
                    (A.declaredType descriptor.kind (a.outputTypes nid)) ins v
  | .stage _ _ => .error (.stage nid)
  | key =>
      match key.evaluated with
      | some (name, params) => PreserveError.lift (A.evalStage name ins params)
      | none => .error (.stage nid)

/-- A recorded node's value. -/
def valueOf (nid : Nat) : Except PreserveError V := graphValue (a.recordedValue A) a.nodes nid

/-- What the analysis is: its histogram, per universe when something varies. -/
def result : Except PreserveError (Reproduced V) :=
  match a.outputs with
  | .error e => .error e
  | .ok outputs =>
      asked A (a.valueOf A) outputs
        (if a.isVaried then some (a.labelOutputs.insertionSort fun x y => x.1 ≤ y.1) else none)
        a.histogram

/-- The blobs a node reads: a source its dataset, an External its payload. -/
def NodeReads (key : NodeKey) (blob : BlobData) : Prop :=
  match key with
  | .source name _ => ∃ v, a.datasets.lookup name = some v ∧ blob = A.packArray v
  | .external descriptor _ _ =>
      (A.getPlugin descriptor.kind).isSome = true ∧ a.payload A descriptor.contentHash = some blob
  | _ => False

end Analysis

/-! ### The manifest's entries -/

section Entries

variable {A : Archive V R H} {a : Analysis F V H} {ir : BlobData} {b : Bundle H}

theorem entryFor_eq_some {payload : String → Option BlobData} {outputTypes : Nat → Option String}
    {key : NodeKey} {nid : Nat} {entry : ExternalEntry} :
    A.entryFor payload outputTypes (key, nid) = some entry ↔
      ∃ descriptor params ins plugin blob, key = .external descriptor params ins ∧
        A.getPlugin descriptor.kind = some plugin ∧ payload descriptor.contentHash = some blob ∧
          entry = ⟨nid, descriptor.kind, descriptor.contentHash, A.sha blob, descriptor.ioSchema,
            outputTypes nid⟩ := by
  cases key with
  | external descriptor params ins =>
      simp only [Archive.entryFor, Option.bind_eq_some_iff, Option.map_eq_some_iff]
      constructor
      · rintro ⟨plugin, hplugin, blob, hblob, rfl⟩
        exact ⟨descriptor, params, ins, plugin, blob, rfl, hplugin, hblob, rfl⟩
      · rintro ⟨d, p, i, plugin, blob, hkey, hplugin, hblob, rfl⟩
        obtain ⟨rfl, -, -⟩ := NodeKey.external.inj hkey
        exact ⟨plugin, hplugin, blob, hblob, rfl⟩
  | _ =>
      simp only [Archive.entryFor, reduceCtorEq, false_iff]
      rintro ⟨_, _, _, _, _, hkey, -⟩
      cases hkey

/-- A node's entry is found by its id. -/
theorem find_entry (payload : String → Option BlobData) (outputTypes : Nat → Option String)
    {nodes : List NodeKey} {nid : Nat} {key : NodeKey} (hkey : nodes[nid]? = some key) :
    (nodes.zipIdx.filterMap (A.entryFor payload outputTypes)).find? (·.nodeId == nid) =
      A.entryFor payload outputTypes (key, nid) := by
  have hid : ∀ {x : NodeKey × Nat} {entry : ExternalEntry},
      A.entryFor payload outputTypes x = some entry → entry.nodeId = x.2 := by
    intro x entry hentry
    obtain ⟨_, _, _, _, _, -, -, -, rfl⟩ := entryFor_eq_some.mp hentry
    rfl
  induction nodes using List.reverseRecOn with
  | nil => cases hkey
  | append_singleton nodes last ih =>
      rw [Archive.zipIdx_filterMap_concat, List.find?_append]
      rcases Nat.lt_or_ge nid nodes.length with hlt | hge
      · rw [List.getElem?_append_left hlt] at hkey
        rw [ih hkey]
        have hnone : (A.entryFor payload outputTypes (last, nodes.length)).toList.find?
            (·.nodeId == nid) = none := by
          rw [List.find?_eq_none]
          intro entry hentry
          have := hid (Option.mem_toList.mp hentry)
          simp only [beq_iff_eq]
          omega
        rw [hnone, Option.or_none]
      · rw [List.getElem?_append_right hge, List.getElem?_singleton] at hkey
        split at hkey
        · obtain rfl := Option.some.inj hkey
          obtain rfl : nid = nodes.length := by omega
          have hnone : (nodes.zipIdx.filterMap (A.entryFor payload outputTypes)).find?
              (·.nodeId == nodes.length) = none := by
            rw [List.find?_eq_none]
            intro entry hentry
            obtain ⟨x, hx, hsome⟩ := List.mem_filterMap.mp hentry
            have := hid hsome
            have := (List.mem_zipIdx' hx).1
            simp only [beq_iff_eq]
            omega
          rw [hnone, Option.none_or]
          cases hentry : A.entryFor payload outputTypes (last, nodes.length) with
          | none => rfl
          | some entry =>
              rw [Option.toList_some, List.find?_singleton, hid hentry]
              simp
        · cases hkey

/-- A source's dataset in the manifest. -/
theorem lookup_sources (datasets : List (String × V)) (name : String) :
    (datasets.map fun dataset => (dataset.1, A.sha (A.packArray dataset.2))).lookup name =
      (datasets.lookup name).map fun v => A.sha (A.packArray v) := by
  induction datasets with
  | nil => rfl
  | cons dataset datasets ih =>
      rw [List.map_cons, List.lookup_cons, List.lookup_cons]
      split
      · rfl
      · exact ih

end Entries

/-! ### Reading a store -/

namespace Archive

variable (A : Archive V R H) (b : Bundle H)

/-- What a node gives when nothing has been loaded yet. -/
def fresh (nid : Nat) (key : NodeKey) (ins : List V) : Except PreserveError V :=
  ((A.interpreter b).value ⟨[], []⟩ nid key ins).map Prod.fst

/-- What has been loaded is what the store holds. -/
structure Loads (loaded : Loaded V R) : Prop where
  data : ∀ name v, loaded.data.lookup name = some v → ∃ contentHash blob,
    b.manifest.sources.lookup name = some contentHash ∧
      b.store.objects contentHash = some blob ∧ A.sha blob = contentHash ∧
        A.unpackArray blob = .ok v
  resources : ∀ item ∈ loaded.resources, ∃ entry ∈ b.manifest.externals, ∃ plugin blob,
    entry.contentHash = item.1.2.1 ∧ A.getPlugin item.1.1 = some plugin ∧
      b.store.objects entry.store = some blob ∧ A.sha blob = entry.store ∧
        plugin.load blob item.1.2.2 = .ok item.2

variable {A} {b}

theorem lift_eq_ok {α : Type} {x : Except Raised α} {v : α} :
    PreserveError.lift x = .ok v ↔ x = .ok v := by
  cases x <;> simp [PreserveError.lift, Except.mapError]

theorem map_eq_ok {ε α β : Type} {x : Except ε α} {f : α → β} {v : β} :
    x.map f = .ok v ↔ ∃ u, x = .ok u ∧ f u = v := by
  cases x <;> simp [Except.map]

/-- A source gives its dataset, loaded before or not. -/
theorem loadSource_loads {loaded : Loaded V R} (h : A.Loads b loaded) (name : String) (v : V) :
    (∀ loaded', A.loadSource b loaded name = .ok (v, loaded') → A.Loads b loaded') ∧
      ((∃ loaded', A.loadSource b loaded name = .ok (v, loaded')) ↔
        ∃ contentHash blob, b.manifest.sources.lookup name = some contentHash ∧
          b.store.objects contentHash = some blob ∧ A.sha blob = contentHash ∧
            A.unpackArray blob = .ok v) := by
  unfold loadSource
  cases hsource : b.manifest.sources.lookup name with
  | none => simp
  | some contentHash =>
      cases hloaded : loaded.data.lookup name with
      | some held =>
          obtain ⟨contentHash', blob, hsource', hblob, hsha, hunpack⟩ := h.data name held hloaded
          obtain rfl := Option.some.inj (hsource.symm.trans hsource')
          constructor
          · intro loaded' hok
            obtain rfl := (Prod.ext_iff.mp (Except.ok.inj hok)).2
            exact h
          · constructor
            · rintro ⟨loaded', hok⟩
              obtain rfl := (Prod.ext_iff.mp (Except.ok.inj hok)).1
              exact ⟨contentHash, blob, rfl, hblob, hsha, hunpack⟩
            · rintro ⟨_, blob', hname, hblob', -, hunpack'⟩
              obtain rfl := Option.some.inj hname
              obtain rfl := Option.some.inj (hblob.symm.trans hblob')
              obtain rfl := Except.ok.inj (hunpack.symm.trans hunpack')
              exact ⟨loaded, rfl⟩
      | none =>
          have hrun : ∀ loaded', (do
              let blob ← resolveBlob A.sha b.store "dataset" contentHash
              let v ← PreserveError.lift (A.unpackArray blob)
              pure (v, { loaded with data := loaded.data ++ [(name, v)] }) :
                Except PreserveError (V × Loaded V R)) = .ok (v, loaded') ↔
              (∃ blob, b.store.objects contentHash = some blob ∧ A.sha blob = contentHash ∧
                A.unpackArray blob = .ok v) ∧
                loaded' = { loaded with data := loaded.data ++ [(name, v)] } := by
            intro loaded'
            constructor
            · intro hok
              obtain ⟨blob, hblob, hok⟩ := bind_ok hok
              obtain ⟨v', hv', hok⟩ := bind_ok hok
              obtain ⟨rfl, rfl⟩ := Prod.ext_iff.mp (Except.ok.inj hok)
              obtain ⟨hobject, hsha⟩ := resolveBlob_eq_ok.mp hblob
              exact ⟨⟨blob, hobject, hsha, lift_eq_ok.mp hv'⟩, rfl⟩
            · rintro ⟨⟨blob, hobject, hsha, hv⟩, rfl⟩
              rw [resolveBlob_eq_ok.mpr ⟨hobject, hsha⟩]
              change (PreserveError.lift (A.unpackArray blob) >>= _) = _
              rw [lift_eq_ok.mpr hv]
              rfl
          dsimp only
          simp only [hrun]
          constructor
          · rintro loaded' ⟨⟨blob, hobject, hsha, hv⟩, rfl⟩
            refine ⟨fun n w hw => ?_, h.resources⟩
            rw [List.lookup_append] at hw
            cases hn : loaded.data.lookup n with
            | some w' =>
                rw [hn, Option.some_or] at hw
                exact Option.some.inj hw ▸ h.data n w' hn
            | none =>
                rw [hn, Option.none_or, List.lookup_cons] at hw
                split at hw
                · rename_i hname
                  obtain rfl := Option.some.inj hw
                  rw [beq_iff_eq.mp hname]
                  exact ⟨contentHash, blob, hsource, hobject, hsha, hv⟩
                · cases hw
          · constructor
            · rintro ⟨_, ⟨blob, hobject, hsha, hv⟩, -⟩
              exact ⟨contentHash, blob, rfl, hobject, hsha, hv⟩
            · rintro ⟨_, blob, hname, hobject, hsha, hv⟩
              obtain rfl := Option.some.inj hname
              exact ⟨_, ⟨blob, hobject, hsha, hv⟩, rfl⟩

/-- Entries of one payload name one blob. -/
def SameStores (entries : List ExternalEntry) : Prop :=
  ∀ e ∈ entries, ∀ e' ∈ entries, e.contentHash = e'.contentHash → e.store = e'.store

/-- A payload gives its resource, loaded before or not. -/
theorem resource_loads {loaded : Loaded V R} (h : A.Loads b loaded)
    (hsame : SameStores b.manifest.externals) {entry : ExternalEntry}
    (hentry : entry ∈ b.manifest.externals) {kind : String} {plugin : ExternalPlugin V R}
    (hplugin : A.getPlugin kind = some plugin) {blob : BlobData}
    (hobject : b.store.objects entry.store = some blob) (hsha : A.sha blob = entry.store)
    (params : ParamMap) (r : R) :
    (∀ loaded', plugin.resource blob (kind, entry.contentHash, params) loaded = .ok (r, loaded') →
        A.Loads b loaded') ∧
      ((∃ loaded', plugin.resource blob (kind, entry.contentHash, params) loaded =
          .ok (r, loaded')) ↔ plugin.load blob params = .ok r) := by
  unfold ExternalPlugin.resource
  cases hfind : loaded.resources.find? (·.1 == (kind, entry.contentHash, params)) with
  | some item =>
      obtain ⟨entry', hentry', plugin', blob', hhash, hplugin', hobject', -, hload⟩ :=
        h.resources item (List.mem_of_find?_eq_some hfind)
      have hkey := List.find?_some hfind
      change (item.1.1 == kind && (item.1.2.1 == entry.contentHash && item.1.2.2 == params)) = true
        at hkey
      rw [Bool.and_eq_true, Bool.and_eq_true, beq_iff_eq, beq_iff_eq] at hkey
      obtain ⟨hkind, hch, hparams⟩ := hkey
      rw [hkind] at hplugin'
      obtain rfl := Option.some.inj (hplugin.symm.trans hplugin')
      rw [hsame entry' hentry' entry hentry (hhash.trans hch)] at hobject'
      obtain rfl := Option.some.inj (hobject.symm.trans hobject')
      rw [plugin.load_congr hparams] at hload
      constructor
      · intro loaded' hok
        obtain rfl := (Prod.ext_iff.mp (Except.ok.inj hok)).2
        exact h
      · rw [hload]
        constructor
        · rintro ⟨loaded', hok⟩
          exact congrArg Except.ok (Prod.ext_iff.mp (Except.ok.inj hok)).1
        · intro hok
          obtain rfl := Except.ok.inj hok
          exact ⟨loaded, rfl⟩
  | none =>
      dsimp only
      simp only [map_eq_ok, lift_eq_ok, Prod.mk.injEq]
      constructor
      · rintro loaded' ⟨r', hload, rfl, rfl⟩
        refine ⟨h.data, fun item hitem => ?_⟩
        rcases List.mem_append.mp hitem with hitem | hitem
        · exact h.resources item hitem
        · obtain rfl := List.mem_singleton.mp hitem
          exact ⟨entry, hentry, plugin, blob, rfl, hplugin, hobject, hsha, hload⟩
      · constructor
        · rintro ⟨loaded', r', hload, rfl, -⟩
          exact hload
        · intro hload
          exact ⟨_, r, hload, rfl, rfl⟩

/-- What an External gives, its payload loaded before or not. -/
theorem evalExternal_loads {loaded : Loaded V R} (h : A.Loads b loaded)
    (hsame : SameStores b.manifest.externals) {nid : Nat} {descriptor : PayloadDescriptor}
    (hhash : ∀ entry, b.manifest.externals.find? (·.nodeId == nid) = some entry →
      entry.contentHash = descriptor.contentHash) (params : ParamMap) (ins : List V) (v : V) :
    (∀ loaded', A.evalExternal b loaded nid descriptor params ins = .ok (v, loaded') →
        A.Loads b loaded') ∧
      ((∃ loaded', A.evalExternal b loaded nid descriptor params ins = .ok (v, loaded')) ↔
        ∃ entry plugin blob r u, b.manifest.externals.find? (·.nodeId == nid) = some entry ∧
          params.entries.lookup "service" = none ∧ A.getPlugin descriptor.kind = some plugin ∧
            b.store.objects entry.store = some blob ∧ A.sha blob = entry.store ∧
              plugin.load blob params = .ok r ∧ plugin.evaluate r params ins = .ok u ∧
                A.checked nid entry.kind (A.declaredType entry.kind entry.outputType) ins u =
                  .ok v) := by
  unfold evalExternal
  cases hentry : b.manifest.externals.find? (·.nodeId == nid) with
  | none => simp
  | some entry =>
      cases hservice : params.entries.lookup "service" with
      | some service => simp
      | none =>
          have hmem := List.mem_of_find?_eq_some hentry
          rw [← hhash entry hentry]
          cases hplugin : A.getPlugin descriptor.kind with
          | none =>
              constructor
              · intro loaded' hok
                obtain ⟨blob, -, hok⟩ := bind_ok hok
                cases hok
              · constructor
                · rintro ⟨loaded', hok⟩
                  obtain ⟨blob, -, hok⟩ := bind_ok hok
                  cases hok
                · rintro ⟨_, _, _, _, _, -, -, hsome, -⟩
                  cases hsome
          | some plugin =>
              constructor
              · intro loaded' hok
                obtain ⟨blob, hblob, hok⟩ := bind_ok hok
                obtain ⟨⟨r, loaded''⟩, hr, hok⟩ := bind_ok hok
                obtain ⟨u, -, hok⟩ := bind_ok hok
                obtain ⟨v', -, hok⟩ := bind_ok hok
                obtain ⟨-, rfl⟩ := Prod.ext_iff.mp (Except.ok.inj hok)
                obtain ⟨hobject, hsha⟩ := resolveBlob_eq_ok.mp hblob
                exact (resource_loads h hsame hmem hplugin hobject hsha params r).1 _ hr
              · constructor
                · rintro ⟨loaded', hok⟩
                  obtain ⟨blob, hblob, hok⟩ := bind_ok hok
                  obtain ⟨⟨r, loaded''⟩, hr, hok⟩ := bind_ok hok
                  obtain ⟨u, hu, hok⟩ := bind_ok hok
                  obtain ⟨v', hv', hok⟩ := bind_ok hok
                  obtain ⟨rfl, -⟩ := Prod.ext_iff.mp (Except.ok.inj hok)
                  obtain ⟨hobject, hsha⟩ := resolveBlob_eq_ok.mp hblob
                  exact ⟨entry, plugin, blob, r, u, rfl, rfl, rfl, hobject, hsha,
                    (resource_loads h hsame hmem hplugin hobject hsha params r).2.mp ⟨_, hr⟩,
                    lift_eq_ok.mp hu, hv'⟩
                · rintro ⟨entry', plugin', blob, r, u, hentry', -, hplugin', hobject, hsha, hload, hu,
                    hv⟩
                  obtain rfl := Option.some.inj hentry'
                  obtain rfl := Option.some.inj hplugin'
                  obtain ⟨loaded', hr⟩ :=
                    (resource_loads h hsame hmem hplugin hobject hsha params r).2.mpr hload
                  refine ⟨loaded', ?_⟩
                  dsimp only
                  rw [resolveBlob_eq_ok.mpr ⟨hobject, hsha⟩]
                  change (plugin.resource blob _ loaded >>= _) = _
                  rw [hr]
                  change (PreserveError.lift (plugin.evaluate r params ins) >>= _) = _
                  rw [lift_eq_ok.mpr hu]
                  change (A.checked nid entry.kind _ ins u >>= _) = _
                  rw [hv]
                  rfl

theorem loads_nil : A.Loads b ⟨[], []⟩ where
  data := fun _ _ h => by cases h
  resources := fun _ h => by cases h

/-- **What is loaded changes no value**: a run gives what it would with nothing loaded. -/
theorem interpreter_evaluates {nodes : List NodeKey} (hsame : SameStores b.manifest.externals)
    (hhash : ∀ nid descriptor params ins entry,
      nodes[nid]? = some (.external descriptor params ins) →
        b.manifest.externals.find? (·.nodeId == nid) = some entry →
          entry.contentHash = descriptor.contentHash) :
    (A.interpreter b).Evaluates (A.fresh b) (A.Loads b) nodes := by
  have hgives : ∀ {loaded : Loaded V R} {nid : Nat} {key : NodeKey} {ins : List V} {v : V},
      nodes[nid]? = some key → A.Loads b loaded →
        (∀ loaded', (A.interpreter b).value loaded nid key ins = .ok (v, loaded') →
          A.Loads b loaded') ∧
        ((∃ loaded', (A.interpreter b).value loaded nid key ins = .ok (v, loaded')) ↔
          A.fresh b nid key ins = .ok v) := by
    intro loaded nid key ins v hkey h
    have hfresh : A.fresh b nid key ins = .ok v ↔
        ∃ loaded', (A.interpreter b).value ⟨[], []⟩ nid key ins = .ok (v, loaded') := by
      unfold fresh
      rw [map_eq_ok]
      constructor
      · rintro ⟨⟨w, loaded'⟩, hok, rfl⟩
        exact ⟨loaded', hok⟩
      · rintro ⟨loaded', hok⟩
        exact ⟨_, hok, rfl⟩
    have hop : ∀ (x : Except PreserveError V) (s : Loaded V R), A.Loads b s →
        (∀ loaded', x.map (·, s) = .ok (v, loaded') → A.Loads b loaded') ∧
          ((∃ loaded', x.map (·, s) = .ok (v, loaded')) ↔ x = .ok v) := by
      intro x s hs
      cases x with
      | error e => simp [Except.map]
      | ok w => simpa [Except.map, eq_comm] using fun _ => hs
    rw [hfresh]
    cases key with
    | source name params =>
        obtain ⟨hkeeps, hiff⟩ := loadSource_loads h name v
        exact ⟨hkeeps, hiff.trans (loadSource_loads loads_nil name v).2.symm⟩
    | external descriptor params inputs =>
        have hhere := fun entry => hhash nid descriptor params inputs entry hkey
        obtain ⟨hkeeps, hiff⟩ := evalExternal_loads h hsame hhere params ins v
        exact ⟨hkeeps, hiff.trans (evalExternal_loads loads_nil hsame hhere params ins v).2.symm⟩
    | stage inputs members =>
        refine ⟨fun _ hok => ?_, iff_of_false ?_ ?_⟩
        · cases hok
        · rintro ⟨_, hok⟩
          cases hok
        · rintro ⟨_, hok⟩
          cases hok
    | op name params inputs =>
        obtain ⟨hkeeps, hiff⟩ := hop _ loaded h
        exact ⟨hkeeps, hiff.trans (hop _ ⟨[], []⟩ loads_nil).2.symm⟩
    | reduction name params inputs =>
        obtain ⟨hkeeps, hiff⟩ := hop _ loaded h
        exact ⟨hkeeps, hiff.trans (hop _ ⟨[], []⟩ loads_nil).2.symm⟩
    | exchange scheme inputs =>
        obtain ⟨hkeeps, hiff⟩ := hop _ loaded h
        exact ⟨hkeeps, hiff.trans (hop _ ⟨[], []⟩ loads_nil).2.symm⟩
    | join scheme inputs =>
        obtain ⟨hkeeps, hiff⟩ := hop _ loaded h
        exact ⟨hkeeps, hiff.trans (hop _ ⟨[], []⟩ loads_nil).2.symm⟩
  constructor
  · intro loaded loaded' nid key ins v hkey h hok
    obtain ⟨hkeeps, hiff⟩ := hgives hkey h
    exact ⟨hkeeps loaded' hok, hiff.mp ⟨loaded', hok⟩⟩
  · intro loaded nid key ins v hkey h hok
    exact (hgives hkey h).2.mpr hok

end Archive

end Graphed
