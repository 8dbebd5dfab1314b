import Graphed.Checkpoint.History
import Graphed.Preserve.Reproduction

/-!
# What a bundle reproduces

A bundle reproduces its analysis when every node the Session recorded has a value on what was packed,
and only then: a source no output reads, a callable no plugin keeps or an operation that raises
anywhere in the Session stops the reproduction, although no output depends on it.
-/

namespace Graphed

variable {V R H F : Type}

/-! ### One node -/

namespace Archive

variable {A : Archive V R H} {b : Bundle H} {nid : Nat} {ins : List V} {v : V}

theorem fresh_source {name : String} {params : ParamMap} :
    A.fresh b nid (.source name params) ins = .ok v ↔ ∃ contentHash blob,
      b.manifest.sources.lookup name = some contentHash ∧
        b.store.objects contentHash = some blob ∧ A.sha blob = contentHash ∧
          A.unpackArray blob = .ok v := by
  rw [← (loadSource_loads loads_nil name v).2]
  unfold fresh
  rw [map_eq_ok]
  constructor
  · rintro ⟨⟨w, loaded⟩, hok, rfl⟩
    exact ⟨loaded, hok⟩
  · rintro ⟨loaded, hok⟩
    exact ⟨_, hok, rfl⟩

theorem fresh_external {descriptor : PayloadDescriptor} {params : ParamMap} {inputs : List Nat}
    (hsame : SameStores b.manifest.externals)
    (hhash : ∀ entry, b.manifest.externals.find? (·.nodeId == nid) = some entry →
      entry.contentHash = descriptor.contentHash) :
    A.fresh b nid (.external descriptor params inputs) ins = .ok v ↔
      ∃ entry plugin blob r u, b.manifest.externals.find? (·.nodeId == nid) = some entry ∧
        params.entries.lookup "service" = none ∧ A.getPlugin descriptor.kind = some plugin ∧
          b.store.objects entry.store = some blob ∧ A.sha blob = entry.store ∧
            plugin.load blob params = .ok r ∧ plugin.evaluate r params ins = .ok u ∧
              A.checked nid entry.kind (A.declaredType entry.kind entry.outputType) ins u = .ok v := by
  rw [← (evalExternal_loads loads_nil hsame hhash params ins v).2]
  unfold fresh
  rw [map_eq_ok]
  constructor
  · rintro ⟨⟨w, loaded⟩, hok, rfl⟩
    exact ⟨loaded, hok⟩
  · rintro ⟨loaded, hok⟩
    exact ⟨_, hok, rfl⟩

end Archive

namespace Analysis

variable {A : Archive V R H} {a : Analysis F V H} {nid : Nat} {ins : List V} {v : V}

theorem recordedValue_source {name : String} {params : ParamMap} :
    a.recordedValue A nid (.source name params) ins = .ok v ↔ a.datasets.lookup name = some v := by
  unfold recordedValue
  dsimp only
  cases a.datasets.lookup name <;> simp

theorem recordedValue_external {descriptor : PayloadDescriptor} {params : ParamMap}
    {inputs : List Nat} :
    a.recordedValue A nid (.external descriptor params inputs) ins = .ok v ↔
      ∃ plugin blob r u, params.entries.lookup "service" = none ∧
        A.getPlugin descriptor.kind = some plugin ∧
          a.payload A descriptor.contentHash = some blob ∧ plugin.load blob params = .ok r ∧
            plugin.evaluate r params ins = .ok u ∧
              A.checked nid descriptor.kind
                (A.declaredType descriptor.kind (a.outputTypes nid)) ins u = .ok v := by
  unfold recordedValue
  dsimp only
  cases params.entries.lookup "service" with
  | some service => simp
  | none =>
      cases A.getPlugin descriptor.kind with
      | none => simp
      | some plugin =>
          cases a.payload A descriptor.contentHash with
          | none => simp
          | some blob =>
              constructor
              · intro hok
                obtain ⟨r, hr, hok⟩ := bind_ok hok
                obtain ⟨u, hu, hok⟩ := bind_ok hok
                exact ⟨plugin, blob, r, u, rfl, rfl, rfl, Archive.lift_eq_ok.mp hr,
                  Archive.lift_eq_ok.mp hu, hok⟩
              · rintro ⟨plugin', blob', r, u, -, hplugin, hblob, hr, hu, hok⟩
                obtain rfl := Option.some.inj hplugin
                obtain rfl := Option.some.inj hblob
                change (PreserveError.lift (plugin.load blob params) >>= _) = _
                rw [Archive.lift_eq_ok.mpr hr]
                change (PreserveError.lift (plugin.evaluate r params ins) >>= _) = _
                rw [Archive.lift_eq_ok.mpr hu]
                exact hok

/-! ### What was built -/

variable {ir : BlobData} {b : Bundle H}

theorem Built.find_entry (hbuilt : a.Built A ir b) {key : NodeKey}
    (hkey : a.nodes[nid]? = some key) :
    b.manifest.externals.find? (·.nodeId == nid) =
      A.entryFor (a.payload A) a.outputTypes (key, nid) := by
  rw [hbuilt.externals]
  exact Graphed.find_entry _ _ hkey

theorem Built.mem_externals (hbuilt : a.Built A ir b) {entry : ExternalEntry}
    (hentry : entry ∈ b.manifest.externals) :
    ∃ (nid : Nat) (descriptor : PayloadDescriptor) (params : ParamMap) (ins : List Nat)
      (plugin : ExternalPlugin V R) (blob : BlobData),
      a.nodes[nid]? = some (NodeKey.external descriptor params ins) ∧
        A.getPlugin descriptor.kind = some plugin ∧
          a.payload A descriptor.contentHash = some blob ∧
            entry.contentHash = descriptor.contentHash ∧ entry.store = A.sha blob := by
  rw [hbuilt.externals] at hentry
  obtain ⟨⟨key, nid⟩, hmem, hsome⟩ := List.mem_filterMap.mp hentry
  obtain ⟨descriptor, params, ins, plugin, blob, rfl, hplugin, hblob, rfl⟩ :=
    entryFor_eq_some.mp hsome
  exact ⟨nid, descriptor, params, ins, plugin, blob, List.mk_mem_zipIdx_iff_getElem?.mp hmem,
    hplugin, hblob, rfl, rfl⟩

theorem Built.sameStores (hbuilt : a.Built A ir b) : Archive.SameStores b.manifest.externals := by
  intro e he e' he' hhash
  obtain ⟨_, d, _, _, _, blob, -, -, hblob, hd, hstore⟩ := hbuilt.mem_externals he
  obtain ⟨_, d', _, _, _, blob', -, -, hblob', hd', hstore'⟩ := hbuilt.mem_externals he'
  rw [← hd, hhash, hd', hblob'] at hblob
  rw [hstore, hstore', Option.some.inj hblob]

theorem Built.entry_hash (hbuilt : a.Built A ir b) {descriptor : PayloadDescriptor}
    {params : ParamMap} {inputs : List Nat} {entry : ExternalEntry}
    (hkey : a.nodes[nid]? = some (.external descriptor params inputs))
    (hentry : b.manifest.externals.find? (·.nodeId == nid) = some entry) :
    entry.contentHash = descriptor.contentHash := by
  rw [hbuilt.find_entry hkey] at hentry
  obtain ⟨d, _, _, _, _, hd, -, -, rfl⟩ := entryFor_eq_some.mp hentry
  obtain ⟨rfl, -, -⟩ := NodeKey.external.inj hd
  rfl

/-- **One node, reproduced**: it gives what was recorded once the blobs it reads are there. -/
theorem Built.fresh_eq_ok (hbuilt : a.Built A ir b) (disk : Disk) {key : NodeKey}
    (hkey : a.nodes[nid]? = some key) :
    A.fresh { b with store := disk } nid key ins = .ok v ↔ a.recordedValue A nid key ins = .ok v ∧
      ∀ blob, a.NodeReads A key blob → disk.Intact A.sha (A.sha blob) := by
  have hop : ∀ x : Except PreserveError V,
      ((x.map (·, (⟨[], []⟩ : Loaded V R))).map Prod.fst = .ok v) = (x = .ok v) := by
    intro x
    cases x <;> rfl
  have hnone : ∀ P : Prop, P ↔ P ∧ ∀ blob, False → disk.Intact A.sha (A.sha blob) :=
    fun P => ⟨fun h => ⟨h, fun _ => False.elim⟩, And.left⟩
  cases key with
  | source name params =>
      rw [Archive.fresh_source, recordedValue_source]
      change (∃ contentHash blob, b.manifest.sources.lookup name = some contentHash ∧ _) ↔ _
      rw [hbuilt.sources, lookup_sources]
      constructor
      · rintro ⟨contentHash, blob, hname, hobject, hsha, hunpack⟩
        obtain ⟨w, hw, rfl⟩ := Option.map_eq_some_iff.mp hname
        obtain rfl := A.sha_injective hsha
        rw [A.unpack_pack] at hunpack
        obtain rfl := Except.ok.inj hunpack
        refine ⟨hw, ?_⟩
        rintro blob ⟨w', hw', rfl⟩
        obtain rfl := Option.some.inj (hw.symm.trans hw')
        exact ⟨_, hobject, rfl⟩
      · rintro ⟨hv, hintact⟩
        obtain ⟨blob, hobject, hsha⟩ := hintact _ ⟨v, hv, rfl⟩
        exact ⟨_, blob, by rw [hv]; rfl, hobject, hsha,
          (A.sha_injective hsha).symm ▸ A.unpack_pack v⟩
  | external descriptor params inputs =>
      rw [Archive.fresh_external (b := { b with store := disk }) hbuilt.sameStores fun entry => hbuilt.entry_hash hkey,
        recordedValue_external]
      change (∃ entry plugin blob r u, b.manifest.externals.find? _ = some entry ∧ _ ∧ _ ∧
        disk.objects entry.store = some blob ∧ _) ↔ _
      rw [hbuilt.find_entry hkey]
      constructor
      · rintro ⟨entry, plugin, blob, r, u, hentry, hservice, hplugin, hobject, hsha, hload, hu, hv⟩
        obtain ⟨d, _, _, _, packed, hd, -, hpacked, rfl⟩ := entryFor_eq_some.mp hentry
        obtain ⟨rfl, -, -⟩ := NodeKey.external.inj hd
        obtain rfl := A.sha_injective hsha
        refine ⟨⟨plugin, blob, r, u, hservice, hplugin, hpacked, hload, hu, hv⟩, ?_⟩
        rintro blob' ⟨-, hblob'⟩
        obtain rfl := Option.some.inj (hpacked.symm.trans hblob')
        exact ⟨blob, hobject, rfl⟩
      · rintro ⟨⟨plugin, blob, r, u, hservice, hplugin, hpacked, hload, hu, hv⟩, hintact⟩
        obtain ⟨held, hobject, hsha⟩ := hintact blob ⟨by rw [hplugin]; rfl, hpacked⟩
        obtain rfl := A.sha_injective hsha
        exact ⟨_, plugin, held, r, u,
          entryFor_eq_some.mpr ⟨descriptor, params, inputs, plugin, held, rfl, hplugin, hpacked, rfl⟩,
          hservice, hplugin, hobject, rfl, hload, hu, hv⟩
  | stage inputs members => exact iff_of_false nofun nofun
  | op name params inputs => exact (iff_of_eq (hop _)).trans (hnone _)
  | reduction name params inputs => exact (iff_of_eq (hop _)).trans (hnone _)
  | exchange scheme inputs => exact (iff_of_eq (hop _)).trans (hnone _)
  | join scheme inputs => exact (iff_of_eq (hop _)).trans (hnone _)

/-! ### The whole graph -/

theorem askedHistogram_mono {read read' : Nat → Except PreserveError V}
    (h : ∀ nid v, read nid = .ok v → read' nid = .ok v) {outputs : MarkedOutput}
    {histogram : Option H} {v : V} (hv : askedHistogram A read outputs histogram = .ok v) :
    askedHistogram A read' outputs histogram = .ok v := by
  unfold askedHistogram at hv ⊢
  cases histogram with
  | none => exact h _ _ hv
  | some spec =>
      cases houtput : outputs.weight with
      | none =>
          rw [houtput] at hv
          cases hv
      | some weight =>
          simp only [houtput] at hv
          obtain ⟨x, hx, hv⟩ := bind_ok hv
          obtain ⟨w, hw, hv⟩ := bind_ok hv
          dsimp only
          rw [h _ _ hx, h _ _ hw]
          exact hv

theorem asked_mono {read read' : Nat → Except PreserveError V}
    (h : ∀ nid v, read nid = .ok v → read' nid = .ok v) {outputs : MarkedOutput}
    {variations : Option (List (String × MarkedOutput))} {histogram : Option H} {r : Reproduced V}
    (hr : asked A read outputs variations histogram = .ok r) :
    asked A read' outputs variations histogram = .ok r := by
  unfold asked at hr ⊢
  cases variations with
  | none =>
      obtain ⟨v, hv, rfl⟩ := Archive.map_eq_ok.mp hr
      exact Archive.map_eq_ok.mpr ⟨v, askedHistogram_mono h hv, rfl⟩
  | some entries =>
      obtain ⟨byLabel, hmap, rfl⟩ := Archive.map_eq_ok.mp hr
      refine Archive.map_eq_ok.mpr ⟨byLabel, mapM_mono_ok (fun entry item hitem => ?_) hmap, rfl⟩
      obtain ⟨v, hv, rfl⟩ := Archive.map_eq_ok.mp hitem
      exact Archive.map_eq_ok.mpr ⟨v, askedHistogram_mono h hv, rfl⟩

/-- The blobs a reproduction reads. -/
def Reads (A : Archive V R H) (a : Analysis F V H) (ir blob : BlobData) : Prop :=
  blob = ir ∨ blob = a.sourcemap ∨ ∃ key ∈ a.nodes, a.NodeReads A key blob

/-- **What a reproduction returns**, on any store: it succeeds when every recorded node has a value
and every blob it reads is there, and then it gives the analysis. -/
theorem Built.reproduce_eq_ok (hbuilt : a.Built A ir b) (disk : Disk) (r : Reproduced V) :
    reproduce A { b with store := disk } = .ok r ↔
      (∀ blob, a.Reads A ir blob → disk.Intact A.sha (A.sha blob)) ∧
        (∀ nid < a.nodes.length, ∃ v, a.valueOf A nid = .ok v) ∧ a.result A = .ok r := by
  obtain ⟨t, ht, hnodes⟩ := hbuilt.graph
  let Q (key : NodeKey) : Prop := ∀ blob, a.NodeReads A key blob → disk.Intact A.sha (A.sha blob)
  have hnode : ∀ nid key (ins : List V) v, a.nodes[nid]? = some key →
      (A.fresh { b with store := disk } nid key ins = .ok v ↔
        a.recordedValue A nid key ins = .ok v ∧ Q key) :=
    fun nid key ins v hkey => hbuilt.fresh_eq_ok disk hkey
  obtain ⟨hsound, hcomplete⟩ := graphValue_agree hnode
  have hevaluates : (A.interpreter { b with store := disk }).Evaluates
      (A.fresh { b with store := disk }) (A.Loads { b with store := disk }) a.nodes :=
    Archive.interpreter_evaluates hbuilt.sameStores
      fun nid descriptor params ins entry => hbuilt.entry_hash
  have hresult : a.result A = .ok r ↔ asked A (a.valueOf A) b.manifest.outputs
      b.manifest.variations b.manifest.histogram = .ok r := by
    unfold result
    rw [hbuilt.outputs, hbuilt.variations, hbuilt.histogram]
  have hasked : ∀ vs : List V, (∀ nid v, Interpreter.read vs nid = .ok v ↔
      a.valueOf A nid = .ok v) → (asked A (Interpreter.read vs) b.manifest.outputs
        b.manifest.variations b.manifest.histogram = .ok r ↔ a.result A = .ok r) := by
    intro vs hvs
    rw [hresult]
    exact ⟨asked_mono fun nid v => (hvs nid v).mp, asked_mono fun nid v => (hvs nid v).mpr⟩
  have hrun : reproduce A { b with store := disk } = .ok r ↔
      disk.Intact A.sha (A.sha ir) ∧ disk.Intact A.sha (A.sha a.sourcemap) ∧
        ∃ loaded vs, (A.interpreter { b with store := disk }).runIr ⟨[], []⟩ a.nodes =
          .ok (loaded, vs) ∧ asked A (Interpreter.read vs) b.manifest.outputs b.manifest.variations
            b.manifest.histogram = .ok r := by
    unfold reproduce
    dsimp only
    rw [hbuilt.irName, hbuilt.provenance, ← hnodes]
    constructor
    · intro hok
      obtain ⟨irBlob, hirBlob, hgraph⟩ := bind_ok hok
      obtain ⟨hsame, hirIntact⟩ := (resolveBlob_sha A.sha_injective).mp hirBlob
      rw [hsame, ht] at hgraph
      change (resolveBlob A.sha disk _ _ >>= _) = _ at hgraph
      obtain ⟨sourcemap, hsourcemap, hvalues⟩ := bind_ok hgraph
      obtain ⟨⟨loaded, vs⟩, hvs, hok⟩ := bind_ok hvalues
      exact ⟨hirIntact, ((resolveBlob_sha A.sha_injective).mp hsourcemap).2, loaded, vs, hvs, hok⟩
    · rintro ⟨hirIntact, hsourcemap, loaded, vs, hvs, hok⟩
      rw [(resolveBlob_sha A.sha_injective).mpr ⟨rfl, hirIntact⟩]
      change ((deserialize ir).mapError _ >>= _) = _
      rw [ht]
      change (resolveBlob A.sha disk _ _ >>= _) = _
      rw [(resolveBlob_sha A.sha_injective).mpr ⟨rfl, hsourcemap⟩]
      change ((A.interpreter _).runIr _ _ >>= _) = _
      rw [hvs]
      exact hok
  rw [hrun]
  rcases Interpreter.runIr_cases hevaluates Archive.loads_nil with
    ⟨loaded, vs, hvs, -, hvalues⟩ | ⟨⟨e, herror⟩, nid, hnid, hnone⟩
  · have hread : ∀ nid v, Interpreter.read vs nid = .ok v ↔
        graphValue (A.fresh { b with store := disk }) a.nodes nid = .ok v := by
      intro nid v
      rw [Interpreter.read_eq_ok, ← hvalues]
      rfl
    have hfresh : ∀ nid < a.nodes.length, ∃ v,
        graphValue (A.fresh { b with store := disk }) a.nodes nid = .ok v := by
      intro nid hnid
      have hlength := congrArg List.length hvalues
      rw [length_graphValues, List.length_map] at hlength
      rw [hlength] at hnid
      exact ⟨vs[nid], (hread nid _).mp (by simp [Interpreter.read, hnid])⟩
    have hq : ∀ key ∈ a.nodes, Q key := by
      intro key hkey
      obtain ⟨nid, hnid, hget⟩ := List.mem_iff_getElem.mp hkey
      obtain ⟨v, hv⟩ := hfresh nid hnid
      exact (hsound nid key v (by rw [List.getElem?_eq_getElem hnid, hget]) hv).2
    have hagree := hcomplete hq
    have hvalueOf : ∀ nid v, Interpreter.read vs nid = .ok v ↔ a.valueOf A nid = .ok v :=
      fun nid v => (hread nid v).trans (hagree nid v)
    constructor
    · rintro ⟨hirIntact, hsourcemap, loaded', vs', hvs', hok⟩
      obtain ⟨-, rfl⟩ := Prod.ext_iff.mp (Except.ok.inj (hvs.symm.trans hvs'))
      refine ⟨?_, fun nid hnid => ?_, (hasked vs hvalueOf).mp hok⟩
      · rintro blob (rfl | rfl | ⟨key, hkey, hblob⟩)
        · exact hirIntact
        · exact hsourcemap
        · exact hq key hkey blob hblob
      · obtain ⟨v, hv⟩ := hfresh nid hnid
        exact ⟨v, (hagree nid v).mp hv⟩
    · rintro ⟨hblobs, -, hok⟩
      exact ⟨hblobs ir (Or.inl rfl), hblobs a.sourcemap (Or.inr (Or.inl rfl)), loaded, vs, hvs,
        (hasked vs hvalueOf).mpr hok⟩
  · refine iff_of_false ?_ ?_
    · rintro ⟨-, -, loaded, vs, hvs, -⟩
      rw [herror] at hvs
      cases hvs
    · rintro ⟨hblobs, hall, -⟩
      obtain ⟨v, hv⟩ := hall nid hnid
      exact hnone v ((hcomplete (fun key hkey blob hblob =>
        hblobs blob (Or.inr (Or.inr ⟨key, hkey, hblob⟩))) nid v).mpr hv)

/-! ### The bundle -/

/-- Building gives a bundle, reproducing it gives the analysis, and on any other store a
reproduction gives nothing else; it gives nothing when a dataset, a payload or the graph is missing
or altered. -/
def Preserved (A : Archive V R H) (root : Disk) (a : Analysis F V H) : Prop :=
  ∃ b r, buildBundle A root a = .ok b ∧ a.result A = .ok r ∧ reproduce A b = .ok r ∧
    ∀ disk : Disk, (∀ r', reproduce A { b with store := disk } = .ok r' → r' = r) ∧
      ((∃ contentHash ∈ b.manifest.blobs, ¬ disk.Intact A.sha contentHash) →
        ∃ e, reproduce A { b with store := disk } = .error e)

/-- What preserving an analysis takes: it is storable, every recorded node has a value on what is
packed, the outputs' values have the histograms asked for, and every dataset is read. -/
structure Reproducible (A : Archive V R H) (a : Analysis F V H) : Prop extends a.Storable A where
  evaluates : ∀ nid < a.nodes.length, ∃ v, a.valueOf A nid = .ok v
  asks : ∃ r, a.result A = .ok r
  read : ∀ marked ir, a.markedOutputs = .ok marked → serializeWith a.session.store marked = .ok ir →
    ∀ dataset ∈ a.datasets, a.Reads A ir (A.packArray dataset.2)

/-- A preserved analysis has values at every node of its Session. -/
theorem Preserved.evaluates {I : Inference F} (hkept : a.session.Kept I) {root : Disk}
    (hroot : root.Faithful A.sha) (h : a.Preserved A root) :
    ∀ nid < a.nodes.length, ∃ v, a.valueOf A nid = .ok v := by
  obtain ⟨b, r, hbuild, -, hreproduce, -⟩ := h
  rcases buildBundle_cases hkept hroot with ⟨ir, b', hbuild', hbuilt, -⟩ | ⟨⟨e, herror⟩, -⟩
  · obtain rfl := Except.ok.inj (hbuild.symm.trans hbuild')
    exact ((hbuilt.reproduce_eq_ok b.store r).mp hreproduce).2.1
  · rw [herror] at hbuild
    cases hbuild

theorem Built.held_of_reads (hbuilt : a.Built A ir b) {blob : BlobData} (h : a.Reads A ir blob) :
    b.store.Held A.sha blob := by
  rcases h with rfl | rfl | ⟨key, hkey, hblob⟩
  · exact hbuilt.irHeld
  · exact hbuilt.sourcemapHeld
  · cases key with
    | source name params =>
        obtain ⟨v, hv, rfl⟩ := hblob
        obtain ⟨before, after, heq, -⟩ := List.lookup_eq_some_iff.mp hv
        exact hbuilt.sourcesHeld (name, v) (heq ▸ List.mem_append_right _ List.mem_cons_self)
    | external descriptor params ins =>
        obtain ⟨hplugin, hpayload⟩ := hblob
        obtain ⟨plugin, hplugin⟩ := Option.isSome_iff_exists.mp hplugin
        exact hbuilt.payloadsHeld descriptor params ins plugin blob hkey hplugin hpayload
    | _ => exact hblob.elim

theorem Built.read_of_mem_blobs (hbuilt : a.Built A ir b)
    (hread : ∀ dataset ∈ a.datasets, a.Reads A ir (A.packArray dataset.2)) {contentHash : String}
    (h : contentHash ∈ b.manifest.blobs) : ∃ blob, a.Reads A ir blob ∧ contentHash = A.sha blob := by
  unfold Manifest.blobs at h
  rw [hbuilt.irName, hbuilt.sources, List.map_map] at h
  rcases List.mem_cons.mp h with rfl | h
  · exact ⟨ir, Or.inl rfl, rfl⟩
  · rcases List.mem_append.mp h with h | h
    · obtain ⟨dataset, hdataset, rfl⟩ := List.mem_map.mp h
      exact ⟨_, hread dataset hdataset, rfl⟩
    · obtain ⟨entry, hentry, rfl⟩ := List.mem_map.mp h
      obtain ⟨nid, descriptor, params, ins, plugin, blob, hkey, hplugin, hblob, -, hstore⟩ :=
        hbuilt.mem_externals hentry
      refine ⟨blob, Or.inr (Or.inr ⟨_, List.mem_of_getElem? hkey, ?_⟩), hstore⟩
      exact ⟨by rw [hplugin]; rfl, hblob⟩

/-- Numbers, which have no fields. -/
def numbers : Inference Unit where
  opForm op _ _ := if op = "fields" then .error "a number has no fields" else .ok ()
  hasRows _ := true
  fieldNames _ := []
  fields_known _ hok := by
    rw [if_pos rfl] at hok
    cases hok

/-- Numbers in unary, and an operation that doubles one. -/
def unary : Archive Nat Unit Unit where
  sha := spell
  packArray n := List.replicate n 0
  unpackArray blob := .ok blob.length
  getPlugin _ := none
  evalStage _ ins _ := .ok (ins.sum + ins.sum)
  checkOutputType _ _ _ _ := none
  histogram v _ _ := .ok v
  sha_injective := spell_injective
  unpack_pack n := by rw [List.length_replicate]

/-- The double of a source, and what else the Session recorded. -/
def doubled (rest : List (SessionCall Unit)) (h : 1 < (Session.record numbers
    ([.source "events" () ⟨0, none, true⟩ (.new []),
      .op "double" (by decide) (by decide) [0] (.new []) false none] ++ rest)).nodes.length) :
    Analysis Unit Nat Unit where
  session := Session.record numbers
    ([.source "events" () ⟨0, none, true⟩ (.new []),
      .op "double" (by decide) (by decide) [0] (.new []) false none] ++ rest)
  points := []
  outputTypes _ := none
  services := []
  sourcemap := []
  value := .plain ⟨1, h⟩
  weight := none
  datasets := [("events", 3)]
  payloads := []
  histogram := none

def alone : Analysis Unit Nat Unit := doubled [] (by decide)

def besideSource : Analysis Unit Nat Unit :=
  doubled [.source "other" () ⟨1, none, true⟩ (.new [])] (by decide)

end Analysis

end Graphed
