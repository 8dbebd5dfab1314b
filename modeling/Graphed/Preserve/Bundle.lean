import Graphed.Frontend.Session
import Graphed.Preserve.Interpreter
import Graphed.Systematics.Varied

/-!
# Preservation bundles

A bundle is a manifest and a content-addressed store. The manifest names by its hash every blob the
analysis is made of: the graph, the datasets, the payloads of the Externals and the source map.
Reproducing a bundle resolves them all from the store and interprets the graph.
-/

namespace Graphed

variable {V R H F : Type}

/-! ### What surrounds a bundle -/

/-- How payloads of one kind are hashed, loaded and evaluated. A payload may be derivable from its
node's parameters. What is loaded depends on a float only up to the bits of a NaN. -/
structure ExternalPlugin (V R : Type) where
  contentHash : BlobData → Except Raised String
  load : BlobData → ParamMap → Except Raised R
  evaluate : R → ParamMap → List V → Except Raised V
  synthesize : ParamMap → String → Except Raised (Option BlobData)
  outputDtype : Option String
  load_congr {blob : BlobData} {p q : ParamMap} : (p == q) = true → load blob p = load blob q

/-- The hash of blobs, the codec of arrays, the registered plugins, the backend and the histogram:
what is the same where a bundle is built and where it is reproduced. -/
structure Archive (V R H : Type) where
  sha : BlobData → String
  packArray : V → BlobData
  unpackArray : BlobData → Except Raised V
  getPlugin : String → Option (ExternalPlugin V R)
  evalStage : String → List V → ParamMap → Except Raised V
  checkOutputType : V → List V → String → String → Option String
  histogram : V → V → H → Except Raised V
  sha_injective : Function.Injective sha
  unpack_pack (v : V) : unpackArray (packArray v) = .ok v

/-- What a bundle is built of: the recorded Session, with the points of its labels, the element
types its Externals declared, the services it declared and the source map, and what the caller
gives. -/
structure Analysis (F V H : Type) where
  session : Session F
  points : PointRegistry
  outputTypes : Nat → Option String
  services : List ParamValue
  sourcemap : BlobData
  value : Operand (Fin session.nodes.length)
  weight : Option (Operand (Fin session.nodes.length))
  datasets : List (String × V)
  payloads : List (String × BlobData)
  histogram : Option H

/-! ### The manifest -/

structure ExternalEntry where
  nodeId : Nat
  kind : String
  contentHash : String
  store : String
  ioSchema : String
  outputType : Option String

/-- A universe's value and weight. -/
structure MarkedOutput where
  value : Nat
  weight : Option Nat
deriving DecidableEq

structure Manifest (H : Type) where
  formatVersion : Nat
  ir : String
  outputs : MarkedOutput
  histogram : Option H
  variations : Option (List (String × MarkedOutput))
  sources : List (String × String)
  externals : List ExternalEntry
  opaqueNodes : List Nat
  provenance : String

structure Bundle (H : Type) where
  manifest : Manifest H
  store : Disk

/-- The hashes of the datasets, the payloads and the graph a bundle is made of. -/
def Manifest.blobs (m : Manifest H) : List String :=
  m.ir :: (m.sources.map Prod.snd ++ m.externals.map ExternalEntry.store)

/-! ### Building -/

namespace Analysis

variable (a : Analysis F V H)

def nodes : List NodeKey := a.session.nodes

/-- One bundle holds every universe when the value or the weight varies. -/
def isVaried : Bool :=
  match a.weight with
  | none => false
  | some weight => a.value.isVaried || weight.isVaried

/-- The nodes of a value and a weight in one universe. -/
def outputsIn (weight : Operand (Fin a.session.nodes.length)) (label : String) : MarkedOutput :=
  ⟨(a.value.memberOf a.points label).val, some (weight.memberOf a.points label).val⟩

/-- The universes' outputs by label, none when nothing varies. -/
def labelOutputs : List (String × MarkedOutput) :=
  match a.weight with
  | none => []
  | some weight =>
      if a.isVaried then
        (unionLabels [a.value, weight]).map fun label => (label, a.outputsIn weight label)
      else []

/-- The manifest's outputs: the nominal universe's when something varies. -/
def outputs : Except PreserveError MarkedOutput :=
  match a.weight with
  | some weight => .ok (a.outputsIn weight "nominal")
  | none =>
      match a.value with
      | .plain value => .ok ⟨value, none⟩
      | .varied _ => .error .notArray

/-- The nodes the graph marks. -/
def markedOutputs : Except PreserveError (List Nat) :=
  if a.isVaried then .ok (a.labelOutputs.flatMap fun entry => entry.2.value :: entry.2.weight.toList)
  else a.outputs.map fun outputs => outputs.value :: outputs.weight.toList

end Analysis

/-- What storing the Externals leaves: the store, the payloads with those synthesized, the manifest
entries and the nodes no plugin keeps. -/
structure Storing where
  store : Disk
  payloads : List (String × BlobData)
  externals : List ExternalEntry
  opaqueNodes : List Nat

/-- The payloads, with one synthesized for a hash they lack. -/
def ExternalPlugin.supply (plugin : ExternalPlugin V R) (contentHash : String) (params : ParamMap)
    (payloads : List (String × BlobData)) : Except PreserveError (List (String × BlobData)) :=
  if (payloads.lookup contentHash).isSome then .ok payloads
  else (PreserveError.lift (plugin.synthesize params contentHash)).map fun synthesized =>
    payloads ++ synthesized.toList.map (contentHash, ·)

namespace Archive

variable (A : Archive V R H)

/-- Store one node's payload; its bytes must hash to the recorded id. -/
def storedExternal (outputTypes : Nat → Option String) (st : Storing) (node : NodeKey × Nat) :
    Except PreserveError Storing :=
  match node.1 with
  | .external descriptor params _ =>
      match A.getPlugin descriptor.kind with
      | none => .ok { st with opaqueNodes := st.opaqueNodes ++ [node.2] }
      | some plugin => do
          let payloads ← plugin.supply descriptor.contentHash params st.payloads
          match payloads.lookup descriptor.contentHash with
          | none => .error (.noPayload descriptor.contentHash node.2)
          | some blob =>
              let actual ← PreserveError.lift (plugin.contentHash blob)
              if actual ≠ descriptor.contentHash then
                .error (.mismatched node.2 actual descriptor.contentHash)
              else
                .ok { st with
                  store := (st.store.put A.sha blob).2
                  payloads
                  externals := st.externals ++ [⟨node.2, descriptor.kind, descriptor.contentHash,
                    A.sha blob, descriptor.ioSchema, outputTypes node.2⟩] }
  | _ => .ok st

def storedExternals (outputTypes : Nat → Option String) (store : Disk)
    (payloads : List (String × BlobData)) (nodes : List NodeKey) : Except PreserveError Storing :=
  nodes.zipIdx.foldlM (A.storedExternal outputTypes) ⟨store, payloads, [], []⟩

/-- The datasets' hashes, and the store with their arrays. -/
def storedSources (store : Disk) (datasets : List (String × V)) : Disk :=
  datasets.foldl (fun store dataset => (store.put A.sha (A.packArray dataset.2)).2) store

end Archive

/-- The service an External names. -/
def NodeKey.service : NodeKey → Option ParamValue
  | .external _ params _ => params.entries.lookup "service"
  | _ => none

/-- A service the nodes name and the Session did not declare is refused. -/
def referencedServices (declared : List ParamValue) (nodes : List NodeKey) :
    Except PreserveError Unit :=
  match (nodes.filterMap NodeKey.service).find? fun service => !declared.contains service with
  | some service => .error (.undeclared service)
  | none => .ok ()

/-- Capture a recorded analysis in a store. -/
def buildBundle (A : Archive V R H) (root : Disk) (a : Analysis F V H) :
    Except PreserveError (Bundle H) :=
  if a.weight.isNone != a.histogram.isNone then .error .unpaired
  else do
    let marked ← a.markedOutputs
    let outputs ← a.outputs
    let ir ← (serializeWith a.session.store marked).mapError PreserveError.encoding
    let graph ← (deserialize ir).mapError PreserveError.decoding
    let store := A.storedSources (root.put A.sha ir).2 a.datasets
    let stored ← A.storedExternals a.outputTypes store a.payloads graph.nodes
    referencedServices a.services graph.nodes
    pure
      { store := (stored.store.put A.sha a.sourcemap).2
        manifest :=
          { formatVersion := if a.isVaried then 2 else 1
            ir := A.sha ir
            outputs
            histogram := a.histogram
            variations := if a.isVaried then
                some (a.labelOutputs.insertionSort fun x y => x.1 ≤ y.1)
              else none
            sources := a.datasets.map fun dataset => (dataset.1, A.sha (A.packArray dataset.2))
            externals := stored.externals
            opaqueNodes := stored.opaqueNodes
            provenance := A.sha a.sourcemap } }

/-! ### Reproducing -/

/-- The blob of a hash; one that is not there under it is refused. -/
def resolveBlob (sha : BlobData → String) (store : Disk) (what contentHash : String) :
    Except PreserveError BlobData :=
  match (store.get sha contentHash).1 with
  | none => .error (.unresolved what contentHash)
  | some blob => .ok blob

/-- What a run has loaded: arrays by source name, and payloads by kind, hash and parameters. -/
structure Loaded (V R : Type) where
  data : List (String × V)
  resources : List ((String × String × ParamMap) × R)

/-- A payload's resource, loaded once for each set of parameters. -/
def ExternalPlugin.resource (plugin : ExternalPlugin V R) (blob : BlobData)
    (key : String × String × ParamMap) (loaded : Loaded V R) :
    Except PreserveError (R × Loaded V R) :=
  match loaded.resources.find? (·.1 == key) with
  | some item => .ok (item.2, loaded)
  | none => (PreserveError.lift (plugin.load blob key.2.2)).map fun r =>
      (r, { loaded with resources := loaded.resources ++ [(key, r)] })

namespace Archive

variable (A : Archive V R H)

/-- A source's array, unpacked once. -/
def loadSource (b : Bundle H) (loaded : Loaded V R) (name : String) :
    Except PreserveError (V × Loaded V R) :=
  match b.manifest.sources.lookup name with
  | none => .error (.unresolved "dataset for source" name)
  | some contentHash =>
      match loaded.data.lookup name with
      | some v => .ok (v, loaded)
      | none => do
          let blob ← resolveBlob A.sha b.store "dataset" contentHash
          let v ← PreserveError.lift (A.unpackArray blob)
          pure (v, { loaded with data := loaded.data ++ [(name, v)] })

/-- The type an External's value must have: the one it declared, or its plugin's. -/
def declaredType (kind : String) (outputType : Option String) : Option (String × String) :=
  match outputType with
  | some declared => some ("output_type", declared)
  | none => ((A.getPlugin kind).bind (·.outputDtype)).map ("output_dtype", ·)

/-- Refuse a value that is not of the declared type. -/
def checked (nid : Nat) (kind : String) (declared : Option (String × String)) (ins : List V)
    (v : V) : Except PreserveError V :=
  match declared with
  | none => .ok v
  | some (key, type) =>
      match A.checkOutputType v ins key type with
      | none => .ok v
      | some actual => .error (.outputType nid kind key type actual)

/-- An External's value, from the payload its manifest entry names. -/
def evalExternal (b : Bundle H) (loaded : Loaded V R) (nid : Nat)
    (descriptor : PayloadDescriptor) (params : ParamMap) (ins : List V) :
    Except PreserveError (V × Loaded V R) :=
  match b.manifest.externals.find? (·.nodeId == nid) with
  | none => .error (.notInManifest nid)
  | some entry =>
      match params.entries.lookup "service" with
      | some service => .error (.callsService nid service)
      | none => do
          let blob ← resolveBlob A.sha b.store (entry.kind ++ " payload") entry.store
          match A.getPlugin descriptor.kind with
          | none => .error (.noPlugin descriptor.kind)
          | some plugin =>
              let (r, loaded) ← plugin.resource blob
                (descriptor.kind, descriptor.contentHash, params) loaded
              let v ← PreserveError.lift (plugin.evaluate r params ins)
              let v ← A.checked nid entry.kind (A.declaredType entry.kind entry.outputType) ins v
              pure (v, loaded)

/-- How a bundle's graph is interpreted. -/
def interpreter (b : Bundle H) : Interpreter (Loaded V R) V where
  source := A.loadSource b
  external := A.evalExternal b
  evalOp name ins params := PreserveError.lift (A.evalStage name ins params)

end Archive

/-- What a reproduction returns: one value, or one for each universe. -/
inductive Reproduced (V : Type) where
  | single (v : V)
  | universes (byLabel : List (String × V))

/-- The histogram an analysis asks of some values, each read by its node id. -/
def askedHistogram (A : Archive V R H) (read : Nat → Except PreserveError V) (outputs : MarkedOutput)
    (histogram : Option H) : Except PreserveError V :=
  match histogram, outputs.weight with
  | some spec, some weight => do
      let v ← read outputs.value
      let w ← read weight
      PreserveError.lift (A.histogram v w spec)
  | some _, none => .error .unpaired
  | none, _ => read outputs.value

/-- What an analysis asks of some values: one histogram, or one for each universe. -/
def asked (A : Archive V R H) (read : Nat → Except PreserveError V) (outputs : MarkedOutput)
    (variations : Option (List (String × MarkedOutput))) (histogram : Option H) :
    Except PreserveError (Reproduced V) :=
  match variations with
  | some entries =>
      (entries.mapM fun entry =>
        (askedHistogram A read entry.2 histogram).map (entry.1, ·)).map .universes
  | none => (askedHistogram A read outputs histogram).map .single

/-- Re-run a bundle from its manifest and its store alone. -/
def reproduce (A : Archive V R H) (b : Bundle H) : Except PreserveError (Reproduced V) := do
  let ir ← resolveBlob A.sha b.store "IR" b.manifest.ir
  let graph ← (deserialize ir).mapError PreserveError.decoding
  let _ ← resolveBlob A.sha b.store "sourcemap" b.manifest.provenance
  let (_, values) ← (A.interpreter b).runIr ⟨[], []⟩ graph.nodes
  asked A (Interpreter.read values) b.manifest.outputs b.manifest.variations b.manifest.histogram

end Graphed
