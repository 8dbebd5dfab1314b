import Graphed.Checkpoint.Store
import Graphed.Core.Serialize
import Graphed.Library.BottomUp

/-!
# The IR interpreter

A preserved graph is run node by node in id order, every node once. What a node is worth is a
function of the values of its inputs; an interpreter may keep a state beside, such as what it has
loaded, as long as no value depends on it.
-/

namespace Graphed

/-- What building and reproducing a bundle raise. -/
inductive PreserveError where
  | unpaired
  | notArray
  | encoding (e : EncodeError)
  | decoding (e : DecodeError)
  | unresolved (what contentHash : String)
  | noPayload (contentHash : String) (node : Nat)
  | mismatched (node : Nat) (actual recorded : String)
  | undeclared (service : ParamValue)
  | notInManifest (node : Nat)
  | callsService (node : Nat) (service : ParamValue)
  | noPlugin (kind : String)
  | outputType (node : Nat) (kind key declared actual : String)
  | stage (node : Nat)
  | unevaluated (node : Nat)
  | raised (e : Raised)

/-- What the backend or a plugin raises. -/
def PreserveError.lift {α : Type} (x : Except Raised α) : Except PreserveError α :=
  x.mapError .raised

/-- The name and the parameters an operation or a boundary is evaluated with; what has no name is
evaluated under its kind. -/
def NodeKey.evaluated : NodeKey → Option (String × ParamMap)
  | .op name params _ => some (if name = "" then "op" else name, params)
  | .reduction name params _ => some (if name = "" then "reduction" else name, params)
  | .exchange scheme _ => some ("exchange", scheme)
  | .join scheme _ => some ("join", scheme)
  | _ => none

/-- How nodes are evaluated, beside a state. -/
structure Interpreter (σ V : Type) where
  source : σ → String → Except PreserveError (V × σ)
  external : σ → Nat → PayloadDescriptor → ParamMap → List V → Except PreserveError (V × σ)
  evalOp : String → List V → ParamMap → Except PreserveError V

namespace Interpreter

variable {σ V : Type} (h : Interpreter σ V)

/-- One node, on the values of its inputs. -/
def value (s : σ) (nid : Nat) (key : NodeKey) (ins : List V) : Except PreserveError (V × σ) :=
  match key with
  | .source name _ => h.source s name
  | .external descriptor params _ => h.external s nid descriptor params ins
  | .stage _ _ => .error (.stage nid)
  | key =>
      match key.evaluated with
      | some (name, params) => (h.evalOp name ins params).map (·, s)
      | none => .error (.stage nid)

/-- Read a value computed before. -/
def read (values : List V) (nid : Nat) : Except PreserveError V :=
  (values[nid]?).elim (.error (.unevaluated nid)) .ok

/-- The turn of one node; the values are kept by node id. -/
def turn (state : σ × List V) (key : NodeKey) : Except PreserveError (σ × List V) := do
  let ins ← key.inputs.mapM (read state.2)
  let (v, s) ← h.value state.1 state.2.length key ins
  pure (s, state.2 ++ [v])

/-- Evaluate every node in id order. -/
def runIr (s : σ) (nodes : List NodeKey) : Except PreserveError (σ × List V) :=
  nodes.foldlM h.turn (s, [])

end Interpreter

/-! ### The values of a graph -/

section Graph

variable {V : Type} (eval : Nat → NodeKey → List V → Except PreserveError V)

/-- The values of a graph's nodes, each from the values of its inputs. -/
def graphValues (nodes : List NodeKey) : List (Except PreserveError V) :=
  BottomUp.results (fun x : NodeKey × Nat => x.1.inputs)
    (fun x ins => ins.mapM id >>= eval x.2 x.1) (.error (.unevaluated 0)) nodes.zipIdx

def graphValue (nodes : List NodeKey) (nid : Nat) : Except PreserveError V :=
  (graphValues eval nodes).getD nid (.error (.unevaluated 0))

/-- On the nodes of a graph an interpreter gives what `eval` gives, and its state keeps the
invariant. -/
structure Interpreter.Evaluates {σ : Type} (h : Interpreter σ V) (Inv : σ → Prop)
    (nodes : List NodeKey) : Prop where
  sound {s s' : σ} {nid : Nat} {key : NodeKey} {ins : List V} {v : V} : nodes[nid]? = some key →
    Inv s → h.value s nid key ins = .ok (v, s') → Inv s' ∧ eval nid key ins = .ok v
  complete {s : σ} {nid : Nat} {key : NodeKey} {ins : List V} {v : V} : nodes[nid]? = some key →
    Inv s → eval nid key ins = .ok v → ∃ s', h.value s nid key ins = .ok (v, s')

variable {eval}

theorem graphValues_concat (nodes : List NodeKey) (key : NodeKey) :
    graphValues eval (nodes ++ [key]) = graphValues eval nodes ++
      [(key.inputs.map (graphValue eval nodes)).mapM id >>= eval nodes.length key] := by
  unfold graphValues graphValue
  rw [List.zipIdx_append, List.zipIdx_singleton, Nat.zero_add, BottomUp.results_concat]
  rfl

@[simp]
theorem length_graphValues (nodes : List NodeKey) :
    (graphValues eval nodes).length = nodes.length := by
  unfold graphValues
  rw [BottomUp.length_results, List.length_zipIdx]

theorem graphValue_concat {nodes : List NodeKey} (key : NodeKey) {nid : Nat}
    (hnid : nid < nodes.length) :
    graphValue eval (nodes ++ [key]) nid = graphValue eval nodes nid := by
  unfold graphValue
  rw [graphValues_concat, List.getD_eq_getElem?_getD, List.getD_eq_getElem?_getD,
    List.getElem?_append_left (by rwa [length_graphValues])]

theorem graphValue_last (nodes : List NodeKey) (key : NodeKey) :
    graphValue eval (nodes ++ [key]) nodes.length =
      (key.inputs.map (graphValue eval nodes)).mapM id >>= eval nodes.length key := by
  unfold graphValue
  rw [graphValues_concat, List.getD_eq_getElem?_getD,
    List.getElem?_append_right (by rw [length_graphValues]), length_graphValues, Nat.sub_self]
  rfl

theorem graphValue_of_le {nodes : List NodeKey} {nid : Nat} (h : nodes.length ≤ nid) :
    graphValue eval nodes nid = .error (.unevaluated 0) := by
  unfold graphValue
  rw [List.getD_eq_getElem?_getD, List.getElem?_eq_none (by rwa [length_graphValues])]
  rfl

theorem bind_ok {ε α β : Type} {x : Except ε α} {f : α → Except ε β} {b : β}
    (h : x >>= f = .ok b) : ∃ a, x = .ok a ∧ f a = .ok b := by
  cases x with
  | error e => cases h
  | ok a => exact ⟨a, rfl, h⟩

theorem mapM_mono_ok {ε α β : Type} {f g : α → Except ε β} (h : ∀ a b, f a = .ok b → g a = .ok b)
    {xs : List α} {bs : List β} (hf : xs.mapM f = .ok bs) : xs.mapM g = .ok bs := by
  induction xs generalizing bs with
  | nil => exact hf
  | cons x xs ih =>
      rw [List.mapM_cons] at hf ⊢
      obtain ⟨b, hb, hrest⟩ := bind_ok hf
      obtain ⟨rest, hmap, hbs⟩ := bind_ok hrest
      rw [h x b hb, ← hbs]
      change (xs.mapM g >>= fun rest => pure (b :: rest)) = _
      rw [ih hmap]
      rfl

/-- Values that agree node by node, but for nodes `Q` refuses, agree over a graph. -/
theorem graphValue_agree {eval' : Nat → NodeKey → List V → Except PreserveError V}
    {Q : NodeKey → Prop} {nodes : List NodeKey}
    (h : ∀ nid key ins v, nodes[nid]? = some key →
      (eval nid key ins = .ok v ↔ eval' nid key ins = .ok v ∧ Q key)) :
    (∀ nid key v, nodes[nid]? = some key → graphValue eval nodes nid = .ok v →
      graphValue eval' nodes nid = .ok v ∧ Q key) ∧
    ((∀ key ∈ nodes, Q key) → ∀ nid v, graphValue eval nodes nid = .ok v ↔
      graphValue eval' nodes nid = .ok v) := by
  induction nodes using List.reverseRecOn with
  | nil =>
      refine ⟨fun nid key v hkey => absurd hkey (by simp), fun _ nid v => ?_⟩
      exact iff_of_false nofun nofun
  | append_singleton nodes key ih =>
      obtain ⟨ihsound, ihcomplete⟩ := ih fun nid k ins v hk => h nid k ins v (by
        rw [List.getElem?_append_left (List.getElem?_eq_some_iff.mp hk).1, hk])
      have hkey : (nodes ++ [key])[nodes.length]? = some key := by simp
      have hlater : ∀ {e : Nat → NodeKey → List V → Except PreserveError V} {nid : Nat} {v : V},
          graphValue e nodes nid = .ok v → nid < nodes.length := by
        intro e nid v hv
        by_contra hge
        rw [graphValue_of_le (Nat.le_of_not_lt hge)] at hv
        cases hv
      constructor
      · intro nid k v hk hv
        rcases Nat.lt_trichotomy nid nodes.length with hlt | rfl | hgt
        · rw [graphValue_concat key hlt] at hv ⊢
          rw [List.getElem?_append_left hlt] at hk
          exact ihsound nid k v hk hv
        · obtain rfl := Option.some.inj (hkey.symm.trans hk)
          rw [graphValue_last] at hv ⊢
          obtain ⟨ins, hins, heval⟩ := bind_ok hv
          obtain ⟨heval', hq⟩ := (h _ _ _ _ hkey).mp heval
          rw [List.mapM_map] at hins ⊢
          have hins' := mapM_mono_ok (g := graphValue eval' nodes) (fun nid v hnid =>
            (ihsound nid _ v (List.getElem?_eq_getElem (hlater hnid)) hnid).1) hins
          change key.inputs.mapM (graphValue eval' nodes) = _ at hins'
          refine ⟨?_, hq⟩
          change (key.inputs.mapM (graphValue eval' nodes) >>= _) = _
          rw [hins']
          exact heval'
        · rw [List.getElem?_eq_none (by simpa using Nat.succ_le_of_lt hgt)] at hk
          cases hk
      · intro hall nid v
        have hnodes := ihcomplete fun k hk => hall k (List.mem_append_left _ hk)
        have hq := hall key (by simp)
        rcases Nat.lt_trichotomy nid nodes.length with hlt | rfl | hgt
        · rw [graphValue_concat key hlt, graphValue_concat key hlt]
          exact hnodes nid v
        · rw [graphValue_last, graphValue_last, List.mapM_map, List.mapM_map]
          constructor
          · intro hv
            obtain ⟨ins, hins, heval⟩ := bind_ok hv
            have hins' := mapM_mono_ok (g := graphValue eval' nodes)
              (fun nid v => (hnodes nid v).mp) hins
            change (key.inputs.mapM (graphValue eval' nodes) >>= _) = _
            rw [hins']
            exact ((h _ _ _ _ hkey).mp heval).1
          · intro hv
            obtain ⟨ins, hins, heval⟩ := bind_ok hv
            have hins' := mapM_mono_ok (g := graphValue eval nodes)
              (fun nid v => (hnodes nid v).mpr) hins
            change (key.inputs.mapM (graphValue eval nodes) >>= _) = _
            rw [hins']
            exact (h _ _ _ _ hkey).mpr ⟨heval, hq⟩
        · have hle : (nodes ++ [key]).length ≤ nid := by simpa using Nat.succ_le_of_lt hgt
          rw [graphValue_of_le hle, graphValue_of_le hle]

namespace Interpreter

/-- Reading back values that are all there. -/
theorem read_eq_ok {vs : List V} {nid : Nat} {v : V} :
    read vs nid = .ok v ↔
      (vs.map .ok : List (Except PreserveError V)).getD nid (.error (.unevaluated 0)) = .ok v := by
  unfold read
  rw [List.getD_eq_getElem?_getD, List.getElem?_map]
  cases vs[nid]? <;> simp

/-- **A run** evaluates the whole graph: it has the values of all nodes, and it fails when one of
them has none. -/
theorem runIr_cases {σ : Type} {h : Interpreter σ V} {Inv : σ → Prop} {nodes : List NodeKey}
    (heval : h.Evaluates eval Inv nodes) {s : σ} (hs : Inv s) :
    (∃ s' vs, h.runIr s nodes = .ok (s', vs) ∧ Inv s' ∧ graphValues eval nodes = vs.map .ok) ∨
      (∃ e, h.runIr s nodes = .error e) ∧
        ∃ nid < nodes.length, ∀ v, graphValue eval nodes nid ≠ .ok v := by
  induction nodes using List.reverseRecOn with
  | nil => exact Or.inl ⟨s, [], rfl, hs, rfl⟩
  | append_singleton nodes key ih =>
      have hrun : h.runIr s (nodes ++ [key]) = h.runIr s nodes >>= fun state => h.turn state key := by
        unfold runIr
        rw [List.foldlM_append]
        simp
      have hlater : ∀ {nid : Nat} {k : NodeKey}, nodes[nid]? = some k →
          (nodes ++ [key])[nid]? = some k := by
        intro nid k hk
        rw [List.getElem?_append_left (List.getElem?_eq_some_iff.mp hk).1, hk]
      have hkey : (nodes ++ [key])[nodes.length]? = some key := by simp
      rcases ih ⟨fun hk => heval.sound (hlater hk), fun hk => heval.complete (hlater hk)⟩ with
        ⟨s', vs, hok, hinv, hvalues⟩ | ⟨⟨e, herror⟩, nid, hnid, hnone⟩
      · have hlength : vs.length = nodes.length := by
          have hlengths := congrArg List.length hvalues
          rw [length_graphValues, List.length_map] at hlengths
          exact hlengths.symm
        have hlast : graphValue eval (nodes ++ [key]) nodes.length =
            (key.inputs.map (graphValue eval nodes)).mapM id >>= eval nodes.length key :=
        graphValue_last nodes key
        have hins : ∀ ins, key.inputs.mapM (read vs) = .ok ins ↔
            (key.inputs.map (graphValue eval nodes)).mapM id = .ok ins := by
          intro ins
          rw [List.mapM_map]
          have hread : ∀ nid v, read vs nid = .ok v ↔ graphValue eval nodes nid = .ok v := by
            intro nid v
            rw [read_eq_ok, ← hvalues]
            rfl
          exact ⟨mapM_mono_ok fun nid v => (hread nid v).mp, mapM_mono_ok fun nid v => (hread nid v).mpr⟩
        rw [hrun, hok]
        change (∃ s' vs, h.turn _ _ = _ ∧ _) ∨ (∃ e, h.turn _ _ = _) ∧ _
        unfold turn
        cases hread : key.inputs.mapM (read vs) with
        | error e =>
            refine Or.inr ⟨⟨e, rfl⟩, nodes.length, by simp, fun v hv => ?_⟩
            rw [hlast] at hv
            obtain ⟨ins, hmap, -⟩ := bind_ok hv
            rw [(hins ins).mpr hmap] at hread
            cases hread
        | ok ins =>
            rw [(hins ins).mp hread] at hlast
            change graphValue eval (nodes ++ [key]) nodes.length = eval nodes.length key ins at hlast
            cases hvalue : h.value s' vs.length key ins with
            | error e =>
                refine Or.inr ⟨⟨e, by simp [hvalue, bind, Except.bind]⟩,
                  nodes.length, by simp, fun v hv => ?_⟩
                rw [hlast] at hv
                obtain ⟨s'', hok'⟩ := heval.complete hkey hinv hv
                rw [← hlength, hvalue] at hok'
                cases hok'
            | ok result =>
                obtain ⟨v, s''⟩ := result
                rw [hlength] at hvalue
                obtain ⟨hinv', hv⟩ := heval.sound hkey hinv hvalue
                refine Or.inl ⟨s'', vs ++ [v], ?_, hinv', ?_⟩
                · simp [hlength, hvalue, bind, Except.bind, pure, Except.pure]
                · rw [graphValues_concat, hvalues, List.map_append, (hins ins).mp hread]
                  exact congrArg (vs.map .ok ++ [·]) hv
      · refine Or.inr ⟨⟨e, by rw [hrun, herror]; rfl⟩, nid, ?_, ?_⟩
        · rw [List.length_append]
          exact Nat.lt_add_right _ hnid
        · rwa [graphValue_concat key hnid]

end Interpreter

end Graph

end Graphed
