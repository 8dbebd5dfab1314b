import Graphed.Optimizer.Passes

/-!
# The rewrite rules

The equivalence the engine's rules generate on a graph's nodes: congruence, the commute rule on
symmetric operators of two inputs, and the identity rule on identity operators of one. An e-graph
merges nodes only by congruence and the rules it is given, which is what `Sound` says of the engine.
-/

namespace Graphed

/-- The tokens the commute rules match. -/
def symmetricTokens : List String := symmetricOps.map ("op|" ++ ·)

/-- Nodes the rules make equal. -/
inductive RuleEq (g : EngineGraph) : Nat → Nat → Prop
  | refl (i : Nat) : RuleEq g i i
  | symm {i j : Nat} : RuleEq g i j → RuleEq g j i
  | trans {i j k : Nat} : RuleEq g i j → RuleEq g j k → RuleEq g i k
  | congr {i j : Nat} {m n : EngineNode} (hi : g.nodes[i]? = some m) (hj : g.nodes[j]? = some n)
      (htoken : m.token = n.token) (hlen : m.inputs.length = n.inputs.length)
      (hins : ∀ k x y : Nat, m.inputs[k]? = some x → n.inputs[k]? = some y → RuleEq g x y) :
      RuleEq g i j
  | commute {i j : Nat} {m n : EngineNode} {a b a' b' : Nat} (hi : g.nodes[i]? = some m)
      (hj : g.nodes[j]? = some n) (htoken : m.token = n.token) (hsym : m.token ∈ symmetricTokens)
      (hm : m.inputs = [a, b]) (hn : n.inputs = [b', a']) (ha : RuleEq g a a')
      (hb : RuleEq g b b') : RuleEq g i j
  | identity {i x : Nat} {m : EngineNode} (hi : g.nodes[i]? = some m)
      (htoken : m.token ∈ identityTokens) (hm : m.inputs = [x]) : RuleEq g i x

/-- The engine merges nothing the rules do not make equal. -/
def EggEngine.Sound (engine : EggEngine) : Prop :=
  ∀ g : EngineGraph, g.Topological → ∀ i < g.nodes.length, ∀ j < g.nodes.length,
    engine.eclass g i = engine.eclass g j → RuleEq g i j

/-- The engine merges everything the rules make equal: the runner reached saturation. -/
def EggEngine.Saturated (engine : EggEngine) : Prop :=
  ∀ g : EngineGraph, g.Topological → ∀ i < g.nodes.length, ∀ j < g.nodes.length,
    RuleEq g i j → engine.eclass g i = engine.eclass g j

/-! ### Tokens of the rules -/

theorem token_symmetric {name : String} (hname : name ∈ symmetricOps) (ins : List Nat) :
    (NodeKey.op name (.new []) ins).token = "op|" ++ name := by
  have hall : ∀ name ∈ symmetricOps, (NodeKey.op name (.new []) []).token = "op|" ++ name := by
    decide
  exact hall name hname

/-- The operator whose parameters are empty. -/
theorem isEmpty_of_canon {p : ParamMap} (h : p.canon = (ParamMap.new []).canon) :
    p.isEmpty = true := by
  rw [← ParamMap.isEmpty_canon p, h]
  rfl

/-- The commute rules match exactly the symmetric nodes. -/
theorem isSymmetric_iff (key : NodeKey) :
    isSymmetric key = true ↔ key.token ∈ symmetricTokens ∧ key.inputs.length = 2 := by
  constructor
  · intro h
    cases key with
    | op name params ins =>
        simp only [isSymmetric, Bool.and_eq_true, beq_iff_eq, List.contains_iff_mem] at h
        obtain ⟨⟨hlen, hempty⟩, hname⟩ := h
        have hparams : params = .new [] := by
          ext1
          exact List.isEmpty_iff.mp hempty
        refine ⟨List.mem_map.mpr ⟨name, hname, ?_⟩, hlen⟩
        rw [hparams, token_symmetric hname]
    | _ => exact absurd h (by simp [isSymmetric])
  · rintro ⟨htoken, hlen⟩
    obtain ⟨name, hname, heq⟩ := List.mem_map.mp htoken
    rw [← token_symmetric hname [], NodeKey.token_inj] at heq
    cases key with
    | op name' params ins =>
        simp only [NodeKey.operator, NodeKey.canon, NodeKey.withInputs, NodeKey.op.injEq,
          and_true] at heq
        obtain ⟨rfl, hparams⟩ := heq
        simp only [isSymmetric, Bool.and_eq_true, beq_iff_eq, List.contains_iff_mem]
        exact ⟨⟨hlen, isEmpty_of_canon hparams.symm⟩, hname⟩
    | _ => simp [NodeKey.operator, NodeKey.canon, NodeKey.withInputs] at heq

theorem prefix_token_op {key : NodeKey} (h : key.isBoundary = false) :
    "op|".toList <+: key.token.toList := by
  cases key with
  | op name params ins =>
      simp only [NodeKey.token, withParams]
      split_ifs <;> simp [List.append_assoc]
  | _ => exact absurd h (by simp [NodeKey.isBoundary])

/-- The engine reads off the token whether a node is a boundary. -/
theorem boundaryFromToken_token (key : NodeKey) :
    boundaryFromToken key.token = key.isBoundary := by
  cases hb : key.isBoundary with
  | false =>
      have hpre := List.isPrefixOf_iff_prefix.mpr (prefix_token_op hb)
      rw [boundaryFromToken, hpre]
      rfl
  | true =>
      have hnot : "op|".toList.isPrefixOf key.token.toList = false := by
        cases key with
        | op name params ins => exact absurd hb (by simp [NodeKey.isBoundary])
        | stage ins members => simp [NodeKey.token, List.isPrefixOf]
        | _ =>
            simp only [NodeKey.token, withParams]
            split_ifs <;> simp [List.isPrefixOf]
      rw [boundaryFromToken, hnot]
      rfl

/-- Identity tokens are operators' tokens. -/
theorem isBoundary_of_identity {key : NodeKey} (h : key.token ∈ identityTokens) :
    key.isBoundary = false := by
  rw [← boundaryFromToken_token]
  have hall : ∀ t ∈ identityTokens, boundaryFromToken t = false := by decide
  exact hall _ h

theorem notMem_symmetric_of_identity {t : String} (h : t ∈ identityTokens) :
    t ∉ symmetricTokens := by
  have hall : ∀ t ∈ identityTokens, t ∉ symmetricTokens := by decide
  exact hall t h

/-! ### Graphs of node keys -/

theorem tagged_toEngineGraph (keys : List NodeKey) (outputs : List Nat) :
    (toEngineGraph keys outputs).Tagged := by
  intro node hnode
  obtain ⟨key, -, rfl⟩ := List.mem_map.mp hnode
  exact (boundaryFromToken_token key).symm

theorem getElem?_toEngineGraph (keys : List NodeKey) (outputs : List Nat) (i : Nat) :
    (toEngineGraph keys outputs).nodes[i]? =
      keys[i]?.map fun k => ⟨k.token, k.isBoundary, k.inputs⟩ :=
  List.getElem?_map ..

end Graphed
