import Graphed.Optimizer.Incremental
import Graphed.Optimizer.Rules

/-!
# The incremental reducer's arena

The canonical arena is an interned store of its own, whose structural keys are those of its nodes. A
step appends to it, and leaves every canonical id it handed out where it was.
-/

namespace Graphed

open GraphStore

/-! ### Orientation -/

/-- Orienting keeps a key or swaps the operands of a symmetric operator. -/
theorem orient_cases (key : NodeKey) (ks : List (BitVec 128)) : orient key ks = key ∨
    isSymmetric key = true ∧ ∃ a b ka kb, key.inputs = [a, b] ∧ ks = [ka, kb] ∧ kb < ka ∧
      orient key ks = key.withInputs [b, a] := by
  unfold orient
  split
  · rename_i a b hins
    split_ifs with hswap
    · unfold swaps at hswap
      split at hswap
      · rename_i ka kb
        rw [Bool.and_eq_true, decide_eq_true_eq] at hswap
        exact Or.inr ⟨hswap.2, a, b, ka, kb, hins, rfl, hswap.1, rfl⟩
      · exact absurd hswap (by decide)
    · exact Or.inl rfl
  · exact Or.inl rfl

theorem token_orient (key : NodeKey) (ks : List (BitVec 128)) :
    (orient key ks).token = key.token := by
  rcases orient_cases key ks with h | ⟨-, _, _, _, _, -, -, -, h⟩ <;> rw [h]
  exact NodeKey.token_withInputs _ _

theorem inputs_withInputs_pair {key : NodeKey} (h : isSymmetric key = true) (ins : List Nat) :
    (key.withInputs ins).inputs = ins := by
  cases key with
  | op name params inputs => rfl
  | _ => exact absurd h (by simp [isSymmetric])

theorem mem_inputs_orient {key : NodeKey} {ks : List (BitVec 128)} {x : Nat} :
    x ∈ (orient key ks).inputs ↔ x ∈ key.inputs := by
  rcases orient_cases key ks with h | ⟨hsym, a, b, _, _, hins, -, -, h⟩ <;> rw [h]
  rw [inputs_withInputs_pair hsym, hins, List.mem_cons, List.mem_singleton, List.mem_cons,
    List.mem_singleton, or_comm]

theorem isSymmetric_withInputs_swap {key : NodeKey} (h : isSymmetric key = true) {a b : Nat} :
    isSymmetric (key.withInputs [a, b]) = true := by
  cases key with
  | op name params inputs =>
      simp only [isSymmetric, Bool.and_eq_true] at h
      simp only [NodeKey.withInputs, isSymmetric, h.1.2, h.2]
      rfl
  | _ => exact absurd h (by simp [isSymmetric])

/-- A structural key does not see which way round a symmetric operator's operands are given. -/
theorem structuralKey_orient (key : NodeKey) (f : Nat → BitVec 128) :
    structuralKey (orient key (key.inputs.map f)) key.token (key.inputs.map f) =
      structuralKey (orient key (key.inputs.map f)) key.token
        ((orient key (key.inputs.map f)).inputs.map f) := by
  rcases orient_cases key (key.inputs.map f) with h | ⟨hsym, a, b, ka, kb, hins, hks, hlt, h⟩
  · rw [h]
  · rw [h, inputs_withInputs_pair hsym, hins]
    rw [hins, List.map_cons, List.map_cons, List.map_nil, List.cons.injEq, List.cons.injEq] at hks
    obtain ⟨rfl, rfl, -⟩ := hks
    have hsym' : isSymmetric (key.withInputs [b, a]) = true := isSymmetric_withInputs_swap hsym
    simp only [List.map_cons, List.map_nil, structuralKey, hsym', if_true, if_pos hlt]
    rw [if_neg (BitVec.not_lt.mpr (BitVec.le_of_lt hlt))]

/-! ### The canonical arena -/

theorem structuralKeys_concat (nodes : List NodeKey) (key : NodeKey) :
    structuralKeys (nodes ++ [key]) = structuralKeys nodes ++
      [structuralKey key key.token (key.inputs.map ((structuralKeys nodes).getD · 0))] :=
  BottomUp.results_concat nodes key

namespace IncrementalReducer

/-- The canonical arena as a store. -/
def arena (r : IncrementalReducer) : GraphStore := ⟨r.canonNodes, r.canonTable, [], []⟩

/-- What the reducer keeps: an interned canonical arena, its structural keys, and a map into it. -/
structure Consistent (r : IncrementalReducer) : Prop where
  interned : r.arena.Interned
  keys_eq : r.canonKeys = structuralKeys r.canonNodes
  map_lt : ∀ c ∈ r.map, c < r.canonNodes.length

theorem consistent_new : new.Consistent := ⟨interned_new, rfl, by simp [new]⟩

/-- The key a node is interned under. -/
def oriented (r : IncrementalReducer) (key : NodeKey) : NodeKey :=
  orient key (key.inputs.map (r.canonKeys.getD · 0))

/-- Interning in the canonical arena is interning the oriented key. -/
theorem intern_spec {r : IncrementalReducer} (hr : r.Consistent) {key : NodeKey}
    (hvalid : ∀ i ∈ key.inputs, i < r.canonNodes.length) :
    (r.intern key).2.Consistent ∧ r.canonNodes <+: (r.intern key).2.canonNodes ∧
      (r.intern key).2.map = r.map ∧ (r.intern key).2.totalWork = r.totalWork ∧
      (∃ k, (r.intern key).2.canonNodes[(r.intern key).1]? = some k ∧
        (k == r.oriented key) = true) ∧
      ∀ k ∈ (r.intern key).2.canonNodes, k ∈ r.canonNodes ∨ k = r.oriented key := by
  have hvalid' : ∀ i ∈ (r.oriented key).inputs, i < r.arena.nodes.length :=
    fun i hi => hvalid i (mem_inputs_orient.mp hi)
  unfold intern
  cases hfind : r.canonTable.find? fun e => e.1 == r.oriented key with
  | some e =>
      have hlookup : r.arena.lookup (r.oriented key) = some e.2 := by
        rw [lookup, arena, hfind, Option.map_some]
      rw [oriented] at hfind
      simp only [hfind]
      refine ⟨hr, List.prefix_rfl, trivial, trivial, (hr.interned.lookup_iff _ _).mp hlookup,
        fun k hk => Or.inl hk⟩
  | none =>
      have hlookup : r.arena.lookup (r.oriented key) = none := by
        rw [lookup, arena, hfind, Option.map_none]
      have hpush := hr.interned.push hvalid' hlookup
      rw [oriented] at hfind
      simp only [hfind]
      refine ⟨⟨hpush, ?_, fun c hc => ?_⟩, List.prefix_append _ _, trivial, trivial,
        ⟨r.oriented key, by simp [oriented], NodeKey.beq_refl _⟩, fun k hk => ?_⟩
      · change r.canonKeys ++ [_] = structuralKeys (r.canonNodes ++ [_])
        rw [structuralKeys_concat, ← hr.keys_eq, token_orient, structuralKey_orient]
      · have hlt := hr.map_lt c hc
        simp only [List.length_append, List.length_singleton]
        omega
      · rcases List.mem_append.mp hk with hk | hk
        · exact Or.inl hk
        · exact Or.inr (List.mem_singleton.mp hk)

/-- An identity operator goes to its operand; any other key is interned. -/
theorem canonicalize_cases (r : IncrementalReducer) (key : NodeKey) :
    (∃ only, key.inputs = [only] ∧ key.token ∈ identityTokens ∧
      r.canonicalize key = (only, r)) ∨
    (¬ (key.token ∈ identityTokens ∧ ∃ only, key.inputs = [only]) ∧
      r.canonicalize key = r.intern key) := by
  have hintern : ¬ (key.token ∈ identityTokens ∧ ∃ only, key.inputs = [only]) →
      r.canonicalize key = r.intern key := by
    intro hnot
    unfold canonicalize
    split
    · rename_i name params only
      rw [if_neg]
      exact fun h => hnot ⟨List.contains_iff_mem.mp h, only, rfl⟩
    · rfl
  by_cases hid : key.token ∈ identityTokens ∧ ∃ only, key.inputs = [only]
  · obtain ⟨htoken, only, hins⟩ := hid
    refine Or.inl ⟨only, hins, htoken, ?_⟩
    have hop := isBoundary_of_identity htoken
    cases key with
    | op name params ins =>
        obtain rfl : ins = [only] := hins
        rw [canonicalize, if_pos (List.contains_iff_mem.mpr htoken)]
    | _ => exact absurd hop (by simp [NodeKey.isBoundary])
  · exact Or.inr ⟨hid, hintern hid⟩

/-- What one node does to the reducer. -/
theorem consume_spec {r : IncrementalReducer} (hr : r.Consistent) {key : NodeKey}
    (hvalid : ∀ i ∈ key.inputs, i < r.map.length) :
    (r.consume key).Consistent ∧ r.canonNodes <+: (r.consume key).canonNodes ∧
      (∃ c, (r.consume key).map = r.map ++ [c]) ∧
      (r.consume key).totalWork = r.totalWork ∧
      ∀ k ∈ (r.consume key).canonNodes, k ∈ r.canonNodes ∨ ∃ ins, k = key.withInputs ins := by
  have hrenamed : ∀ c ∈ key.inputs.map (r.map.getD · 0), c < r.canonNodes.length := by
    intro c hc
    obtain ⟨i, hi, rfl⟩ := List.mem_map.mp hc
    rw [FirstSeen.getD_eq_getElem (hvalid i hi)]
    exact hr.map_lt _ (List.getElem_mem _)
  unfold consume
  rcases r.canonicalize_cases (key.withInputs (key.inputs.map (r.map.getD · 0))) with
    ⟨only, hins, -, h⟩ | ⟨-, h⟩
  · rw [h]
    refine ⟨⟨hr.interned, hr.keys_eq, fun c hc => ?_⟩, List.prefix_rfl, ⟨only, rfl⟩, rfl,
      fun k hk => Or.inl hk⟩
    rcases List.mem_append.mp hc with hc | hc
    · exact hr.map_lt c hc
    · rw [List.mem_singleton.mp hc]
      rw [NodeKey.inputs_withInputs_map] at hins
      exact hrenamed only (hins ▸ List.mem_singleton_self only)
  · rw [h]
    have hrenamed' : ∀ c ∈ (key.withInputs (key.inputs.map (r.map.getD · 0))).inputs,
        c < r.canonNodes.length := by rwa [NodeKey.inputs_withInputs_map]
    obtain ⟨hcons, hpre, hmap, hwork, ⟨k, hk, -⟩, hsub⟩ := intern_spec hr hrenamed'
    refine ⟨⟨hcons.interned, hcons.keys_eq, fun c hc => ?_⟩, hpre, ⟨_, congrArg (· ++ [_]) hmap⟩, hwork,
      fun k hk => ?_⟩
    · rcases List.mem_append.mp hc with hc | hc
      · exact hcons.map_lt c hc
      · rw [List.mem_singleton.mp hc]
        exact (List.getElem?_eq_some_iff.mp hk).1
    · refine (hsub k hk).imp id fun hkey => ?_
      rcases orient_cases (key.withInputs (key.inputs.map (r.map.getD · 0)))
        ((key.withInputs (key.inputs.map (r.map.getD · 0))).inputs.map (r.canonKeys.getD · 0)) with
        ho | ⟨-, a, b, _, _, -, -, -, ho⟩
      · exact ⟨_, hkey.trans ho⟩
      · exact ⟨[b, a], (hkey.trans ho).trans (NodeKey.withInputs_withInputs _ _ _)⟩

/-- Consuming a list keeps the reducer consistent, whether or not it stops early. -/
theorem consumeAll_consistent {r : IncrementalReducer} (hr : r.Consistent) (delta : List NodeKey) :
    (r.consumeAll delta).2.Consistent ∧ ∀ k ∈ (r.consumeAll delta).2.canonNodes,
      k ∈ r.canonNodes ∨ ∃ key ∈ delta, ∃ ins, k = key.withInputs ins := by
  induction delta generalizing r with
  | nil => exact ⟨hr, fun k hk => Or.inl hk⟩
  | cons key delta ih =>
      unfold consumeAll
      cases hbad : key.inputs.find? fun i => decide (r.map.length ≤ i) with
      | some bad => exact ⟨hr, fun k hk => Or.inl hk⟩
      | none =>
          have hvalid : ∀ i ∈ key.inputs, i < r.map.length := by simpa using hbad
          obtain ⟨hcons, -, -, -, hsub⟩ := consume_spec hr hvalid
          obtain ⟨hcons', hsub'⟩ := ih hcons
          refine ⟨hcons', fun k hk => ?_⟩
          rcases hsub' k hk with hk | ⟨key', hkey', hk⟩
          · rcases hsub k hk with hk | hk
            · exact Or.inl hk
            · exact Or.inr ⟨key, List.mem_cons_self, hk⟩
          · exact Or.inr ⟨key', List.mem_cons_of_mem _ hkey', hk⟩

theorem step_consistent {r : IncrementalReducer} (hr : r.Consistent) (delta : List NodeKey) :
    (r.step delta).2.Consistent ∧ ∀ k ∈ (r.step delta).2.canonNodes,
      k ∈ r.canonNodes ∨ ∃ key ∈ delta, ∃ ins, k = key.withInputs ins := by
  obtain ⟨hcons, hsub⟩ := consumeAll_consistent hr delta
  unfold step
  cases hrun : r.consumeAll delta with
  | mk result r' =>
      rw [hrun] at hcons hsub
      cases result with
      | error bad => exact ⟨hcons, hsub⟩
      | ok _ => exact ⟨⟨hcons.interned, hcons.keys_eq, hcons.map_lt⟩, hsub⟩

end IncrementalReducer

end Graphed
