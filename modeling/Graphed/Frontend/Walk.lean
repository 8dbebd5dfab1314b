import Graphed.Frontend.Session
import Graphed.Optimizer.Proof.DeadCode

/-!
# Walking the recorded graph

One walk serves evaluation and projection: it evaluates a graph from a root with the handlers of its
caller, on an explicit stack and with a cache. It computes the post-order of the root.
-/

namespace Graphed

open PostOrder

/-- A caller's handlers. Each gets the caller's state, the node, and the results of its inputs. -/
structure WalkHandlers (σ R : Type) where
  source : σ → Nat → R × σ
  op : σ → Nat → String → List R → ParamMap → R × σ
  external : σ → Nat → List R → R × σ

/-- The walk's state: the caller's, the results by node in the order they were made, and the
stack. -/
structure Walking (σ R : Type) where
  state : σ
  cache : List (Nat × R)
  stack : List Nat

namespace Walking

variable {σ R : Type} [Inhabited R] (H : WalkHandlers σ R) (nodes : List NodeKey)

def result (w : Walking σ R) (i : Nat) : R := (w.cache.lookup i).getD default

/-- Hand a node to its handler and keep the result. -/
def compute (w : Walking σ R) (x : Nat) : Walking σ R :=
  let key := nodes.getD x default
  let ins := key.inputs.map w.result
  let made :=
    if key.isSource then H.source w.state x
    else
      match key.recordedOp with
      | some (name, params) => H.op w.state x name ins params
      | none => H.external w.state x ins
  { w with state := made.2, cache := w.cache ++ [(x, made.1)] }

/-- One turn: drop the top node if it has a result, else stack the inputs it waits for, else make
its result. -/
def step (w : Walking σ R) : Walking σ R :=
  match w.stack with
  | [] => w
  | x :: rest =>
      if x ∈ w.cache.map Prod.fst then { w with stack := rest }
      else if (inputsAt nodes x).filter (· ∉ w.cache.map Prod.fst) = [] then
        compute H nodes { w with stack := rest } x
      else { w with stack := (inputsAt nodes x).filter (· ∉ w.cache.map Prod.fst) ++ x :: rest }

end Walking

/-- Enough turns for a walk. -/
def walkFuel (nodes : List NodeKey) : Nat := (nodes.map fun key => key.inputs.length + 2).sum + 1

/-- Evaluate the graph from a root. -/
def walk {σ R : Type} [Inhabited R] (H : WalkHandlers σ R) (nodes : List NodeKey) (start : σ)
    (root : Nat) : Walking σ R :=
  (Walking.step H nodes)^[walkFuel nodes] ⟨start, [], [root]⟩

/-- The sources a node reaches: itself, or what its inputs reach. -/
def reachableSources (nodes : List NodeKey) (n : Nat) : List Nat :=
  (BottomUp.results (fun x => x.1.inputs)
    (fun x sets => if x.1.isSource then [x.2] else sets.flatten) [] nodes.zipIdx).getD n []

/-! ### The walk is the post-order -/

variable {nodes : List NodeKey}

/-- The arena as a graph of ordered inputs. -/
def inputDag (htopo : GraphStore.TopologicalKeys nodes) : Dag Nat where
  children := inputsAt nodes
  rank := id
  rank_lt {x y} h := by
    unfold inputsAt at h
    rw [List.getD_eq_getElem?_getD] at h
    cases hx : nodes[x]? with
    | none =>
        rw [hx, Option.getD_none] at h
        cases h
    | some key =>
        rw [hx, Option.getD_some] at h
        exact htopo x key hx y h

/-- A node reaches what its inputs reach, and itself. -/
theorem reaches_iff (htopo : GraphStore.TopologicalKeys nodes) {n m : Nat} :
    (inputDag htopo).Reaches n m ↔
      m = n ∨ ∃ x ∈ inputsAt nodes n, (inputDag htopo).Reaches x m := by
  constructor
  · intro h
    rcases Relation.ReflTransGen.cases_head h with rfl | ⟨x, hx, hreach⟩
    · exact Or.inl rfl
    · exact Or.inr ⟨x, hx, hreach⟩
  · rintro (rfl | ⟨x, hx, hreach⟩)
    · exact Relation.ReflTransGen.refl
    · exact Relation.ReflTransGen.head hx hreach

/-- The reachable sources are the sources the node reaches. -/
theorem mem_reachableSources (htopo : GraphStore.TopologicalKeys nodes) {n : Nat}
    (hn : n < nodes.length) {m : Nat} : m ∈ reachableSources nodes n ↔
      (nodes.getD m default).isSource = true ∧ (inputDag htopo).Reaches n m := by
  have hzip : ∀ {i : Nat} {x : NodeKey × Nat}, nodes.zipIdx[i]? = some x →
      nodes[i]? = some x.1 ∧ x.2 = i := by
    intro i x hx
    rw [List.getElem?_zipIdx, Option.map_eq_some_iff] at hx
    obtain ⟨key, hkey, rfl⟩ := hx
    exact ⟨hkey, Nat.zero_add i⟩
  have hzipTopo : BottomUp.Topological (fun x : NodeKey × Nat => x.1.inputs) nodes.zipIdx :=
    fun i x hx => htopo i x.1 (hzip hx).1
  have hsolves : BottomUp.Solves (fun x : NodeKey × Nat => x.1.inputs)
      (fun x sets => if x.1.isSource then [x.2] else sets.flatten) nodes.zipIdx
      (reachableSources nodes) := BottomUp.results_solves hzipTopo
  induction n using Nat.strongRecOn with
  | ind n ih =>
      have hkey := List.getElem?_eq_getElem hn
      have hinputs := inputsAt_of_getElem? hkey
      have hset := hsolves n (nodes[n], n) (by
        rw [List.getElem?_zipIdx, hkey, Option.map_some, Nat.zero_add])
      rw [hset]
      dsimp only
      rw [reaches_iff, hinputs]
      cases hsource : nodes[n].isSource with
      | true =>
          rw [if_pos rfl, List.mem_singleton, NodeKey.inputs_of_isSource hsource]
          constructor
          · rintro rfl
            refine ⟨?_, Or.inl rfl⟩
            rw [List.getD_eq_getElem?_getD, hkey, Option.getD_some, hsource]
          · rintro ⟨-, rfl | ⟨x, hx, -⟩⟩
            · rfl
            · cases hx
      | false =>
          rw [if_neg Bool.false_ne_true, List.mem_flatten]
          have hbelow : ∀ x ∈ nodes[n].inputs, x < n := fun x hx => htopo n _ hkey x hx
          constructor
          · rintro ⟨l, hl, hm⟩
            obtain ⟨x, hx, rfl⟩ := List.mem_map.mp hl
            obtain ⟨hsrc, hreach⟩ := (ih x (hbelow x hx) ((hbelow x hx).trans hn)).mp hm
            exact ⟨hsrc, Or.inr ⟨x, hx, hreach⟩⟩
          · rintro ⟨hsrc, rfl | ⟨x, hx, hreach⟩⟩
            · rw [List.getD_eq_getElem?_getD, hkey, Option.getD_some, hsource] at hsrc
              cases hsrc
            · exact ⟨_, List.mem_map_of_mem hx,
                (ih x (hbelow x hx) ((hbelow x hx).trans hn)).mpr ⟨hsrc, hreach⟩⟩

namespace Walking

variable {σ R : Type} [Inhabited R] (H : WalkHandlers σ R) (nodes : List NodeKey)

/-- The walk's state once these nodes have results. -/
def made (start : σ) (xs : List Nat) (stack : List Nat) : Walking σ R :=
  { xs.foldl (compute H nodes) ⟨start, [], []⟩ with stack }

theorem cache_made (start : σ) (xs stack : List Nat) :
    (made H nodes start xs stack).cache.map Prod.fst = xs := by
  induction xs using List.reverseRecOn with
  | nil => rfl
  | append_singleton xs x ih =>
      unfold made at ih ⊢
      rw [List.foldl_append]
      change (List.map Prod.fst (_ ++ [(x, _)])) = _
      rw [List.map_append, ih]
      rfl

theorem made_concat (start : σ) (xs stack : List Nat) (x : Nat) :
    made H nodes start (xs ++ [x]) stack = compute H nodes (made H nodes start xs stack) x := by
  unfold made
  rw [List.foldl_append]
  rfl

/-- A turn of the walk is a turn of the loop that stacks what is pending. -/
theorem step_made (start : σ) (w : Pending Nat) :
    step H nodes (made H nodes start w.emitted w.stack) =
      made H nodes start (Pending.step (inputsAt nodes) w).emitted
        (Pending.step (inputsAt nodes) w).stack := by
  obtain ⟨emitted, stack⟩ := w
  cases stack with
  | nil => rfl
  | cons x rest =>
      have hstack : (made H nodes start emitted (x :: rest)).stack = x :: rest := rfl
      simp only [step, Pending.step, hstack, cache_made]
      split
      · rfl
      · split
        · exact (made_concat H nodes start emitted rest x).symm
        · rfl

end Walking

section Run

variable {σ R : Type} [Inhabited R] (H : WalkHandlers σ R)

/-- **The walk makes the results of what the root reaches**, inputs first and each once. -/
theorem walk_eq (htopo : GraphStore.TopologicalKeys nodes) (start : σ) {root : Nat}
    (hroot : root < nodes.length) :
    walk H nodes start root =
      Walking.made H nodes start ((inputDag htopo).postorder [root]) [] := by
  have hlt : ∀ x ∈ (inputDag htopo).postorder [root], x < nodes.length := by
    intro x hx
    obtain ⟨o, ho, hreach⟩ := (mem_postorder _).mp hx
    rw [List.mem_singleton.mp ho] at hreach
    exact (rank_le_of_reaches _ hreach).trans_lt hroot
  have hfuel : Pending.turns (inputDag htopo) ((inputDag htopo).postorder [root]) <
      walkFuel nodes := by
    refine Nat.lt_succ_of_le ?_
    exact sum_positions_le (fun key : NodeKey => key.inputs.length + 2) nodes default
      (nodup_postorder _ _) hlt
  have hiterate : ∀ (n : Nat) (w : Pending Nat),
      (Walking.step H nodes)^[n] (Walking.made H nodes start w.emitted w.stack) =
        Walking.made H nodes start ((Pending.step (inputsAt nodes))^[n] w).emitted
          ((Pending.step (inputsAt nodes))^[n] w).stack := by
    intro n
    induction n with
    | zero => exact fun w => rfl
    | succ n ih =>
        intro w
        rw [Function.iterate_succ_apply, Walking.step_made, ih, Function.iterate_succ_apply]
  have hloop := Pending.iterate_eq_postorder (inputDag htopo) hfuel
  have hrun := hiterate (walkFuel nodes) ⟨[], [root]⟩
  change walk H nodes start root = Walking.made H nodes start
    ((Pending.step (inputDag htopo).children)^[walkFuel nodes] ⟨[], [root]⟩).emitted _ at hrun
  rw [hloop] at hrun
  rw [hrun]
  congr 1
  exact congrArg Pending.stack hloop

end Run

end Graphed
