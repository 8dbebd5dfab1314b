import Graphed.Library.FirstSeen
import Mathlib.Algebra.Order.BigOperators.Group.List
import Mathlib.Algebra.Order.Group.Nat
import Mathlib.Algebra.Ring.Nat
import Mathlib.Logic.Relation
import Mathlib.Tactic.Common

/-!
# Depth-first post-order

A finite-depth graph is walked from its roots, each node emitted once, after its children. The walk
depends on the children and their order alone, so it can be carried along a map between graphs: a
node either maps to a node with the mapped children, or is a pass-through that maps to where its only
child does. The explicit-stack loop that programs run computes the same walk.
-/

namespace PostOrder

open FirstSeen

/-- Nodes with ordered children of smaller rank. -/
structure Dag (α : Type*) where
  children : α → List α
  rank : α → Nat
  rank_lt : ∀ {x y : α}, y ∈ children x → rank y < rank x

variable {α β : Type*} [DecidableEq α] [DecidableEq β]

/-- Emit what `x` reaches and was not emitted before, `x` last. -/
def Dag.visit (G : Dag α) (seen : List α) (x : α) : List α :=
  if x ∈ seen then seen
  else (G.children x).attach.foldl (fun seen y => G.visit seen y.1) seen ++ [x]
termination_by G.rank x
decreasing_by exact G.rank_lt y.2

/-- Visit several nodes in order. -/
def Dag.walk (G : Dag α) (seen xs : List α) : List α := xs.foldl G.visit seen

/-- The post-order of what the roots reach. -/
def Dag.postorder (G : Dag α) (roots : List α) : List α := G.walk [] roots

/-- Everything emitted has its children emitted. -/
def Dag.Closed (G : Dag α) (seen : List α) : Prop := ∀ x ∈ seen, ∀ y ∈ G.children x, y ∈ seen

/-- Children come before their parents. -/
def Dag.ChildrenFirst (G : Dag α) (xs : List α) : Prop :=
  ∀ (i : Nat) (x : α), xs[i]? = some x → ∀ y ∈ G.children x, ∃ j < i, xs[j]? = some y

def Dag.Reaches (G : Dag α) : α → α → Prop := Relation.ReflTransGen fun x y => y ∈ G.children x

section Walk

variable (G : Dag α)

theorem visit_of_mem {seen : List α} {x : α} (h : x ∈ seen) : G.visit seen x = seen := by
  rw [Dag.visit, if_pos h]

theorem visit_of_notMem {seen : List α} {x : α} (h : x ∉ seen) :
    G.visit seen x = G.walk seen (G.children x) ++ [x] := by
  rw [Dag.visit, if_neg h, Dag.walk, ← List.foldl_attach (f := G.visit)]

@[simp]
theorem walk_nil (seen : List α) : G.walk seen [] = seen := rfl

@[simp]
theorem walk_cons (seen : List α) (x : α) (xs : List α) :
    G.walk seen (x :: xs) = G.walk (G.visit seen x) xs := rfl

theorem walk_append (seen xs ys : List α) :
    G.walk seen (xs ++ ys) = G.walk (G.walk seen xs) ys := List.foldl_append

/-- What a step of the walk keeps, the whole walk keeps. -/
theorem walk_induction {P : List α → Prop} {xs : List α}
    (hvisit : ∀ seen, ∀ x ∈ xs, P seen → P (G.visit seen x)) {seen : List α} (h : P seen) :
    P (G.walk seen xs) := by
  induction xs generalizing seen with
  | nil => exact h
  | cons x xs ih =>
      exact ih (fun s y hy => hvisit s y (List.mem_cons_of_mem x hy))
        (hvisit seen x List.mem_cons_self h)

/-- What emitting a node after its walked children keeps, every visit keeps. -/
theorem visit_induction {P : List α → Prop}
    (hemit : ∀ seen x, x ∉ seen → P seen → P (G.walk seen (G.children x)) →
      P (G.walk seen (G.children x) ++ [x])) (x : α) {seen : List α} (h : P seen) :
    P (G.visit seen x) := by
  induction hrank : G.rank x using Nat.strongRecOn generalizing x seen with
  | ind n ih =>
      subst hrank
      by_cases hx : x ∈ seen
      · rwa [visit_of_mem G hx]
      · rw [visit_of_notMem G hx]
        refine hemit seen x hx h (walk_induction G (fun s y hy hs => ?_) h)
        exact ih (G.rank y) (G.rank_lt hy) y hs rfl

theorem prefix_visit (seen : List α) (x : α) : seen <+: G.visit seen x := by
  refine visit_induction G (P := fun s => seen <+: s) ?_ x List.prefix_rfl
  intro s y _ _ hwalk
  exact hwalk.trans (List.prefix_append _ _)

theorem prefix_walk (seen xs : List α) : seen <+: G.walk seen xs :=
  walk_induction G (P := fun s => seen <+: s) (fun s x _ h => h.trans (prefix_visit G s x))
    List.prefix_rfl

theorem mem_visit_self (seen : List α) (x : α) : x ∈ G.visit seen x := by
  by_cases hx : x ∈ seen
  · rwa [visit_of_mem G hx]
  · rw [visit_of_notMem G hx]
    simp

theorem mem_walk_of_mem {seen xs : List α} {x : α} (hx : x ∈ xs) : x ∈ G.walk seen xs := by
  induction xs generalizing seen with
  | nil => simp at hx
  | cons y ys ih =>
      rcases List.mem_cons.mp hx with rfl | hx
      · exact (prefix_walk G _ ys).subset (mem_visit_self G seen x)
      · exact ih hx

/-- Only what was seen or is reached is emitted. -/
theorem reaches_of_mem_visit {seen : List α} {x z : α} (h : z ∈ G.visit seen x) :
    z ∈ seen ∨ G.Reaches x z := by
  induction hrank : G.rank x using Nat.strongRecOn generalizing x seen with
  | ind n ih =>
      subst hrank
      by_cases hx : x ∈ seen
      · rw [visit_of_mem G hx] at h
        exact Or.inl h
      · rw [visit_of_notMem G hx, List.mem_append, List.mem_singleton] at h
        rcases h with h | rfl
        · have hwalk : ∀ xs ⊆ G.children x, ∀ s, z ∈ G.walk s xs → z ∈ s ∨ G.Reaches x z := by
            intro xs
            induction xs with
            | nil => intro _ s hz; exact Or.inl hz
            | cons y ys ihys =>
                intro hsub s hz
                rcases ihys (fun w hw => hsub (List.mem_cons_of_mem y hw)) _ hz with hz | hz
                · have hy := hsub List.mem_cons_self
                  rcases ih (G.rank y) (G.rank_lt hy) hz rfl with hz | hz
                  · exact Or.inl hz
                  · exact Or.inr (Relation.ReflTransGen.head hy hz)
                · exact Or.inr hz
          exact hwalk _ (fun _ h => h) seen h
        · exact Or.inr Relation.ReflTransGen.refl

omit [DecidableEq α] in
theorem rank_le_of_reaches {x z : α} (h : G.Reaches x z) : G.rank z ≤ G.rank x := by
  induction h with
  | refl => exact le_rfl
  | tail _ hstep ih => exact (G.rank_lt hstep).le.trans ih

theorem notMem_walk_children {seen : List α} {x : α} (hx : x ∉ seen) :
    x ∉ G.walk seen (G.children x) := by
  refine walk_induction G (P := fun s => x ∉ s) (fun s y hy hs hmem => ?_) hx
  rcases reaches_of_mem_visit G hmem with hmem | hreach
  · exact hs hmem
  · exact absurd (rank_le_of_reaches G hreach) (Nat.not_le.mpr (G.rank_lt hy))

theorem nodup_visit {seen : List α} (h : seen.Nodup) (x : α) : (G.visit seen x).Nodup := by
  refine visit_induction G ?_ x h
  intro s y hy _ hwalk
  exact List.nodup_append.mpr ⟨hwalk, by simp, fun a ha b hb heq =>
    notMem_walk_children G hy (by
      rw [List.mem_singleton.mp hb] at heq
      rwa [heq] at ha)⟩

theorem nodup_postorder (roots : List α) : (G.postorder roots).Nodup :=
  walk_induction G (P := List.Nodup) (fun _ x _ h => nodup_visit G h x) List.nodup_nil

theorem closed_visit {seen : List α} (h : G.Closed seen) (x : α) : G.Closed (G.visit seen x) := by
  refine visit_induction G ?_ x h
  intro s y _ _ hwalk z hz w hw
  rcases List.mem_append.mp hz with hz | hz
  · exact List.mem_append_left _ (hwalk z hz w hw)
  · rw [List.mem_singleton.mp hz] at hw
    exact List.mem_append_left _ (mem_walk_of_mem G hw)

theorem closed_walk {seen : List α} (h : G.Closed seen) (xs : List α) : G.Closed (G.walk seen xs) :=
  walk_induction G (P := G.Closed) (fun _ x _ h => closed_visit G h x) h

theorem closed_postorder (roots : List α) : G.Closed (G.postorder roots) :=
  closed_walk G (fun _ hx => absurd hx List.not_mem_nil) roots

theorem childrenFirst_visit {seen : List α} (h : G.ChildrenFirst seen) (x : α) :
    G.ChildrenFirst (G.visit seen x) := by
  refine visit_induction G ?_ x h
  intro s y _ _ hwalk i z hz w hw
  rw [List.getElem?_append] at hz
  split_ifs at hz with hi
  · obtain ⟨j, hj, hjw⟩ := hwalk i z hz w hw
    exact ⟨j, hj, by rw [List.getElem?_append_left (hj.trans hi), hjw]⟩
  · rw [List.getElem?_singleton] at hz
    split_ifs at hz with hlast
    obtain rfl := Option.some.inj hz
    have hmem : w ∈ G.walk s (G.children y) := mem_walk_of_mem G hw
    obtain ⟨j, hj, hjw⟩ := List.getElem_of_mem hmem
    exact ⟨j, by omega, by rw [List.getElem?_append_left hj, List.getElem?_eq_getElem hj, hjw]⟩

theorem childrenFirst_postorder (roots : List α) : G.ChildrenFirst (G.postorder roots) :=
  walk_induction G (P := G.ChildrenFirst) (fun _ x _ h => childrenFirst_visit G h x)
    (by simp [Dag.ChildrenFirst])

omit [DecidableEq α] in
theorem mem_of_reaches {seen : List α} (h : G.Closed seen) {x z : α} (hx : x ∈ seen)
    (hreach : G.Reaches x z) : z ∈ seen := by
  induction hreach with
  | refl => exact hx
  | tail _ hstep ih => exact h _ ih _ hstep

/-- The post-order holds exactly what the roots reach. -/
theorem mem_postorder {roots : List α} {z : α} :
    z ∈ G.postorder roots ↔ ∃ r ∈ roots, G.Reaches r z := by
  constructor
  · have hwalk : ∀ xs seen, z ∈ G.walk seen xs → z ∈ seen ∨ ∃ r ∈ xs, G.Reaches r z := by
      intro xs
      induction xs with
      | nil => intro seen h; exact Or.inl h
      | cons x xs ih =>
          intro seen h
          rcases ih _ h with h | ⟨r, hr, hreach⟩
          · rcases reaches_of_mem_visit G h with h | hreach
            · exact Or.inl h
            · exact Or.inr ⟨x, List.mem_cons_self, hreach⟩
          · exact Or.inr ⟨r, List.mem_cons_of_mem x hr, hreach⟩
    intro h
    exact (hwalk roots [] h).resolve_left List.not_mem_nil
  · rintro ⟨r, hr, hreach⟩
    exact mem_of_reaches G (closed_postorder G roots) (mem_walk_of_mem G hr) hreach

/-- Once a node is emitted, walking its children emits nothing. -/
theorem walk_of_closed {seen : List α} {x : α} (hx : x ∈ seen) (xs : List α)
    (h : G.Closed seen) (hxs : xs ⊆ G.children x) : G.walk seen xs = seen := by
  induction xs with
  | nil => rfl
  | cons y ys ih =>
      rw [walk_cons, visit_of_mem G (h x hx y (hxs List.mem_cons_self))]
      exact ih fun z hz => hxs (List.mem_cons_of_mem y hz)

end Walk

/-! ### Carrying a walk along a map -/

/-- A map between graphs: a node has the mapped children, or passes through to its only child. -/
structure Quotient (G : Dag α) (H : Dag β) (π : α → β) (dom : α → Prop) : Prop where
  dom_children : ∀ x, dom x → ∀ y ∈ G.children x, dom y
  cases : ∀ x, dom x → H.children (π x) = (G.children x).map π ∨
    ∃ y, G.children x = [y] ∧ π y = π x

section Quotient

variable {G : Dag α} {H : Dag β} {π : α → β} {dom : α → Prop}

/-- The images of an emitted list, each once. -/
def image (π : α → β) (seen : List α) : List β := firsts (seen.map π)

omit [DecidableEq α] in
theorem image_concat (seen : List α) (x : α) :
    image π (seen ++ [x]) = insertNew (image π seen) (π x) := by
  simp [image, firsts_concat]

omit [DecidableEq α] in
theorem mem_image {seen : List α} {b : β} : b ∈ image π seen ↔ ∃ x ∈ seen, π x = b := by
  simp [image]

omit [DecidableEq α] in
/-- The image of a closed list is closed: a pass-through follows its child, which was emitted. -/
theorem Quotient.closed_image (hq : Quotient G H π dom) {seen : List α}
    (hdom : ∀ x ∈ seen, dom x) (h : G.Closed seen) : H.Closed (image π seen) := by
  have hchildren : ∀ n x, G.rank x = n → x ∈ seen → ∀ b ∈ H.children (π x), b ∈ image π seen := by
    intro n
    induction n using Nat.strongRecOn with
    | ind n ih =>
        intro x hx hmem b hb
        rcases hq.cases x (hdom x hmem) with hmap | ⟨y, hy, hπ⟩
        · rw [hmap, List.mem_map] at hb
          obtain ⟨z, hz, rfl⟩ := hb
          exact mem_image.mpr ⟨z, h x hmem z hz, rfl⟩
        · have hchild : y ∈ G.children x := by simp [hy]
          rw [← hπ] at hb
          exact ih (G.rank y) (hx ▸ G.rank_lt hchild) y rfl (h x hmem y hchild) b hb
  intro b hb c hc
  obtain ⟨x, hx, rfl⟩ := mem_image.mp hb
  exact hchildren _ x rfl hx c hc

/-- **Walking commutes with the map.** The image of a visit is the visit of the image. -/
theorem Quotient.image_visit (hq : Quotient G H π dom) {seen : List α}
    (hdom : ∀ x ∈ seen, dom x) (hseen : G.Closed seen) {x : α} (hx : dom x) :
    image π (G.visit seen x) = H.visit (image π seen) (π x) ∧
      ∀ z ∈ G.visit seen x, dom z := by
  induction hrank : G.rank x using Nat.strongRecOn generalizing x seen with
  | ind n ih =>
      subst hrank
      -- visiting a list of children, by the induction hypothesis one child at a time
      have hwalk : ∀ xs ⊆ G.children x, ∀ s, (∀ z ∈ s, dom z) → G.Closed s →
          image π (G.walk s xs) = H.walk (image π s) (xs.map π) ∧ ∀ z ∈ G.walk s xs, dom z := by
        intro xs
        induction xs with
        | nil => intro _ s hs _; exact ⟨rfl, hs⟩
        | cons y ys ihys =>
            intro hsub s hs hclosed
            have hy := hsub List.mem_cons_self
            obtain ⟨himage, hdom'⟩ := ih (G.rank y) (G.rank_lt hy) hs hclosed
              (hq.dom_children x hx y hy) rfl
            obtain ⟨htail, hdom''⟩ := ihys (fun z hz => hsub (List.mem_cons_of_mem y hz)) _ hdom'
              (closed_visit G hclosed y)
            exact ⟨by rw [walk_cons, htail, himage, List.map_cons, walk_cons], hdom''⟩
      by_cases hmem : x ∈ seen
      · rw [visit_of_mem G hmem, visit_of_mem H (mem_image.mpr ⟨x, hmem, rfl⟩)]
        exact ⟨rfl, hdom⟩
      · obtain ⟨himage, hdom'⟩ := hwalk _ (fun _ h => h) seen hdom hseen
        rw [visit_of_notMem G hmem, image_concat, himage]
        refine ⟨?_, fun z hz => (List.mem_append.mp hz).elim (hdom' z) fun hz =>
          List.mem_singleton.mp hz ▸ hx⟩
        rcases hq.cases x hx with hmap | ⟨y, hy, hπ⟩
        · rw [← hmap]
          by_cases hπx : π x ∈ image π seen
          · -- the class was emitted through another member, so its children were too
            rw [walk_of_closed H hπx _ (hq.closed_image hdom hseen) (fun _ h => h),
              insertNew_of_mem hπx, visit_of_mem H hπx]
          · rw [visit_of_notMem H hπx, insertNew_of_notMem (notMem_walk_children H hπx)]
        · rw [hy, List.map_singleton, walk_cons, walk_nil, hπ,
            insertNew_of_mem (mem_visit_self H _ _)]

theorem Quotient.image_walk (hq : Quotient G H π dom) {seen xs : List α}
    (hdom : ∀ x ∈ seen, dom x) (hseen : G.Closed seen) (hxs : ∀ x ∈ xs, dom x) :
    image π (G.walk seen xs) = H.walk (image π seen) (xs.map π) := by
  induction xs generalizing seen with
  | nil => rfl
  | cons x xs ih =>
      obtain ⟨himage, hdom'⟩ := hq.image_visit hdom hseen (hxs x List.mem_cons_self)
      rw [walk_cons, ih hdom' (closed_visit G hseen x)
        (fun y hy => hxs y (List.mem_cons_of_mem x hy)), himage, List.map_cons, walk_cons]

/-- **The post-order of a quotient** is the image of the post-order, each class at its first
member. -/
theorem Quotient.image_postorder (hq : Quotient G H π dom) {roots : List α}
    (hroots : ∀ x ∈ roots, dom x) :
    image π (G.postorder roots) = H.postorder (roots.map π) :=
  hq.image_walk (fun _ h => absurd h List.not_mem_nil)
    (fun _ h => absurd h List.not_mem_nil) hroots

end Quotient

/-- A sum over distinct positions of a list is at most the sum over the list. -/
theorem sum_positions_le {γ : Type*} (f : γ → Nat) (items : List γ) (default : γ) {xs : List Nat}
    (hnodup : xs.Nodup) (hlt : ∀ x ∈ xs, x < items.length) :
    (xs.map fun i => f (items.getD i default)).sum ≤ (items.map f).sum := by
  have hall : (items.map f).sum =
      ((List.range items.length).map fun i => f (items.getD i default)).sum := by
    congr 1
    refine List.ext_getElem (by simp) fun i hi hi' => ?_
    have hlt : i < items.length := by simpa using hi
    rw [List.getElem_map, List.getElem_map, List.getElem_range, List.getD_eq_getElem?_getD,
      List.getElem?_eq_getElem hlt, Option.getD_some]
  have hsub : List.Subperm xs (List.range items.length) :=
    List.subperm_of_subset hnodup fun x hx => List.mem_range.mpr (hlt x hx)
  obtain ⟨l, hperm, hsublist⟩ := hsub
  rw [hall, ← (hperm.map _).sum_eq]
  exact (hsublist.map _).sum_le_sum fun _ _ => Nat.zero_le _

/-! ### The explicit-stack loop -/

/-- The loop's state: what was emitted, and the path being walked, each node with the position of
the next child to visit. -/
structure Loop (α : Type*) where
  emitted : List α
  stack : List (α × Nat)

namespace Loop

/-- One turn: advance the top node to its next child, or emit it when it has none left. -/
def step (input : α → Nat → Option α) (w : Loop α) : Loop α :=
  match w.stack with
  | [] => w
  | (x, next) :: rest =>
      match input x next with
      | some y =>
          if y ∈ w.emitted then ⟨w.emitted, (x, next + 1) :: rest⟩
          else ⟨w.emitted, (y, 0) :: (x, next + 1) :: rest⟩
      | none => ⟨w.emitted ++ [x], rest⟩

section Correct

variable (G : Dag α) {input : α → Nat → Option α}

/-- The turns a list of nodes takes: one for each child, and one to emit. -/
def turns (xs : List α) : Nat := (xs.map fun x => (G.children x).length + 1).sum

omit [DecidableEq α] in
@[simp]
theorem turns_append (xs ys : List α) : turns G (xs ++ ys) = turns G xs + turns G ys := by
  simp [turns]

omit [DecidableEq α] in
@[simp]
theorem turns_singleton (x : α) : turns G [x] = (G.children x).length + 1 := by
  simp [turns]

variable {G}

theorem step_nil (emitted : List α) : step input ⟨emitted, []⟩ = ⟨emitted, []⟩ := rfl

theorem iterate_nil (n : Nat) (emitted : List α) :
    (step input)^[n] ⟨emitted, []⟩ = ⟨emitted, []⟩ := by
  induction n with
  | zero => rfl
  | succ n ih => rw [Function.iterate_succ_apply, step_nil, ih]

/-- Walking the children still to visit takes one turn for each, and the turns of what is emitted. -/
theorem exists_turns_children (hinput : ∀ x k, input x k = (G.children x)[k]?) {x : α}
    (hvisit : ∀ y ∈ G.children x, ∀ emitted, y ∉ emitted → ∀ rest, ∃ n,
      (step input)^[n] ⟨emitted, (y, 0) :: rest⟩ = ⟨G.visit emitted y, rest⟩ ∧
        n + turns G emitted = turns G (G.visit emitted y)) (rest : List (α × Nat)) :
    ∀ xs k emitted, (G.children x).drop k = xs → ∃ n,
      (step input)^[n] ⟨emitted, (x, k) :: rest⟩ =
          ⟨G.walk emitted xs, (x, k + xs.length) :: rest⟩ ∧
        n + turns G emitted = turns G (G.walk emitted xs) + xs.length := by
  intro xs
  induction xs with
  | nil => intro k emitted _; exact ⟨0, rfl, by simp⟩
  | cons y ys ih =>
      intro k emitted hdrop
      have hk : (G.children x)[k]? = some y := by
        have hhead := congrArg List.head? hdrop
        rwa [List.head?_drop, List.head?_cons] at hhead
      have hnext : (G.children x).drop (k + 1) = ys := by
        have htail := congrArg List.tail hdrop
        rwa [List.tail_drop, List.tail_cons] at htail
      have hlen : k + (y :: ys).length = k + 1 + ys.length := by simp [Nat.add_comm, Nat.add_left_comm]
      by_cases hy : y ∈ emitted
      · have hstep : step input ⟨emitted, (x, k) :: rest⟩ = ⟨emitted, (x, k + 1) :: rest⟩ := by
          simp only [step, hinput, hk, if_pos hy]
        obtain ⟨n, hn, hcount⟩ := ih (k + 1) emitted hnext
        refine ⟨n + 1, ?_, ?_⟩
        · rw [Function.iterate_succ_apply, hstep, hn, walk_cons, visit_of_mem G hy, hlen]
        · rw [walk_cons, visit_of_mem G hy, List.length_cons]
          omega
      · have hstep : step input ⟨emitted, (x, k) :: rest⟩ =
            ⟨emitted, (y, 0) :: (x, k + 1) :: rest⟩ := by
          simp only [step, hinput, hk, if_neg hy]
        obtain ⟨m, hm, hmcount⟩ := hvisit y (List.mem_of_getElem? hk) emitted hy ((x, k + 1) :: rest)
        obtain ⟨n, hn, hcount⟩ := ih (k + 1) (G.visit emitted y) hnext
        refine ⟨n + m + 1, ?_, ?_⟩
        · rw [Function.iterate_succ_apply, hstep, Function.iterate_add_apply, hm, hn, walk_cons, hlen]
        · rw [walk_cons, List.length_cons]
          omega

/-- A pushed node is visited, in as many turns as what it emits takes. -/
theorem exists_turns (hinput : ∀ x k, input x k = (G.children x)[k]?) {x : α} {emitted : List α}
    (hx : x ∉ emitted) (rest : List (α × Nat)) : ∃ n,
      (step input)^[n] ⟨emitted, (x, 0) :: rest⟩ = ⟨G.visit emitted x, rest⟩ ∧
        n + turns G emitted = turns G (G.visit emitted x) := by
  induction hrank : G.rank x using Nat.strongRecOn generalizing x emitted rest with
  | ind r ih =>
      subst hrank
      obtain ⟨n, hn, hcount⟩ := exists_turns_children hinput
        (fun y hy s hs rest => ih (G.rank y) (G.rank_lt hy) hs rest rfl) rest (G.children x) 0
        emitted rfl
      have hemit : step input ⟨G.walk emitted (G.children x),
          (x, 0 + (G.children x).length) :: rest⟩ =
            ⟨G.walk emitted (G.children x) ++ [x], rest⟩ := by
        have hnone : (G.children x)[0 + (G.children x).length]? = none := by simp
        simp only [step, hinput, hnone]
      refine ⟨n + 1, ?_, ?_⟩
      · rw [Function.iterate_succ_apply', hn, hemit, visit_of_notMem G hx]
      · rw [visit_of_notMem G hx, turns_append, turns_singleton]
        omega

/-- **The loop is the walk**, given fuel for the turns of what it emits. -/
theorem iterate_eq_visit (hinput : ∀ x k, input x k = (G.children x)[k]?) {fuel : Nat}
    {emitted : List α} {root : α} (hroot : root ∉ emitted)
    (hfuel : turns G (G.visit emitted root) ≤ fuel) :
    (step input)^[fuel] ⟨emitted, [(root, 0)]⟩ = ⟨G.visit emitted root, []⟩ := by
  obtain ⟨n, hn, hcount⟩ := exists_turns hinput hroot []
  obtain ⟨m, rfl⟩ : ∃ m, fuel = m + n := ⟨fuel - n, by omega⟩
  rw [Function.iterate_add_apply, hn, iterate_nil]

end Correct

end Loop

/-! ### The loop that stacks what is pending -/

/-- The loop's state: what was emitted, and the nodes still to emit, the next one first. -/
structure Pending (α : Type*) where
  emitted : List α
  stack : List α

namespace Pending

/-- One turn: drop the top node if it was emitted, else stack the children it waits for, else emit
it. -/
def step (children : α → List α) (w : Pending α) : Pending α :=
  match w.stack with
  | [] => w
  | x :: rest =>
      if x ∈ w.emitted then ⟨w.emitted, rest⟩
      else if (children x).filter (· ∉ w.emitted) = [] then ⟨w.emitted ++ [x], rest⟩
      else ⟨w.emitted, (children x).filter (· ∉ w.emitted) ++ x :: rest⟩

variable (G : Dag α)

/-- The turns a list of nodes takes at most: one for each child, one to stack them and one to
emit. -/
def turns (xs : List α) : Nat := (xs.map fun x => (G.children x).length + 2).sum

omit [DecidableEq α] in
theorem turns_concat (xs : List α) (x : α) :
    turns G (xs ++ [x]) = turns G xs + ((G.children x).length + 2) := by
  simp [turns]

/-- Children already emitted are walked for nothing. -/
theorem walk_pending (emitted xs : List α) :
    G.walk emitted (xs.filter (· ∉ emitted)) = G.walk emitted xs := by
  have hmore : ∀ ys seen, emitted <+: seen →
      G.walk seen (ys.filter (· ∉ emitted)) = G.walk seen ys := by
    intro ys
    induction ys with
    | nil => exact fun _ _ => rfl
    | cons y ys ih =>
        intro seen hseen
        by_cases hy : y ∈ emitted
        · rw [List.filter_cons_of_neg (by simpa using hy), walk_cons,
            visit_of_mem G (hseen.subset hy)]
          exact ih seen hseen
        · rw [List.filter_cons_of_pos (by simpa using hy), walk_cons, walk_cons]
          exact ih _ (hseen.trans (prefix_visit G seen y))
  exact hmore xs emitted List.prefix_rfl

/-- The nodes on top are walked, each in as many turns as what it emits takes and one more. -/
theorem exists_turns_walk (xs : List α)
    (hvisit : ∀ x ∈ xs, ∀ emitted rest, ∃ n,
      (step G.children)^[n] ⟨emitted, x :: rest⟩ = ⟨G.visit emitted x, rest⟩ ∧
        n + turns G emitted ≤ turns G (G.visit emitted x) + 1) (emitted rest : List α) : ∃ n,
    (step G.children)^[n] ⟨emitted, xs ++ rest⟩ = ⟨G.walk emitted xs, rest⟩ ∧
      n + turns G emitted ≤ turns G (G.walk emitted xs) + xs.length := by
  induction xs generalizing emitted with
  | nil => exact ⟨0, rfl, by simp⟩
  | cons x xs ih =>
      obtain ⟨m, hm, hmcount⟩ := hvisit x List.mem_cons_self emitted (xs ++ rest)
      obtain ⟨n, hn, hcount⟩ := ih (fun y hy => hvisit y (List.mem_cons_of_mem x hy))
        (G.visit emitted x)
      refine ⟨n + m, ?_, ?_⟩
      · rw [Function.iterate_add_apply, List.cons_append, hm, hn, walk_cons]
      · rw [walk_cons, List.length_cons]
        omega

/-- The node on top is visited. -/
theorem exists_turns (x : α) (emitted rest : List α) : ∃ n,
    (step G.children)^[n] ⟨emitted, x :: rest⟩ = ⟨G.visit emitted x, rest⟩ ∧
      n + turns G emitted ≤ turns G (G.visit emitted x) + 1 := by
  induction hrank : G.rank x using Nat.strongRecOn generalizing x emitted rest with
  | ind r ih =>
      subst hrank
      by_cases hx : x ∈ emitted
      · refine ⟨1, ?_, ?_⟩
        · rw [Function.iterate_one, visit_of_mem G hx]
          exact if_pos hx
        · rw [visit_of_mem G hx, Nat.add_comm]
      · have hemit : ∀ {seen : List α}, x ∉ seen →
            (G.children x).filter (· ∉ seen) = [] →
              step G.children ⟨seen, x :: rest⟩ = ⟨seen ++ [x], rest⟩ := by
          intro seen hseen hnone
          simp only [step, if_neg hseen, if_pos hnone]
        obtain ⟨n, hn, hcount⟩ := exists_turns_walk G ((G.children x).filter (· ∉ emitted))
          (fun y hy s rest => ih (G.rank y) (G.rank_lt (List.mem_of_mem_filter hy)) y s rest rfl)
          emitted (x :: rest)
        rw [walk_pending] at hn hcount
        have hlast := hemit (notMem_walk_children G hx) (by
          rw [List.filter_eq_nil_iff]
          intro y hy
          simpa using mem_walk_of_mem G hy)
        have hlen := List.length_filter_le (fun y => decide (y ∉ emitted)) (G.children x)
        rw [visit_of_notMem G hx, turns_concat]
        by_cases hnone : (G.children x).filter (· ∉ emitted) = []
        · rw [hnone] at hn hcount
          have hwalk : G.walk emitted (G.children x) = emitted := by
            rw [← walk_pending, hnone, walk_nil]
          refine ⟨1, ?_, ?_⟩
          · rw [Function.iterate_one, hwalk, hemit hx hnone]
          · rw [hwalk]
            omega
        · refine ⟨n + 1 + 1, ?_, by omega⟩
          rw [Function.iterate_succ_apply', Function.iterate_succ_apply]
          have hpush : step G.children ⟨emitted, x :: rest⟩ =
              ⟨emitted, (G.children x).filter (· ∉ emitted) ++ x :: rest⟩ := by
            simp only [step, if_neg hx, if_neg hnone]
          rw [hpush, hn, hlast]

theorem iterate_nil (children : α → List α) (n : Nat) (emitted : List α) :
    (step children)^[n] ⟨emitted, []⟩ = ⟨emitted, []⟩ := by
  induction n with
  | zero => rfl
  | succ n ih => rwa [Function.iterate_succ_apply]

/-- **The loop is the walk**, given fuel for the turns of what it emits. -/
theorem iterate_eq_postorder {fuel : Nat} {root : α}
    (hfuel : turns G (G.postorder [root]) < fuel) :
    (step G.children)^[fuel] ⟨[], [root]⟩ = ⟨G.postorder [root], []⟩ := by
  obtain ⟨n, hn, hcount⟩ := exists_turns G root [] []
  change _ ≤ turns G (G.postorder [root]) + 1 at hcount
  obtain ⟨m, rfl⟩ : ∃ m, fuel = m + n := ⟨fuel - n, by omega⟩
  rw [Function.iterate_add_apply, hn]
  exact iterate_nil G.children m _

end Pending

end PostOrder
