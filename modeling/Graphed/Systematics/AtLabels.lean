import Graphed.Systematics.ProductTree

/-!
# The product at each label

The walk gives at each label the product of every factor's member there, each once: the members
that do not vary come in through the tree, by its largest subtrees or a complement, the others one
by one.
-/

namespace Graphed

variable {A B E σ τ : Type} {I : σ → τ → Prop}

/-! ### One label -/

/-- The members in registration order, as the tree indexes them. -/
def memberAt (members : List Nat) (i : Nat) : Nat := members.getD i 0

theorem interval_memberAt (members : List Nat) :
    interval (memberAt members) 0 members.length = members := by
  unfold interval
  rw [Nat.sub_zero, ← List.range_eq_range']
  apply List.ext_getElem
  · rw [List.length_map, List.length_range]
  · intro i hi hi'
    rw [List.getElem_map, List.getElem_range]
    exact (List.getElem_eq_getD 0).symm

theorem map_memberAt (members : List Nat) :
    (List.range members.length).map (memberAt members) = members := by
  have h := interval_memberAt members
  rwa [interval, Nat.sub_zero, ← List.range_eq_range'] at h

namespace Walk

variable {w : Walk A E σ} {w' : Walk B E τ} {φ : A → B} {Good : List Nat → Prop}

theorem Complements.read {c : Nat → Nat} {count i : Nat} {outs : List (Option A)}
    (h : Complements w c count 0 count outs) (hi : i < count) :
    ∃ out, outs[i]? = some out ∧ Rest w (others c count i (i + 1)) out := by
  have hlength : (List.range' 0 (count - 0)).length = outs.length := h.length_eq
  have hi' : i < outs.length := by
    rw [← hlength, List.length_range']
    omega
  refine ⟨outs[i], List.getElem?_eq_getElem hi', ?_⟩
  have hget := (List.forall₂_iff_get.mp h).2 i (by rw [List.length_range']; omega) hi'
  simpa only [List.get_eq_getElem, List.getElem_range', Nat.zero_add, Nat.one_mul] using hget

/-- The varying indices of two equally long member lists. -/
def varyingOf (centrals applied : List Nat) : List Nat :=
  (List.range centrals.length).filter fun i => applied[i]? != centrals[i]?

/-- What does not vary at the nominal nodes and what varies at its own make up the members. -/
theorem members_perm {centrals applied : List Nat} (hlength : applied.length = centrals.length) :
    (((List.range centrals.length).filter fun i => i ∉ varyingOf centrals applied).map
        (memberAt centrals) ++ (varyingOf centrals applied).map (memberAt applied)).Perm
      applied := by
  have hsame : ((List.range centrals.length).filter fun i => i ∉ varyingOf centrals applied).map
      (memberAt centrals) = ((List.range centrals.length).filter
        fun i => !(applied[i]? != centrals[i]?)).map (memberAt applied) := by
    have hfilter : ((List.range centrals.length).filter fun i => i ∉ varyingOf centrals applied) =
        (List.range centrals.length).filter fun i => !(applied[i]? != centrals[i]?) := by
      refine List.filter_congr fun i hi => ?_
      unfold varyingOf
      cases hvary : applied[i]? != centrals[i]? with
      | true => exact decide_eq_false fun h => h (List.mem_filter.mpr ⟨hi, hvary⟩)
      | false => exact decide_eq_true fun h => by simp [hvary] at h
    rw [hfilter]
    refine List.map_congr_left fun i hi => ?_
    have heq : applied[i]? = centrals[i]? := by simpa using (List.mem_filter.mp hi).2
    unfold memberAt
    rw [List.getD_eq_getElem?_getD, List.getD_eq_getElem?_getD, heq]
  rw [hsame, ← List.map_append]
  have hperm := ((List.filter_append_perm (fun i => applied[i]? != centrals[i]?)
    (List.range centrals.length)).map (memberAt applied))
  rw [← hlength, map_memberAt, List.map_append] at hperm
  rw [List.map_append, ← hlength]
  unfold varyingOf
  rw [← hlength]
  exact List.perm_append_comm.trans hperm

theorem others_eq (c : Nat → Nat) {count i : Nat} (hi : i < count) :
    others c count i (i + 1) = ((List.range count).filter fun j => j ∉ [i]).map c := by
  have hrange := List.range'_append_1 (s := 0) (m := i) (n := count - i)
  have hhead : List.range' i (count - i) = i :: List.range' (i + 1) (count - (i + 1)) := by
    rw [show count - i = count - (i + 1) + 1 by omega, List.range'_succ]
  rw [Nat.zero_add, hhead, show i + (count - i) = count by omega] at hrange
  unfold others interval
  rw [← List.map_append, Nat.sub_zero, List.range_eq_range' (n := count), ← hrange,
    List.filter_append, List.filter_cons_of_neg (by simp), List.filter_eq_self.mpr,
    List.filter_eq_self.mpr]
  all_goals
    intro j hj
    have hbounds := List.mem_range'_1.mp hj
    refine decide_eq_true fun h => ?_
    have heq := List.mem_singleton.mp h
    omega

/-- The rest and the members that vary make up the product at the label. -/
theorem finish_meets (hsim : Simulates I w w' φ Good) {applied varying nodes : List Nat}
    {rest : Option A} (label : String) (hne : applied ≠ []) (hgood : Good applied)
    (hrest : Rest w nodes rest) (hvarying : ∀ i ∈ varying, i < applied.length)
    (hperm : (nodes ++ varying.map (memberAt applied)).Perm applied) :
    Meets I (w.product (rest.toList ++ varying.filterMap fun i => applied[i]?.map w.project) label)
      (w'.product ((rest.map φ).toList ++
        varying.filterMap fun i => applied[i]?.map w'.project) label) (Holds w φ applied) := by
  have hmembers : ∀ {X : Type} (f : Nat → X),
      (varying.filterMap fun i => applied[i]?.map f) = (varying.map (memberAt applied)).map f := by
    intro X f
    rw [List.map_map, ← List.filterMap_eq_map]
    refine List.filterMap_congr fun i hi => ?_
    have hi' := hvarying i hi
    have hget := List.getElem?_eq_getElem hi'
    have hmember : memberAt applied i = applied[i] := (List.getElem_eq_getD 0).symm
    simp only [hget, Function.comp_apply, hmember, Option.map_some]
  rw [hmembers, hmembers]
  have hmap : (rest.map φ).toList ++ (varying.map (memberAt applied)).map w'.project =
      (rest.toList ++ (varying.map (memberAt applied)).map w.project).map φ := by
    rw [List.map_append, List.map_map (g := φ)]
    congr 1
    · cases rest <;> rfl
    · exact List.map_congr_left fun node _ => hsim.project node
  rw [hmap]
  have hsingles : ∀ members : List Nat, Parts w (members.map fun node => [node])
      (members.map w.project) := by
    intro members
    induction members with
    | nil => exact .nil
    | cons node members ih => exact .cons (.one node) ih
  have hflat : ∀ members : List Nat, (members.map fun node => [node]).flatten = members := by
    intro members
    induction members with
    | nil => rfl
    | cons node members ih => rw [List.map_cons, List.flatten_cons, ih, List.singleton_append]
  have hparts : ∃ segments, Parts w segments
      (rest.toList ++ (varying.map (memberAt applied)).map w.project) ∧
        segments.flatten = nodes ++ varying.map (memberAt applied) := by
    cases rest with
    | none =>
        obtain rfl : nodes = [] := hrest
        exact ⟨_, hsingles _, hflat _⟩
    | some a =>
        refine ⟨nodes :: _, .cons hrest (hsingles _), ?_⟩
        rw [List.flatten_cons, hflat]
  obtain ⟨segments, hparts, hflatten⟩ := hparts
  rw [← hflatten] at hperm
  have hnonempty : rest.toList ++ (varying.map (memberAt applied)).map w.project ≠ [] := by
    intro hnil
    rw [hnil] at hparts
    cases hparts
    exact hne (List.nil_perm.mp hperm)
  exact (product_meets hsim label hnonempty (hsim.sub hperm.subperm hgood) hparts).mono
    fun a b h => h.perm hperm

/-- What does not vary is read from the tree, from a complement or from the largest subtrees. -/
theorem rest_meets (hsim : Simulates I w w' φ Good) {tree : ProductTree A} {outs : List (Option A)}
    {c : Nat → Nat} {count : Nat} (hpos : 0 < count) (hsound : Sound w c tree)
    (hpresent : Present tree 0 count) (houts : Complements w c count 0 count outs)
    (hgood : Good (interval c 0 count)) {varying : List Nat} (hvarying : ∀ i ∈ varying, i < count) :
    Meets I (w.rest tree outs count varying)
      (w'.rest (tree.through φ) (outs.map (Option.map φ)) count varying)
      (fun rest rest' => rest' = rest.map φ ∧
        Rest w (((List.range count).filter fun i => i ∉ varying).map c) rest) := by
  cases varying with
  | nil =>
      obtain ⟨here, _, _⟩ := hpresent
      refine Meets.bind (read_meets hsound here) ?_
      rintro a _ ⟨hover, rfl⟩
      refine .pure ⟨rfl, ?_⟩
      rw [List.filter_eq_self.mpr fun i _ => decide_eq_true List.not_mem_nil]
      rw [interval, Nat.sub_zero, ← List.range_eq_range'] at hover
      exact hover
  | cons i varying =>
      cases varying with
      | nil =>
          have hi : i < count := hvarying i List.mem_cons_self
          obtain ⟨rest, hread, hrest⟩ := houts.read hi
          rw [others_eq _ hi] at hrest
          unfold Walk.rest
          simp only [List.getElem?_map, hread]
          exact .pure ⟨rfl, hrest⟩
      | cons j varying => exact outside_meets hsim hsound hgood hpos hpresent _

/-- At a label, whatever varies there, the product of the members there. -/
theorem productAt_meets (hsim : Simulates I w w' φ Good) {tree : ProductTree A}
    {outs : List (Option A)} {centrals applied : List Nat} (label : String)
    (hlength : applied.length = centrals.length) (hne : centrals ≠ [])
    (hsound : Sound w (memberAt centrals) tree) (hpresent : Present tree 0 centrals.length)
    (houts : Complements w (memberAt centrals) centrals.length 0 centrals.length outs)
    (hcentrals : Good centrals) (hgood : Good applied) :
    Meets I (w.productAt tree outs centrals applied label)
      (w'.productAt (tree.through φ) (outs.map (Option.map φ)) centrals applied label)
      (Holds w φ applied) := by
  have happlied : applied ≠ [] := by
    intro h
    rw [h] at hlength
    exact hne (List.length_eq_zero_iff.mp hlength.symm)
  have hvarying : ∀ i ∈ varyingOf centrals applied, i < centrals.length :=
    fun i hi => List.mem_range.mp (List.mem_filter.mp hi).1
  have hinterval : Good (interval (memberAt centrals) 0 centrals.length) := by
    rw [interval_memberAt]
    exact hcentrals
  refine Meets.bind (rest_meets hsim (List.length_pos_iff.mpr hne) hsound hpresent houts hinterval
    hvarying) ?_
  rintro rest _ ⟨rfl, hrest⟩
  exact finish_meets hsim label happlied hgood hrest (fun i hi => hlength.symm ▸ hvarying i hi)
    (members_perm hlength)

end Walk

/-! ### Every label -/

section Answered

variable {X Y : Type}

/-- Both dictionaries answer exactly these labels, with related values. -/
def Answered (labels : List String) (R : String → X → Y → Prop) (d : List (String × X))
    (d' : List (String × Y)) : Prop :=
  ∀ label, (label ∈ labels →
      ∃ a b, d.lookup label = some a ∧ d'.lookup label = some b ∧ R label a b) ∧
    (label ∉ labels → d.lookup label = none ∧ d'.lookup label = none)

theorem Answered.nil (R : String → X → Y → Prop) : Answered [] R [] [] :=
  fun _ => ⟨fun h => absurd h List.not_mem_nil, fun _ => ⟨rfl, rfl⟩⟩

theorem Answered.update {labels : List String} {R : String → X → Y → Prop} {d : List (String × X)}
    {d' : List (String × Y)} (h : Answered labels R d d') {label : String} {a : X} {b : Y}
    (hab : R label a b) :
    Answered (labels ++ [label]) R (dictUpdate d [(label, a)]) (dictUpdate d' [(label, b)]) := by
  intro other
  rw [lookup_dictUpdate, lookup_dictUpdate]
  by_cases hother : other = label
  · subst hother
    simp only [List.lookup_cons, beq_self_eq_true, Option.some_or]
    exact ⟨fun _ => ⟨a, b, rfl, rfl, hab⟩,
      fun hnot => absurd (List.mem_append_right _ List.mem_cons_self) hnot⟩
  · have hbeq : (other == label) = false := beq_false_of_ne hother
    simp only [List.lookup_cons, hbeq, List.lookup_nil, Option.none_or]
    refine ⟨fun hmem => (h other).1 ?_, fun hnot => (h other).2 ?_⟩
    · exact (List.mem_append.mp hmem).resolve_right fun h => hother (List.mem_singleton.mp h)
    · exact fun hmem => hnot (List.mem_append_left _ hmem)

/-- A dictionary filled label by label. -/
theorem foldlM_answers {labels : List String} {f : String → WalkM σ E X}
    {g : String → WalkM τ E Y} {R : String → X → Y → Prop}
    (h : ∀ label ∈ labels, Meets I (f label) (g label) (R label)) :
    Meets I
      (labels.foldlM (fun d label => do
        let v ← f label
        pure (dictUpdate d [(label, v)])) [])
      (labels.foldlM (fun d label => do
        let v ← g label
        pure (dictUpdate d [(label, v)])) []) (Answered labels R) := by
  suffices hfrom : ∀ done d d', Answered done R d d' →
      Meets I
        (labels.foldlM (fun d label => do
          let v ← f label
          pure (dictUpdate d [(label, v)])) d)
        (labels.foldlM (fun d label => do
          let v ← g label
          pure (dictUpdate d [(label, v)])) d') (Answered (done ++ labels) R) by
    exact hfrom [] [] [] (Answered.nil R)
  induction labels with
  | nil =>
      intro done d d' hd
      rw [List.append_nil]
      exact .pure hd
  | cons label labels ih =>
      intro done d d' hd
      rw [List.foldlM_cons, List.foldlM_cons]
      have hstep : Meets I (f label >>= fun v => pure (dictUpdate d [(label, v)]))
          (g label >>= fun v => pure (dictUpdate d' [(label, v)]))
          (Answered (done ++ [label]) R) :=
        Meets.bind (h label List.mem_cons_self) fun a b hab => .pure (hd.update hab)
      refine Meets.bind hstep fun e e' he => ?_
      have hrest := ih (fun l hl => h l (List.mem_cons_of_mem _ hl)) (done ++ [label]) e e' he
      rwa [List.append_assoc, List.singleton_append] at hrest

end Answered

/-- The members of some entries at a label. -/
def membersAt (registry : PointRegistry) (label : String) (entries : List Registered) : List Nat :=
  entries.map fun f => f.entry.twoLevel registry label

namespace Walk

variable {w : Walk A E σ} {w' : Walk B E τ} {φ : A → B} {Good : List Nat → Prop}
  {registry : PointRegistry}

/-- What the walks leave of some factors: the product of the members at every label, and of no
factor nothing. -/
def Filled (w : Walk A E σ) (φ : A → B) (registry : PointRegistry) (factors : List Registered)
    (labels : List String) (d : List (String × A)) (d' : List (String × B)) : Prop :=
  if factors = [] then d = [] ∧ d' = []
  else (∃ a, w.Over (membersAt registry "nominal" factors) a) ∧
    Answered labels (fun label => Holds w φ (membersAt registry label factors)) d d'

theorem productOver_meets (hsim : Simulates I w w' φ Good) {factors : List Registered}
    {labels : List String} (hcentrals : Good (membersAt registry "nominal" factors))
    (hgood : ∀ label ∈ labels, factors ≠ [] → Good (membersAt registry label factors)) :
    Meets I (w.productOver registry factors labels) (w'.productOver registry factors labels)
      (Filled w φ registry factors labels) := by
  unfold productOver Filled
  by_cases hfactors : factors = []
  · simp only [if_pos hfactors]
    exact .pure ⟨rfl, rfl⟩
  · simp only [if_neg hfactors]
    have hdef : (factors.map fun f => f.entry.twoLevel registry "nominal") =
        membersAt registry "nominal" factors := rfl
    simp only [hdef]
    have hlength : ∀ label, (membersAt registry label factors).length =
        (membersAt registry "nominal" factors).length := by
      intro label
      unfold membersAt
      rw [List.length_map, List.length_map]
    have hne : membersAt registry "nominal" factors ≠ [] :=
      fun h => hfactors (List.map_eq_nil_iff.mp h)
    generalize membersAt registry "nominal" factors = centrals at hcentrals hlength hne ⊢
    have hpos := List.length_pos_iff.mpr hne
    have hinterval : Good (interval (memberAt centrals) 0 centrals.length) := by
      rw [interval_memberAt]
      exact hcentrals
    have hproject : centrals.map w'.project = (centrals.map w.project).map φ := by
      rw [List.map_map]
      exact List.map_congr_left fun node _ => hsim.project node
    rw [hproject]
    have hread : ∀ i < centrals.length,
        (centrals.map w.project)[i]? = some (w.project (memberAt centrals i)) := by
      intro i hi
      rw [List.getElem?_map, List.getElem?_eq_getElem hi]
      exact congrArg (some ∘ w.project) (List.getElem_eq_getD 0)
    have htree : Meets I (w.productTree (centrals.map w.project))
        (w'.productTree ((centrals.map w.project).map φ)) (fun tree tree' =>
          Sound w (memberAt centrals) tree ∧ Present tree 0 centrals.length ∧
            (∃ a, w.Over centrals a) ∧ tree' = tree.through φ) := by
      have hmap : centrals.map w.project ≠ [] := fun h => hne (List.map_eq_nil_iff.mp h)
      have hmap' : (centrals.map w.project).map φ ≠ [] := fun h => hmap (List.map_eq_nil_iff.mp h)
      unfold productTree
      rw [if_neg hmap, if_neg hmap', List.length_map, List.length_map, List.length_map]
      refine Meets.bind (build_meets hsim hread hinterval hpos le_rfl) fun x y hbuilt => ?_
      have hover := hbuilt.holds.1
      rw [interval_memberAt] at hover
      exact .pure ⟨hbuilt.sound, hbuilt.present, ⟨_, hover⟩, hbuilt.through⟩
    refine Meets.bind htree ?_
    rintro tree _ ⟨hsound, hpresent, hroot, rfl⟩
    refine Meets.bind (complements_meets hsim hsound hinterval hpos hpresent) ?_
    rintro outs _ ⟨houts, rfl⟩
    refine (foldlM_answers fun label hlabel => ?_).mono fun d d' h => ⟨hroot, h⟩
    exact productAt_meets hsim label (hlength label) hne hsound hpresent houts hcentrals
      (hgood label hlabel hfactors)

end Walk

end Graphed
