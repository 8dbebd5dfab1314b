import Graphed.Library.Attempts
import Graphed.Systematics.AtLabels

/-!
# The ambient, entry by entry

The registered entries are operations in registration order: a factor multiplies the running value
by its member, an overlay replaces it where it spans the label or nothing precedes it. The walk
gives the value of that fold, having multiplied what the fold multiplies since the last replacement.
-/

namespace Graphed

variable {A B E V σ τ : Type} {I : σ → τ → Prop}

/-! ### The fold -/

section Fold

variable (registry : PointRegistry) (overlays fixed : List Nat) (label : String)

/-- One operation on the running value. -/
def ambientStep (value : Nat → V) (op : V → V → V) (running : Option V) (f : Registered) :
    Option V :=
  let v := value (f.entry.twoLevel registry label)
  if f.id ∈ overlays then
    if running.isNone || Walk.spans registry fixed f label then some v else running
  else some (running.elim v fun r => op r v)

/-- The operations in registration order. -/
def ambientAt (value : Nat → V) (op : V → V → V) (entries : List Registered) : Option V :=
  entries.foldl (ambientStep registry overlays fixed label value op) none

/-- The members multiplied since the last replacement. -/
def together (running : Option (List Nat)) (entries : List Registered) : Option (List Nat) :=
  entries.foldl (ambientStep registry overlays fixed label (fun node => [node]) (· ++ ·)) running

variable {registry overlays fixed label}

/-- What the fold holds is the product of the members it has multiplied since. -/
theorem foldl_ambientStep {op : V → V → V} (hassoc : ∀ a b c, op (op a b) c = op a (op b c))
    (value : Nat → V) (entries : List Registered) {chunk : Option (List Nat)} {running : Option V}
    (h : running = chunk.bind fun nodes => productOf op (nodes.map value))
    (hchunk : ∀ nodes, chunk = some nodes → nodes ≠ []) :
    entries.foldl (ambientStep registry overlays fixed label value op) running =
      (together registry overlays fixed label chunk entries).bind fun nodes =>
        productOf op (nodes.map value) := by
  induction entries generalizing chunk running with
  | nil => exact h
  | cons f entries ih =>
      rw [together, List.foldl_cons, List.foldl_cons]
      have hnone : running.isNone = chunk.isNone := by
        cases chunk with
        | none => rw [h]; rfl
        | some nodes =>
            cases nodes with
            | nil => exact absurd rfl (hchunk [] rfl)
            | cons node nodes => rw [h]; rfl
      apply ih
      · unfold ambientStep
        simp only [hnone]
        by_cases hoverlay : f.id ∈ overlays
        · rw [if_pos hoverlay, if_pos hoverlay]
          by_cases hreplace : (chunk.isNone || Walk.spans registry fixed f label) = true
          · rw [if_pos hreplace, if_pos hreplace]
            rfl
          · rw [if_neg hreplace, if_neg hreplace]
            exact h
        · rw [if_neg hoverlay, if_neg hoverlay]
          cases chunk with
          | none =>
              rw [h]
              rfl
          | some nodes =>
              cases nodes with
              | nil => exact absurd rfl (hchunk [] rfl)
              | cons node nodes =>
                  rw [h]
                  simp only [Option.bind_some, Option.elim_some, List.map_append]
                  have hone : productOf op [value (f.entry.twoLevel registry label)] = _ := rfl
                  exact (productOf_append hassoc rfl hone).symm
      · intro nodes hnodes
        unfold ambientStep at hnodes
        split at hnodes
        · split at hnodes
          · obtain rfl := Option.some.inj hnodes
            exact List.cons_ne_nil _ _
          · exact hchunk nodes hnodes
        · obtain rfl := Option.some.inj hnodes
          cases chunk with
          | none => exact List.cons_ne_nil _ _
          | some nodes => exact List.append_ne_nil_of_right_ne_nil _ (List.cons_ne_nil _ _)

/-- A run of factors adds its members. -/
theorem together_run {run : List Registered} (hrun : ∀ f ∈ run, f.id ∉ overlays)
    (chunk : Option (List Nat)) :
    together registry overlays fixed label chunk run =
      if run = [] then chunk else some (chunk.getD [] ++ membersAt registry label run) := by
  induction run generalizing chunk with
  | nil => rfl
  | cons f run ih =>
      rw [together, List.foldl_cons, if_neg (List.cons_ne_nil _ _)]
      have hstep : ambientStep registry overlays fixed label (fun node => [node]) (· ++ ·) chunk f =
          some (chunk.getD [] ++ [f.entry.twoLevel registry label]) := by
        unfold ambientStep
        rw [if_neg (hrun f List.mem_cons_self)]
        cases chunk <;> rfl
      rw [hstep]
      change together registry overlays fixed label _ run = _
      rw [ih fun g hg => hrun g (List.mem_cons_of_mem _ hg)]
      by_cases hnil : run = []
      · subst hnil
        rfl
      · rw [if_neg hnil, Option.getD_some, List.append_assoc]
        rfl

end Fold

/-! ### The runs between overlays -/

theorem splitRuns_eq (overlays : List Nat) (entries : List Registered) :
    entries = (Walk.splitRuns overlays entries).1 ++
      (Walk.splitRuns overlays entries).2.flatMap fun mark => mark.1 :: mark.2 := by
  induction entries with
  | nil => rfl
  | cons f entries ih =>
      unfold Walk.splitRuns
      by_cases hoverlay : f.id ∈ overlays
      · simp only [if_pos hoverlay, List.flatMap_cons, List.nil_append, List.cons_append]
        rw [← ih]
      · simp only [if_neg hoverlay, List.cons_append]
        rw [← ih]

theorem splitRuns_run (overlays : List Nat) (entries : List Registered) :
    ∀ f ∈ (Walk.splitRuns overlays entries).1, f.id ∉ overlays := by
  induction entries with
  | nil => exact fun f hf => absurd hf List.not_mem_nil
  | cons g entries ih =>
      unfold Walk.splitRuns
      by_cases hoverlay : g.id ∈ overlays
      · simp only [if_pos hoverlay]
        exact fun f hf => absurd hf List.not_mem_nil
      · simp only [if_neg hoverlay]
        intro f hf
        obtain rfl | hf := List.mem_cons.mp hf
        · exact hoverlay
        · exact ih f hf

theorem splitRuns_marks (overlays : List Nat) (entries : List Registered) :
    ∀ mark ∈ (Walk.splitRuns overlays entries).2,
      mark.1.id ∈ overlays ∧ ∀ f ∈ mark.2, f.id ∉ overlays := by
  induction entries with
  | nil => exact fun mark hmark => absurd hmark List.not_mem_nil
  | cons g entries ih =>
      unfold Walk.splitRuns
      by_cases hoverlay : g.id ∈ overlays
      · simp only [if_pos hoverlay]
        intro mark hmark
        obtain rfl | hmark := List.mem_cons.mp hmark
        · exact ⟨hoverlay, splitRuns_run overlays entries⟩
        · exact ih mark hmark
      · simp only [if_neg hoverlay]
        exact ih

/-- The runs a walk composes on their own. -/
def runs (overlays : List Nat) (entries : List Registered) : List (List Registered) :=
  (Walk.splitRuns overlays entries).1 :: (Walk.splitRuns overlays entries).2.map Prod.snd

theorem mapM_meets {K X Y : Type} {items : List K} {f : K → WalkM σ E X}
    {g : K → WalkM τ E Y} {R : K → X → Y → Prop}
    (h : ∀ item ∈ items, Meets I (f item) (g item) (R item)) :
    Meets I (items.mapM f) (items.mapM g) (fun xs ys => ∃ pairs : List (X × Y),
      xs = pairs.map Prod.fst ∧ ys = pairs.map Prod.snd ∧
        List.Forall₂ (fun item pair => R item pair.1 pair.2) items pairs) := by
  induction items with
  | nil => exact .pure ⟨[], rfl, rfl, .nil⟩
  | cons item items ih =>
      rw [List.mapM_cons, List.mapM_cons]
      refine Meets.bind (h item List.mem_cons_self) fun a b hab => ?_
      refine Meets.bind (ih fun i hi => h i (List.mem_cons_of_mem _ hi)) ?_
      rintro _ _ ⟨pairs, rfl, rfl, hpairs⟩
      exact .pure ⟨(a, b) :: pairs, rfl, rfl, .cons hab hpairs⟩

namespace Walk

variable {w : Walk A E σ} {w' : Walk B E τ} {φ : A → B} {Good : List Nat → Prop}
  {registry : PointRegistry} {overlays fixed : List Nat} {label : String}

/-- What the two walks hold of the members multiplied so far. -/
def Running (w : Walk A E σ) (φ : A → B) (chunk : Option (List Nat)) (r : Option A)
    (r' : Option B) : Prop :=
  Option.Rel w.Over chunk r ∧ r' = r.map φ

/-- Members a walk has multiplied together, maybe with more. -/
def Made (w : Walk A E σ) (nodes : List Nat) : Prop := ∃ ms a, nodes.Sublist ms ∧ w.Over ms a

theorem Running.made {chunk : Option (List Nat)} {r : Option A} {r' : Option B}
    (h : Running w φ chunk r r') {nodes : List Nat} (hnodes : chunk = some nodes) :
    Made w nodes := by
  subst hnodes
  obtain ⟨hrel, -⟩ := h
  cases hrel with
  | some hover => exact ⟨_, _, List.Sublist.refl _, hover⟩

/-- One overlay and the run after it. -/
theorem overlayStep_meets (hsim : Simulates I w w' φ Good) {labels : List String}
    (hlabel : label ∈ labels) {overlay : Registered} {run : List Registered}
    (hoverlay : overlay.id ∈ overlays) (hrun : ∀ f ∈ run, f.id ∉ overlays)
    {d : List (String × A)} {d' : List (String × B)} (hfilled : Filled w φ registry run labels d d')
    {chunk : Option (List Nat)} {r : Option A} {r' : Option B} (hr : Running w φ chunk r r')
    (hgood : ∀ nodes, together registry overlays fixed label chunk (overlay :: run) = some nodes →
      Good nodes) :
    Meets I (w.overlayStep registry fixed label r (overlay, d))
      (w'.overlayStep registry fixed label r' (overlay, d'))
      (Running w φ (together registry overlays fixed label chunk (overlay :: run))) := by
  obtain ⟨hrel, rfl⟩ := hr
  have hnone : r.isNone = chunk.isNone := by cases hrel <;> rfl
  have hnone' : (r.map φ).isNone = r.isNone := by cases r <;> rfl
  rw [together, List.foldl_cons] at hgood ⊢
  change ∀ nodes, together _ _ _ _ _ run = some nodes → Good nodes at hgood
  change Meets I _ _ (Running w φ (together _ _ _ _ _ run))
  -- the running value once the overlay has been stepped over
  have hreplaced : ∃ chunk' v, ambientStep registry overlays fixed label (fun node => [node])
      (· ++ ·) chunk overlay = some chunk' ∧ w.Over chunk' v ∧
        (if r.isNone || spans registry fixed overlay label then
          some (w.project (overlay.entry.twoLevel registry label)) else r) = some v := by
    unfold ambientStep
    simp only [if_pos hoverlay, ← hnone]
    by_cases hreplace : (r.isNone || spans registry fixed overlay label) = true
    · rw [if_pos hreplace, if_pos hreplace]
      exact ⟨_, _, rfl, .one _, rfl⟩
    · rw [if_neg hreplace, if_neg hreplace]
      cases hrel with
      | none => exact absurd rfl hreplace
      | some hover => exact ⟨_, _, rfl, hover, rfl⟩
  obtain ⟨chunk', v, hstep, hover, hv⟩ := hreplaced
  have hv' : (if (r.map φ).isNone || spans registry fixed overlay label then
      some (w'.project (overlay.entry.twoLevel registry label)) else r.map φ) = some (φ v) := by
    rw [hnone', hsim.project, ← Option.map_some (f := φ), ← apply_ite (Option.map φ), hv]
    rfl
  rw [hstep, together_run hrun] at hgood ⊢
  unfold overlayStep
  simp only [hv, hv']
  by_cases hnil : run = []
  · unfold Filled at hfilled
    rw [if_pos hnil] at hfilled ⊢
    obtain ⟨rfl, rfl⟩ := hfilled
    exact .pure ⟨.some hover, rfl⟩
  · unfold Filled at hfilled
    rw [if_neg hnil] at hfilled hgood ⊢
    obtain ⟨a, _, ha, hb, hover', rfl⟩ := (hfilled.2 label).1 hlabel
    simp only [ha, hb]
    refine Meets.bind (times_meets hsim label (hgood _ rfl) ⟨hover, rfl⟩ ⟨hover', rfl⟩) ?_
    rintro next _ ⟨hnext, rfl⟩
    exact .pure ⟨.some hnext, rfl⟩

theorem together_append (chunk : Option (List Nat)) (entries rest : List Registered) :
    together registry overlays fixed label chunk (entries ++ rest) =
      together registry overlays fixed label
        (together registry overlays fixed label chunk entries) rest := by
  unfold together
  rw [List.foldl_append]

/-- A prefix of a run multiplies no more than the run. -/
theorem together_run_prefix {run run' : List Registered} (hinit : run' <+: run)
    (hrun : ∀ f ∈ run, f.id ∉ overlays) {chunk : Option (List Nat)} {nodes : List Nat}
    (h : together registry overlays fixed label chunk run' = some nodes) :
    ∃ ms, together registry overlays fixed label chunk run = some ms ∧ nodes.Sublist ms := by
  obtain ⟨rest, rfl⟩ := hinit
  have hrest : ∀ f ∈ rest, f.id ∉ overlays := fun f hf => hrun f (List.mem_append_right _ hf)
  rw [together_append, h, together_run hrest]
  by_cases hnil : rest = []
  · rw [if_pos hnil]
    exact ⟨nodes, rfl, List.Sublist.refl _⟩
  · rw [if_neg hnil]
    exact ⟨_, rfl, List.sublist_append_left _ _⟩

theorem prefix_append_cases {X : Type} {xs ys zs : List X} (h : xs <+: ys ++ zs) :
    (xs <+: ys ∧ xs ≠ ys) ∨ ∃ xs', xs = ys ++ xs' ∧ xs' <+: zs := by
  obtain ⟨t, ht⟩ := h
  obtain ⟨a', ha, -⟩ | ⟨c', hc, ht'⟩ := List.append_eq_append_iff.mp ht
  · by_cases heq : xs = ys
    · exact .inr ⟨[], by rw [heq, List.append_nil], List.nil_prefix⟩
    · exact .inl ⟨⟨a', ha.symm⟩, heq⟩
  · exact .inr ⟨c', hc, t, ht'.symm⟩

/-- What two walks hold at a label after some entries, and have multiplied on the way. -/
structure Folded (w : Walk A E σ) (φ : A → B) (registry : PointRegistry) (overlays fixed : List Nat)
    (label : String) (entries : List Registered) (r : Option A) (r' : Option B) : Prop where
  running : Running w φ (together registry overlays fixed label none entries) r r'
  made : ∀ entries', entries' <+: entries → ∀ nodes,
    together registry overlays fixed label none entries' = some nodes → Made w nodes

/-- What was multiplied in a run is part of what was multiplied at its end. -/
theorem Folded.run {head run : List Registered} (hrun : ∀ f ∈ run, f.id ∉ overlays) {r : Option A}
    {r' : Option B} (hhead : ∀ entries', entries' <+: head → entries' ≠ head → ∀ nodes,
      together registry overlays fixed label none entries' = some nodes → Made w nodes)
    (hr : Running w φ (together registry overlays fixed label none (head ++ run)) r r') :
    Folded w φ registry overlays fixed label (head ++ run) r r' := by
  refine ⟨hr, fun entries' hinit nodes hnodes => ?_⟩
  obtain ⟨hshort, hne⟩ | ⟨run', rfl, hinit'⟩ := prefix_append_cases hinit
  · exact hhead entries' hshort hne nodes hnodes
  · rw [together_append] at hnodes
    obtain ⟨ms, hms, hsub⟩ := together_run_prefix hinit' hrun hnodes
    rw [← together_append] at hms
    obtain ⟨ns, a, hsub', hover⟩ := hr.made hms
    exact ⟨ns, a, hsub.trans hsub', hover⟩

/-- The run before the first overlay. -/
theorem Folded.first {run : List Registered} (hrun : ∀ f ∈ run, f.id ∉ overlays)
    {labels : List String} (hlabel : label ∈ labels) {d : List (String × A)}
    {d' : List (String × B)} (hfilled : Filled w φ registry run labels d d') :
    Folded w φ registry overlays fixed label run (d.lookup label) (d'.lookup label) := by
  have hhead : ∀ entries' : List Registered, entries' <+: [] → entries' ≠ [] → ∀ nodes,
      together registry overlays fixed label none entries' = some nodes → Made w nodes :=
    fun entries' hinit hne => absurd (List.prefix_nil.mp hinit) hne
  suffices hr : Running w φ (together registry overlays fixed label none ([] ++ run))
      (d.lookup label) (d'.lookup label) from Folded.run hrun hhead hr
  rw [List.nil_append, together_run hrun]
  unfold Filled at hfilled
  by_cases hnil : run = []
  · rw [if_pos hnil] at hfilled ⊢
    obtain ⟨rfl, rfl⟩ := hfilled
    exact ⟨.none, rfl⟩
  · rw [if_neg hnil] at hfilled ⊢
    obtain ⟨a, _, ha, hb, hover, rfl⟩ := (hfilled.2 label).1 hlabel
    rw [ha, hb]
    exact ⟨.some hover, rfl⟩

theorem Folded.mark {done run : List Registered} {overlay : Registered}
    (hrun : ∀ f ∈ run, f.id ∉ overlays) {r r₁ : Option A} {r' r₁' : Option B}
    (h : Folded w φ registry overlays fixed label done r r')
    (hr : Running w φ (together registry overlays fixed label none (done ++ overlay :: run))
      r₁ r₁') : Folded w φ registry overlays fixed label (done ++ overlay :: run) r₁ r₁' := by
  rw [← List.singleton_append, ← List.append_assoc] at hr ⊢
  refine Folded.run hrun (fun entries' hinit hne nodes hnodes => ?_) hr
  obtain rfl | hshort := List.prefix_concat_iff.mp hinit
  · exact absurd rfl hne
  · exact h.made entries' hshort nodes hnodes

/-- The products of the runs after the overlays, as the two walks hold them. -/
def MarksFilled (w : Walk A E σ) (φ : A → B) (registry : PointRegistry) (labels : List String)
    (marked : List (Registered × List Registered))
    (pairs : List ((Registered × List (String × A)) × (Registered × List (String × B)))) : Prop :=
  List.Forall₂ (fun mark pair => pair.1.1 = mark.1 ∧ pair.2.1 = mark.1 ∧
    Filled w φ registry mark.2 labels pair.1.2 pair.2.2) marked pairs

/-- Stepping over the overlays at a label, by induction on them. -/
theorem marks_meets (hsim : Simulates I w w' φ Good) {labels : List String}
    (hlabel : label ∈ labels) {marked : List (Registered × List Registered)}
    {pairs : List ((Registered × List (String × A)) × (Registered × List (String × B)))}
    (hpairs : MarksFilled w φ registry labels marked pairs)
    (hmarks : ∀ mark ∈ marked, mark.1.id ∈ overlays ∧ ∀ f ∈ mark.2, f.id ∉ overlays)
    {done : List Registered} {r : Option A} {r' : Option B}
    (hr : Folded w φ registry overlays fixed label done r r')
    (hgood : ∀ entries', entries' <+: done ++ marked.flatMap (fun mark => mark.1 :: mark.2) →
      ∀ nodes, together registry overlays fixed label none entries' = some nodes → Good nodes) :
    Meets I ((pairs.map Prod.fst).foldlM (w.overlayStep registry fixed label) r)
      ((pairs.map Prod.snd).foldlM (w'.overlayStep registry fixed label) r')
      (Folded w φ registry overlays fixed label
        (done ++ marked.flatMap fun mark => mark.1 :: mark.2)) := by
  induction hpairs generalizing done r r' with
  | nil =>
      rw [List.flatMap_nil, List.append_nil]
      exact .pure hr
  | @cons mark pair marked pairs hpair _ ih =>
      obtain ⟨⟨o, d⟩, ⟨o', d'⟩⟩ := pair
      obtain ⟨rfl, rfl, hfilled⟩ := hpair
      obtain ⟨hoverlay, hrun⟩ := hmarks mark List.mem_cons_self
      rw [List.flatMap_cons, ← List.append_assoc] at hgood ⊢
      rw [List.map_cons, List.map_cons, List.foldlM_cons, List.foldlM_cons]
      have hhere := hgood (done ++ mark.1 :: mark.2) (List.prefix_append _ _)
      rw [together_append] at hhere
      refine Meets.bind (overlayStep_meets hsim hlabel hoverlay hrun hfilled hr.running hhere) ?_
      intro r₁ r₁' hr₁
      rw [← together_append] at hr₁
      exact ih (fun m hm => hmarks m (List.mem_cons_of_mem _ hm)) (hr.mark hrun hr₁) hgood

/-- The runs compose on their own, and then every label is folded. -/
theorem composeOrdered_meets (hsim : Simulates I w w' φ Good) {factors : List Registered}
    {labels : List String}
    (hruns : ∀ run ∈ runs overlays factors, Good (membersAt registry "nominal" run))
    (hgood : ∀ label ∈ labels, ∀ entries, entries <+: factors → ∀ nodes,
      together registry overlays fixed label none entries = some nodes → Good nodes) :
    Meets I (w.composeOrdered registry factors labels overlays fixed)
      (w'.composeOrdered registry factors labels overlays fixed)
      (fun d d' => (∀ run ∈ runs overlays factors, run ≠ [] →
          ∃ a, w.Over (membersAt registry "nominal" run) a) ∧
        Answered labels (fun label => Folded w φ registry overlays fixed label factors) d d') := by
  have heq := splitRuns_eq overlays factors
  have hrun := splitRuns_run overlays factors
  have hmarks := splitRuns_marks overlays factors
  unfold composeOrdered
  simp only
  unfold runs at hruns ⊢
  generalize (splitRuns overlays factors).1 = run at heq hrun hruns ⊢
  generalize (splitRuns overlays factors).2 = marked at heq hmarks hruns ⊢
  subst heq
  -- a run multiplies part of what its label has multiplied by its end
  have hpart : ∀ label ∈ labels, ∀ done after, ∀ run', (∀ f ∈ run', f.id ∉ overlays) →
      done ++ (run' ++ after) = run ++ marked.flatMap (fun mark => mark.1 :: mark.2) →
        run' ≠ [] → Good (membersAt registry label run') := by
    intro label hlabel done after run' hrun' heq hnil
    have hend := hgood label hlabel (done ++ run') ⟨after, by rw [List.append_assoc, heq]⟩
    rw [together_append, together_run hrun', if_neg hnil] at hend
    exact hsim.sub (List.sublist_append_right _ _).subperm (hend _ rfl)
  have hfirst := productOver_meets hsim (hruns run List.mem_cons_self)
    fun label hlabel => hpart label hlabel [] _ run hrun rfl
  refine Meets.bind hfirst fun first first' hfilled => ?_
  have hrest : ∀ mark ∈ marked, Meets I
      (w.productOver registry mark.2 labels >>= fun products => pure (mark.1, products))
      (w'.productOver registry mark.2 labels >>= fun products => pure (mark.1, products))
      (fun x y => x.1 = mark.1 ∧ y.1 = mark.1 ∧ Filled w φ registry mark.2 labels x.2 y.2) := by
    intro mark hmark
    have hnominal := hruns mark.2 (List.mem_cons_of_mem _ (List.mem_map_of_mem hmark))
    refine Meets.bind (productOver_meets hsim hnominal fun label hlabel => ?_) fun d d' hd =>
      .pure ⟨rfl, rfl, hd⟩
    obtain ⟨before, after, rfl⟩ := List.append_of_mem hmark
    refine hpart label hlabel
      (run ++ (before.flatMap fun m => m.1 :: m.2) ++ [mark.1])
      (after.flatMap fun m => m.1 :: m.2) mark.2 (hmarks mark hmark).2 ?_
    simp only [List.flatMap_append, List.flatMap_cons, List.append_assoc, List.cons_append,
      List.nil_append]
  refine Meets.bind (mapM_meets hrest) ?_
  rintro _ _ ⟨pairs, rfl, rfl, hpairs⟩
  have hroots : ∀ run' ∈ run :: marked.map Prod.snd, run' ≠ [] →
      ∃ a, w.Over (membersAt registry "nominal" run') a := by
    have hroot : ∀ {run' d d'}, Filled w φ registry run' labels d d' → run' ≠ [] →
        ∃ a, w.Over (membersAt registry "nominal" run') a := by
      intro run' d d' hd hnil
      unfold Filled at hd
      rw [if_neg hnil] at hd
      exact hd.1
    intro run' hrun'
    obtain rfl | hrun' := List.mem_cons.mp hrun'
    · exact hroot hfilled
    · obtain ⟨mark, hmark, rfl⟩ := List.mem_map.mp hrun'
      obtain ⟨pair, -, -, -, hd⟩ := Attempts.exists_of_forall₂ hpairs hmark
      exact hroot hd
  refine (foldlM_answers fun label hlabel => ?_).mono fun d d' hd => ⟨hroots, hd⟩
  refine marks_meets hsim hlabel hpairs hmarks ?_ (hgood label hlabel)
  exact Folded.first hrun hlabel hfilled

/-- What composing leaves: every run's nominal product was made, and every label asked for holds the
fold of the entries there. -/
structure Composed (w : Walk A E σ) (φ : A → B) (registry : PointRegistry)
    (factors : List Registered) (labels : List String) (overlays fixed : List Nat)
    (d : List (String × Option A)) (d' : List (String × Option B)) : Prop where
  nominal : ∀ run ∈ runs overlays factors, run ≠ [] →
    ∃ a, w.Over (membersAt registry "nominal" run) a
  folded : ∀ label ∈ labels, Folded w φ registry overlays fixed label factors
    (d.lookup label).join (d'.lookup label).join

theorem splitRuns_nil (entries : List Registered) : splitRuns [] entries = (entries, []) := by
  induction entries with
  | nil => rfl
  | cons f entries ih =>
      unfold splitRuns
      rw [ih]
      rfl

theorem lookup_map_some {X : Type} (items : List (String × X)) (label : String) :
    ((items.map fun item => (item.1, some item.2)).lookup label).join = items.lookup label := by
  induction items with
  | nil => rfl
  | cons item items ih =>
      rw [List.map_cons, List.lookup_cons, List.lookup_cons]
      cases label == item.1 with
      | true => rfl
      | false => exact ih

/-- **The composition.** Two walks over the same entries hold the fold of the entries at every
label, or raise the same; every node they read is there. -/
theorem compose_meets (hsim : Simulates I w w' φ Good) {factors : List Registered}
    {labels : List String}
    (hruns : ∀ run ∈ runs overlays factors, Good (membersAt registry "nominal" run))
    (hgood : ∀ label ∈ labels, ∀ entries, entries <+: factors → ∀ nodes,
      together registry overlays fixed label none entries = some nodes → Good nodes) :
    Meets I (w.compose registry factors labels overlays fixed)
      (w'.compose registry factors labels overlays fixed)
      (Composed w φ registry factors labels overlays fixed) := by
  unfold compose
  by_cases hoverlays : overlays = []
  · subst hoverlays
    rw [if_pos rfl, if_pos rfl]
    have hruns_eq : runs [] factors = [factors] := by
      unfold runs
      rw [splitRuns_nil]
      rfl
    have hnot : ∀ f ∈ factors, f.id ∉ ([] : List Nat) := fun _ _ => List.not_mem_nil
    rw [hruns_eq] at hruns
    have hmembers : ∀ label ∈ labels, factors ≠ [] → Good (membersAt registry label factors) := by
      intro label hlabel hnil
      have hend := hgood label hlabel factors (List.prefix_refl _)
      rw [together_run hnot, if_neg hnil] at hend
      exact hend _ rfl
    have hover := productOver_meets hsim (hruns factors List.mem_cons_self) hmembers
    refine Meets.bind hover fun d d' hd => .pure ⟨?_, fun label hlabel => ?_⟩
    · intro run hrun hnil
      rw [hruns_eq] at hrun
      obtain rfl := List.mem_singleton.mp hrun
      unfold Filled at hd
      rw [if_neg hnil] at hd
      exact hd.1
    · rw [lookup_map_some, lookup_map_some]
      exact Folded.first hnot hlabel hd
  · rw [if_neg hoverlays, if_neg hoverlays]
    refine (composeOrdered_meets hsim hruns hgood).mono fun d d' hd => ⟨hd.1, ?_⟩
    intro label hlabel
    obtain ⟨r, r', hr, hr', hfolded⟩ := (hd.2 label).1 hlabel
    rw [hr, hr']
    exact hfolded

section Total

variable (registry overlays fixed) (factors : List Registered) (labels : List String)

/-- A walk ends with the fold of the entries or with what a product raised. -/
theorem compose_ends (w : Walk A E σ) (st : σ) :
    (∃ d st', w.compose registry factors labels overlays fixed st = .ok (d, st') ∧
      w.Composed id registry factors labels overlays fixed d d) ∨
    ∃ e, w.compose registry factors labels overlays fixed st = .error (.raised e) := by
  have hmeets : Meets (· = ·) (w.compose registry factors labels overlays fixed)
      (w.compose registry factors labels overlays fixed)
      (Composed w id registry factors labels overlays fixed) :=
    compose_meets w.simulates_self (fun _ _ => trivial) fun _ _ _ _ _ _ => trivial
  obtain ⟨d, d', st', st'', hd, hd', -, hcomposed⟩ | ⟨e, he, -⟩ := hmeets st st rfl
  · rw [hd] at hd'
    cases hd'
    exact .inl ⟨d, st', hd, hcomposed⟩
  · exact .inr ⟨e, he⟩

/-- A walk whose product is an operation. -/
def total (project : Nat → V) (op : V → V → V) : Walk V Empty Unit where
  project := project
  mul a b _ := pure (op a b)

/-- Over a commutative and associative operation the composition is the fold of the entries. -/
theorem compose_total (project : Nat → V) {op : V → V → V}
    (hassoc : ∀ a b c, op (op a b) c = op a (op b c)) (hcomm : ∀ a b, op a b = op b a) :
    ∃ d, (total project op).compose registry factors labels overlays fixed () = .ok (d, ()) ∧
      ∀ label ∈ labels,
        (d.lookup label).join = ambientAt registry overlays fixed label project op factors := by
  obtain ⟨d, ⟨⟩, hd, hcomposed⟩ | ⟨e, -⟩ :=
    compose_ends registry overlays fixed factors labels (total project op) ()
  · refine ⟨d, hd, fun label hlabel => ?_⟩
    obtain ⟨hrel, -⟩ := (hcomposed.folded label hlabel).running
    have hfold : ambientAt registry overlays fixed label project op factors =
        (together registry overlays fixed label none factors).bind fun nodes =>
          productOf op (nodes.map project) :=
      foldl_ambientStep hassoc project factors rfl fun nodes h => by cases h
    rw [hfold]
    generalize together registry overlays fixed label none factors = chunk at hrel ⊢
    generalize (d.lookup label).join = running at hrel ⊢
    cases hrel with
    | none => rfl
    | some hover =>
        refine (Product.eq_productOf hassoc hcomm ?_ hover).symm
        rintro a b c ⟨_, _, _, hmul⟩
        cases hmul
        rfl
  · exact e.elim

/-- With no overlay the fold is the product of every entry's member. -/
theorem ambientAt_nil (label : String) (project : Nat → V) (op : V → V → V) :
    ambientAt registry [] fixed label project op factors =
      productOf op ((membersAt registry label factors).map project) := by
  have hstep : ∀ (entries : List Registered) (v : V),
      entries.foldl (ambientStep registry [] fixed label project op) (some v) =
        some (((membersAt registry label entries).map project).foldl op v) := by
    intro entries
    induction entries with
    | nil => exact fun _ => rfl
    | cons f entries ih => exact fun v => ih _
  cases factors with
  | nil => rfl
  | cons f entries => exact hstep entries _

end Total

end Walk

end Graphed
