import Graphed.Numpy.Extrema
import Graphed.Numpy.Moments

/-!
# Which trees give the whole array's reduction

Sums, products, counts, `any`, `all` and means do over every tree. Extrema do when no chunk is empty
and the NaN of an array stands leftmost; variances do when there are degrees of freedom or nothing
to spread.
-/

namespace Graphed

namespace Reductions

open CombineTree Num

variable {K : Type} [Field K] [LinearOrder K] [IsStrictOrderedRing K]

/-! ### The laws of a monoid -/

/-- At these states: the empty state is an identity on both sides, and combining is associative. -/
def Lawful {S : Type} (m : ReductionMonoid K S) (s t u : S) : Prop :=
  m.combine m.empty s = s ∧ m.combine s m.empty = s ∧
    m.combine (m.combine s t) u = m.combine s (m.combine t u)

/-- Where extrema keep the laws: the first is no NaN, and a NaN in the middle hides nothing further
out. -/
def LawsAt : (kind : Kind) → kind.State K → kind.State K → kind.State K → Prop
  | .min, s, t, u => s ≠ Num.nan ∧ ∀ a c, s = .num a → t = Num.nan → u = .num c → a ≤ c
  | .max, s, t, u => s ≠ Num.nan ∧ ∀ a c, s = .num a → t = Num.nan → u = .num c → c ≤ a
  | _, _, _, _ => True

omit [Field K] [LinearOrder K] [IsStrictOrderedRing K] in
theorem pick_laws {α : Type} {le : α → α → Prop} [DecidableRel le] (hle : Outward le) {last : α}
    (hlast : ∀ a, le last a) (s t u : Num α) :
    (pick le (.num last) s = s ∧ pick le s (.num last) = s ∧
      pick le (pick le s t) u = pick le s (pick le t u)) ↔
    s ≠ .nan ∧ ∀ a c, s = .num a → t = .nan → u = .num c → le c a := by
  have hrefl : ∀ a, le a a := fun a => (hle.total a a).elim id id
  have hpick : ∀ a b, pick le (.num a) (.num b) = if le b a then .num a else .num b :=
    fun _ _ => rfl
  have hright : ∀ a : α, pick le (.num a) .nan = .num a := fun _ => rfl
  have hnan : ∀ b, pick le .nan b = .nan := fun b => pick_eq_nan.mpr rfl
  cases s with
  | nan => exact iff_of_false (fun h => by cases h.1) fun h => h.1 rfl
  | num a =>
      have hempty : pick le (.num last) (.num a) = .num a := by
        rw [hpick]
        split_ifs with h
        · rw [hle.anti a last h (hlast a)]
        · rfl
      have hone : pick le (.num a) (.num last) = .num a := by rw [hpick, if_pos (hlast a)]
      rw [hempty, hone]
      cases t with
      | nan =>
          rw [hright, hnan, hright]
          cases u with
          | nan => simp [hright]
          | num c =>
              rw [hpick]
              split_ifs with h
              · exact iff_of_true ⟨rfl, rfl, rfl⟩
                  ⟨(fun hnum => by cases hnum),
                    fun a' c' ha _ hc => by rwa [← num.inj ha, ← num.inj hc]⟩
              · refine iff_of_false (fun hsame => h ?_) fun hsame => h (hsame.2 a c rfl rfl rfl)
                rw [num.inj hsame.2.2]
                exact hrefl a
      | num b =>
          refine iff_of_true ⟨rfl, rfl, ?_⟩
            ⟨(fun hnum => by cases hnum), fun _ _ _ hnan' => by cases hnan'⟩
          cases u with
          | nan =>
              rw [hright, pick]
              split_ifs <;> rfl
          | num c =>
              rw [hpick, hpick]
              by_cases hba : le b a
              · rw [if_pos hba]
                by_cases hcb : le c b
                · rw [if_pos hcb, hpick, hpick, if_pos hba, if_pos (hle.trans c b a hcb hba)]
                · rw [if_neg hcb]
              · rw [if_neg hba]
                by_cases hcb : le c b
                · rw [if_pos hcb, hpick, hpick, if_pos hcb, if_neg hba]
                · have hbc := (hle.total b c).resolve_right hcb
                  have hca : ¬le c a := fun h => hba (hle.trans b c a hbc h)
                  rw [if_neg hcb, hpick, hpick, if_neg hcb, if_neg hca]

omit [IsStrictOrderedRing K] in
theorem lawful_iff (sqrt : K → K) (ddof : Int) (kind : Kind) (s t u : kind.State K) :
    Lawful (monoid sqrt ddof kind) s t u ↔ LawsAt kind s t u := by
  have hmoments : ∀ s t u : Moments K, momentsCombine momentsEmpty s = s ∧
      momentsCombine s momentsEmpty = s ∧
      momentsCombine (momentsCombine s t) u = momentsCombine s (momentsCombine t u) := by
    intro s t u
    have hleft : momentsCombine momentsEmpty s = s := by
      unfold momentsCombine momentsEmpty
      rw [Nat.zero_add, zero_add', zero_add']
    refine ⟨hleft, (measures_moments.comm s momentsEmpty).trans hleft, ?_⟩
    unfold momentsCombine
    rw [Nat.add_assoc, add_assoc', add_assoc']
  cases kind with
  | sum =>
      exact iff_of_true ⟨zero_add' s, (add_comm' s _).trans (zero_add' s), add_assoc' s t u⟩ trivial
  | prod =>
      exact iff_of_true ⟨one_mul' s, (mul_comm' s _).trans (one_mul' s), mul_assoc' s t u⟩ trivial
  | min =>
      change (min2 _ s = s ∧ min2 s _ = s ∧ min2 (min2 s t) u = min2 s (min2 t u)) ↔ _
      rw [min2_eq_pick]
      exact pick_laws outward_ge (fun _ => le_top) s t u
  | max =>
      change (max2 _ s = s ∧ max2 s _ = s ∧ max2 (max2 s t) u = max2 s (max2 t u)) ↔ _
      rw [max2_eq_pick]
      exact pick_laws outward_le (fun _ => bot_le) s t u
  | count => exact iff_of_true ⟨Nat.zero_add s, Nat.add_zero s, Nat.add_assoc s t u⟩ trivial
  | any => exact iff_of_true ⟨Bool.false_or s, Bool.or_false s, Bool.or_assoc s t u⟩ trivial
  | all => exact iff_of_true ⟨Bool.true_and s, Bool.and_true s, Bool.and_assoc s t u⟩ trivial
  | mean => exact iff_of_true (hmoments s t u) trivial
  | var => exact iff_of_true (hmoments s t u) trivial
  | std => exact iff_of_true (hmoments s t u) trivial

/-! ### Trees -/

/-- Where a tree gives what NumPy gives of the whole array. -/
def TreeFaithful (ddof : Int) (kind : Kind) (t : CombineTree (List (Num K)))
    (pieces : List (List (Num K))) : Prop :=
  match kind with
  | .min | .max => ExtremaFaithful t pieces
  | .var | .std => VarFaithful ddof pieces.flatten
  | _ => True

theorem reduce_var (ddof : Int) (x : List (Num K)) :
    (varFinalize ddof (moments x)).map Statistic.float = .ok (npVar ddof x) ↔
      VarFaithful ddof x := by
  rcases var_cases ddof x with ⟨hfaithful, v, hv, hnp, -⟩ | ⟨hnot, herror | ⟨hv, hnp⟩⟩
  · rw [hv, hnp]
    exact iff_of_true rfl hfaithful
  · rw [herror]
    exact iff_of_false nofun hnot
  · rw [hv, hnp]
    exact iff_of_false nofun hnot

theorem reduce_std (sqrt : K → K) (ddof : Int) (x : List (Num K)) :
    (stdFinalize sqrt ddof (moments x)).map Statistic.float =
      .ok (npSqrt sqrt (npVar ddof x)) ↔ VarFaithful ddof x := by
  unfold stdFinalize
  rcases var_cases ddof x with ⟨hfaithful, v, hv, hnp, hnonneg⟩ | ⟨hnot, herror | ⟨hv, hnp⟩⟩
  · rw [hv, hnp]
    refine iff_of_true ?_ hfaithful
    change (mathSqrt sqrt v).map Statistic.float = _
    cases v with
    | nan => rfl
    | num a =>
        have hle := not_lt.mpr (hnonneg a rfl)
        unfold mathSqrt npSqrt
        simp only [if_neg hle]
        rfl
  · rw [herror]
    exact iff_of_false nofun hnot
  · rw [hv, hnp]
    exact iff_of_false nofun hnot

omit [Field K] [LinearOrder K] [IsStrictOrderedRing K] in
theorem run_measure {S : Type} {combine : S → S → S} {one : S} {measure : List (Num K) → S}
    (h : Measures combine one measure) (fin : S → Except Raised (Statistic K))
    {t : CombineTree (List (Num K))} {pieces : List (List (Num K))}
    (hperm : t.leaves.Perm pieces) :
    (t.run (fun x => Except.ok (measure x)) combine one >>= fin) =
      fin (measure pieces.flatten) := by
  rw [h.run (fun _ => rfl) hperm]
  rfl

theorem reduceTree_eq (sqrt : K → K) (ddof : Int) (kind : Kind) {t : CombineTree (List (Num K))}
    {pieces : List (List (Num K))} (hperm : t.leaves.Perm pieces) :
    reduceTree sqrt ddof kind t = npReduction sqrt ddof kind pieces.flatten ↔
      TreeFaithful ddof kind t pieces := by
  cases kind with
  | sum => exact iff_of_true (run_measure measures_total (fun s => .ok (.float s)) hperm) trivial
  | prod => exact iff_of_true (run_measure measures_product (fun s => .ok (.float s)) hperm) trivial
  | min =>
      change (t.run minChunk min2 (.num ⊤) >>= fun s => .ok (topStatistic s)) =
        (npMin pieces.flatten).map .float ↔ _
      rw [min2_eq_pick]
      refine extremum_iff outward_ge outward_ge (fun _ => le_top) (fun a b => WithTop.coe_le_coe)
        (fun s => ?_) (fun x => rfl) hperm
      rcases s with _ | _ | x <;> simp [topStatistic]
  | max =>
      change (t.run maxChunk max2 (.num ⊥) >>= fun s => .ok (botStatistic s)) =
        (npMax pieces.flatten).map .float ↔ _
      rw [max2_eq_pick]
      refine extremum_iff outward_le outward_le (fun _ => bot_le) (fun a b => WithBot.coe_le_coe)
        (fun s => ?_) (fun x => rfl) hperm
      rcases s with _ | _ | x <;> simp [botStatistic]
  | count => exact iff_of_true (run_measure measures_length (fun s => .ok (.int s)) hperm) trivial
  | any => exact iff_of_true (run_measure measures_any (fun s => .ok (.truth s)) hperm) trivial
  | all => exact iff_of_true (run_measure measures_all (fun s => .ok (.truth s)) hperm) trivial
  | mean =>
      refine iff_of_true ?_ trivial
      refine (run_measure measures_moments (fun s => .ok (.float (meanFinalize s))) hperm).trans ?_
      unfold meanFinalize npReduction npMean
      simp only [ne_eq, ite_not]
      rfl
  | var =>
      refine Iff.trans ?_ (reduce_var ddof pieces.flatten)
      rw [← run_measure measures_moments (fun s => (varFinalize ddof s).map Statistic.float) hperm]
      rfl
  | std =>
      refine Iff.trans ?_ (reduce_std sqrt ddof pieces.flatten)
      rw [← run_measure measures_moments (fun s => (stdFinalize sqrt ddof s).map Statistic.float)
        hperm]
      rfl

/-- **Trees of chunks** that give the whole array's reduction under lawful states, exactly. -/
theorem reduceTree_iff (sqrt : K → K) (ddof : Int) (kind : Kind) {t : CombineTree (List (Num K))}
    {pieces : List (List (Num K))} (hperm : t.leaves.Perm pieces) (s₁ s₂ s₃ : kind.State K) :
    (reduceTree sqrt ddof kind t = npReduction sqrt ddof kind pieces.flatten ∧
      Lawful (monoid sqrt ddof kind) s₁ s₂ s₃) ↔
    TreeFaithful ddof kind t pieces ∧ LawsAt kind s₁ s₂ s₃ := by
  rw [lawful_iff, reduceTree_eq sqrt ddof kind hperm]

/-- The NaN of a chunk that stands leftmost is the array's minimum. -/
theorem reduceTree_iff_leftmost :
    reduceTree (id : ℚ → ℚ) 0 .min
        (.node (.leaf [.num 2, .nan]) (.node .empty (.leaf [.num 1]))) =
      npReduction id 0 .min [.num 1, .num 2, .nan] ∧
    Lawful (monoid (id : ℚ → ℚ) 0 .min) (.num 3) (.num 2) .nan := by
  have hperm : (CombineTree.node (.leaf [Num.num (2 : ℚ), .nan])
      (.node .empty (.leaf [.num 1]))).leaves.Perm [[.num 1], [.num 2, .nan]] :=
    List.Perm.swap _ _ _
  refine (reduceTree_iff id 0 .min hperm (.num 3) (.num 2) .nan).mpr ⟨?_, nofun, nofun⟩
  exact ⟨List.cons_ne_nil _ _, Or.inr ⟨by simp, fun _ => ⟨_, rfl, by simp⟩⟩⟩

/-- A NaN that does not stand leftmost is lost, an empty chunk has no minimum, and two entries have
a variance without degrees of freedom. -/
theorem reduceTree_differs :
    reduceTree (id : ℚ → ℚ) 0 .min (.node (.leaf [.num 1]) (.leaf [.nan])) ≠
        npReduction id 0 .min [.num 1, .nan] ∧
      reduceTree (id : ℚ → ℚ) 0 .min (.node (.leaf [.num 1]) (.leaf [])) ≠
        npReduction id 0 .min [.num 1] ∧
      reduceTree (id : ℚ → ℚ) 2 .var (.leaf [.num 1, .num 2]) ≠
        npReduction id 2 .var [.num 1, .num 2] := by
  refine ⟨fun h => ?_, fun h => ?_, fun h => ?_⟩
  · obtain ⟨-, hnil | ⟨-, hfirst⟩⟩ := (reduceTree_eq id 0 .min (List.Perm.refl _)).mp h
    · cases hnil
    · obtain ⟨c, hc, hmem⟩ := hfirst (by simp [leaves])
      obtain rfl := Option.some.inj hc
      simp at hmem
  · obtain ⟨-, hnil | ⟨hne, -⟩⟩ := (reduceTree_eq id 0 .min (List.Perm.refl _)).mp h
    · cases hnil
    · exact hne [] (by simp [leaves]) rfl
  · rcases (reduceTree_eq id 2 .var (List.Perm.refl _)).mp h with
      ⟨hlt, -⟩ | ⟨-, hmem | ⟨a, ha⟩⟩
    · simp [leaves] at hlt
    · simp [leaves] at hmem
    · have hone := ha (.num 1) (by simp [leaves])
      have htwo := ha (.num 2) (by simp [leaves])
      rw [← htwo] at hone
      exact absurd (Num.num.inj hone) (by norm_num)

end Reductions

end Graphed
