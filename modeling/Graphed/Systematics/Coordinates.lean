import Graphed.Library.Dict
import Graphed.Library.Places
import Graphed.Systematics.Points
import Graphed.Systematics.Tags
import Mathlib.Data.String.Basic

/-!
# Coordinates

A coordinate is a tag reduced to its value when it has one: whatever names a number is brought to a
fraction and written as an exact decimal. Points and families are compared by these values. The
integers that are computed on the way are logged.
-/

namespace Graphed

open Decimals

variable (P : Python)

/-- A fraction as an exact decimal tag, or a refusal naming the value it cannot spell. -/
def decimalTag (value : ℚ) (source : Except TagError String) :
    Traced Int TagError (List Char) := do
  .tell value.num
  .tell (value.den : Int)
  let withoutTwos := divideOut 2 value.den value.den
  let withoutFives := divideOut 5 value.den withoutTwos.1
  if withoutFives.1 ≠ 1 then
    let shown ← .quietly source
    let text ← .quietly (P.fractionText value)
    .quietly (throw (.graphed ("coordinate " ++ shown ++ " has no finite decimal expansion (" ++
      String.ofList text ++ "); a coordinate names an exact tag, and no decimal spelling names " ++
      "this value")))
  let scale := max withoutTwos.2 withoutFives.2
  .tell (10 ^ scale : Int)
  .tell (value.num * 10 ^ scale)
  let digits := value.num * 10 ^ scale / value.den
  .tell digits
  let text ← .quietly (P.str digits.natAbs)
  let shown ← .quietly (P.fractionText value)
  .quietly (spellNumber P (normalize ⟨decide (digits < 0), text, -scale⟩) shown)

/-- The canonical coordinate a spelling names, reduced to its value when it has one. -/
def coordinate : Spelling P → Traced Int TagError (List Char)
  | .str s => do
      let tag ← .quietly (canonicalText P s)
      let exact ← numericValue P tag
      match exact with
      | none => return tag
      | some value => decimalTag P value (.ok (P.repr s))
  | .int n => decimalTag P n ((P.str n).map String.ofList)
  | .float (.finite text sugar _ _ _) =>
      decimalTag P ((sugar.decimal P).value P.digits) (.ok (String.ofList text))
  | .float _ => .quietly (.error .valueError)
  | .fraction q => decimalTag P q (P.fractionRepr q)

/-! ### Points -/

/-- A nuisance name is an identifier. -/
def nuisance (name : List Char) : Except TagError Unit :=
  if P.identifier name then .ok ()
  else .error (.graphed ("a nuisance name must be a Python identifier, got " ++ P.repr name))

/-- Pairs sorted by their nuisances, of which no two are the same. -/
def Point.build (pairs : List (String × String)) (hnodup : (pairs.map Prod.fst).Nodup) : Point where
  pairs := pairs.mergeSort fun a b => decide (a.1 ≤ b.1)
  sorted := by
    have hle : (pairs.mergeSort fun a b => decide (a.1 ≤ b.1)).Pairwise
        fun a b => decide (a.1 ≤ b.1) = true :=
      List.pairwise_mergeSort (fun a b c hab hbc => by
        rw [decide_eq_true_eq] at *
        exact le_trans hab hbc) (fun a b => by
        rw [Bool.or_eq_true, decide_eq_true_eq, decide_eq_true_eq]
        exact le_total a.1 b.1) pairs
    have hne : (pairs.mergeSort fun a b => decide (a.1 ≤ b.1)).Pairwise fun a b => a.1 ≠ b.1 := by
      have hperm := (List.mergeSort_perm pairs fun a b => decide (a.1 ≤ b.1)).map Prod.fst
      exact List.pairwise_map.mp (hperm.nodup_iff.mpr hnodup)
    exact (hle.and hne).imp fun h => lt_of_le_of_ne (of_decide_eq_true h.1) h.2

/-- Nuisances and the spellings of their coordinates, no nuisance twice. -/
structure Mapping where
  items : List (List Char × Spelling P)
  nodup : (items.map Prod.fst).Nodup

/-- The pairs of a mapping, without those of value zero. -/
def keptPairs : (items : List (List Char × Spelling P)) → Traced Int TagError
    {pairs : List (List Char × List Char) //
      (pairs.map Prod.fst).Sublist (items.map Prod.fst)}
  | [] => return ⟨[], .slnil⟩
  | (name, value) :: rest => do
      .quietly (nuisance P name)
      let tag ← coordinate P value
      let exact ← numericValue P tag
      let others ← keptPairs rest
      return if exact = some 0 then ⟨others.1, others.2.cons name⟩
        else ⟨(name, tag) :: others.1, others.2.cons_cons name⟩

/-- A pair as a point holds it. -/
def heldPair (pair : List Char × List Char) : String × String :=
  (String.ofList pair.1, String.ofList pair.2)

theorem nodup_heldPairs {pairs : List (List Char × List Char)}
    (h : (pairs.map Prod.fst).Nodup) : ((pairs.map heldPair).map Prod.fst).Nodup := by
  have hfst : (pairs.map heldPair).map Prod.fst = (pairs.map Prod.fst).map String.ofList := by
    rw [List.map_map, List.map_map]
    rfl
  rw [hfst]
  exact h.map fun a b => String.ofList_inj.mp

/-- The point of a mapping: a coordinate of value zero is dropped. -/
def Point.ofMapping (mapping : Mapping P) : Traced Int TagError Point := do
  let kept ← keptPairs P mapping.items
  return Point.build (kept.1.map heldPair) (nodup_heldPairs (mapping.nodup.sublist kept.2))

/-- The default point of a label, which is never dropped. -/
def Point.default (name tag : List Char) : Traced Int TagError Point := do
  .quietly (nuisance P name)
  let tag ← coordinate P (.str tag)
  return Point.build [heldPair (name, tag)] (List.nodup_singleton _)

/-! ### Families -/

/-- A tag of a family, against the values seen before it. -/
def checkTag (name : List Char) (seen : List (ℚ × List Char)) (tag : List Char) :
    Traced Int TagError (List (ℚ × List Char)) := do
  match ← numericValue P tag with
  | none => return seen
  | some value =>
      let twin := (seen.lookup value).getD tag
      if twin ≠ tag then
        let shown ← .quietly (P.fractionText value)
        .quietly (throw (.graphed ("variation tags " ++ P.repr twin ++ " and " ++ P.repr tag ++
          " in family " ++ P.repr name ++ " name the same value (" ++ String.ofList shown ++
          "); two labels for one universe would mean two bins and two content hashes")))
      return dictDefault seen value tag

/-- The family rule over the tags one name carries on one container, inherited included. -/
def checkFamily (name : List Char) (inherited added : List (List Char)) :
    Traced Int TagError Unit := do
  match added.find? inherited.contains with
  | some tag => .quietly (throw (.graphed ("variation tag " ++ P.repr tag ++
      " is already registered under " ++ P.repr name)))
  | none =>
      let _ ← (inherited ++ added).foldlM (checkTag P name) []
      return ()

end Graphed
