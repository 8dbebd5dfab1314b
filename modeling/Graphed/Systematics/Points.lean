import Mathlib.Data.List.Basic

/-!
# Points

A point holds a universe's coordinates in nuisance space, one for each of its nuisances, sorted by
their names. A universe is resolved by what is left of its point on the axes a container knows.
-/

namespace Graphed

@[ext]
structure Point where
  pairs : List (String × String)
  sorted : pairs.Pairwise fun a b => a.1 < b.1
deriving DecidableEq

namespace Point

def origin : Point := ⟨[], List.Pairwise.nil⟩

/-- Drop every coordinate off the axes. -/
def restrict (point : Point) (axes : List String) : Point :=
  ⟨point.pairs.filter fun pair => decide (pair.1 ∈ axes), point.sorted.filter _⟩

def nuisances (point : Point) : List String := point.pairs.map Prod.fst

theorem restrict_of_subset {point : Point} {axes : List String}
    (h : ∀ nuisance ∈ point.nuisances, nuisance ∈ axes) : point.restrict axes = point := by
  ext1
  refine List.filter_eq_self.mpr fun pair hpair => ?_
  exact decide_eq_true (h pair.1 (List.mem_map_of_mem hpair))

end Point

end Graphed
