/-!
# Edge weights

A weight is a binary64 float of any value: negative, zero of either sign, infinite or not a number.  Two orders
on weights are used as comparators: `Weight.compare`, which takes unordered weights as equal, and
`Weight.totalCompare`, which tells all of them apart.
-/

namespace WeightedGraph

abbrev Weight := Float

/-- The weight of an edge that is added without one. -/
def unitWeight : Weight := 1.0

/-- The weight that stands for a missing edge where a plain weight is asked for. -/
def noEdgeWeight : Weight := -1.0

namespace Weight

/-- Compares by value; weights that are not ordered (one of them is not a number) count as equal. -/
def compare (a b : Weight) : Ordering :=
  if a < b then .lt else if b < a then .gt else .eq

/-- The place of a weight in the total order: negative weights run downwards from `-1`, which is `-0.0`. -/
def rank (a : Weight) : Int :=
  let bits := a.toBits.toNat
  if bits < Nat.pow 2 63 then bits else Nat.pow 2 63 - 1 - bits

/-- Compares by sign, exponent and significand: `-0.0` comes before `0.0`, and what is not a number comes
last. -/
def totalCompare (a b : Weight) : Ordering := Ord.compare a.rank b.rank

end Weight

end WeightedGraph
