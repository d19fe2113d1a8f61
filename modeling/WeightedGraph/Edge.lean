import WeightedGraph.Decimal.Layout
import WeightedGraph.Text.Labelled
import WeightedGraph.Weight

/-!
# Edges

An `Edge` names both its ends; a `Record` is an edge whose source is known from where it is kept.  Equality of
either compares weights as numbers, so `0.0` equals `-0.0` and a weight that is not a number makes an edge
unequal to itself.
-/

namespace WeightedGraph

/-- An edge that leads to `target`. -/
structure Record (V : Type) where
  target : V
  weight : Weight

/-- An edge from `source` to `target`. -/
structure Edge where
  source : Nat
  target : Nat
  weight : Weight

instance {V : Type} [BEq V] : BEq (Record V) :=
  ⟨fun r s => r.target == s.target && r.weight == s.weight⟩

def Record.labelled (r : Record Nat) : Text.Labelled :=
  ⟨"EdgeRecord", [("to", toString r.target), ("weight", Decimal.structured.text r.weight)]⟩

namespace Edge

instance : BEq Edge :=
  ⟨fun e f => e.source == f.source && e.target == f.target && e.weight == f.weight⟩

def isSelfLoop (e : Edge) : Bool := e.source == e.target

def reversed (e : Edge) : Edge := ⟨e.target, e.source, e.weight⟩

/-- Both ends, the smaller one first: what the two directions of an undirected edge have in common. -/
def undirectedKey (e : Edge) : Nat × Nat := (min e.source e.target, max e.source e.target)

instance : ToString Edge where
  toString e :=
    toString e.source ++ " -> " ++ toString e.target ++ " (" ++ Decimal.plain.text e.weight ++ ")"

def labelled (e : Edge) : Text.Labelled :=
  ⟨"Edge", [("from", toString e.source), ("to", toString e.target),
    ("weight", Decimal.structured.text e.weight)]⟩

end Edge

end WeightedGraph
