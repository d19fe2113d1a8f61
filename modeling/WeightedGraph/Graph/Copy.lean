import WeightedGraph.Graph.Cursor
import WeightedGraph.Graph.Mutation

/-!
# Copying and converting

A copy is a new graph to which every edge of the old one is added, in the order of its cursor; an undirected edge
is thus added from both of its ends.  Converting a graph puts a copy in its place, unless it has the wanted
representation already.
-/

namespace WeightedGraph.Graph

variable {n : Nat}

/-- A graph with the same edges in the given representation. -/
def copy (g : Graph n) (representation : Representation) : Outcome (Graph n) := do
  let target ← fromEdges n g.kind representation g.edges.toList
  .report target (.copiedGraph g.representation representation target.edgeCount)

/-- Changes the representation; the graph stays as it is if that fails. -/
def convert (g : Graph n) (representation : Representation) : Outcome Unit × Graph n :=
  if g.representation = representation then (.ok (), g)
  else
    let copied := g.copy representation
    match copied.result with
    | .error e => (⟨.error e, copied.events⟩, g)
    | .ok target => (⟨.ok (), copied.events⟩, target)

theorem convert_of_eq (g : Graph n) : g.convert g.representation = (.ok (), g) := by simp [convert]

end WeightedGraph.Graph
