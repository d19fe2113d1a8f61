import WeightedGraph.Graph.Basic

/-!
# Changing a graph

Adding, removing and clearing edges.  `insert` and `erase` change the edge between two vertices in every
direction in which it is stored; the operations that take plain numbers check both ends first, and leave the
graph as it is when one of them is no vertex.  Each of them gives an outcome and the graph afterwards, so what
a failed call leaves behind can be said.
-/

namespace WeightedGraph.Graph

variable {n : Nat}

/-- Whether the edge between `u` and `v` is stored in both directions. -/
def runsBothWays (kind : GraphKind) (u v : Fin n) : Bool := !kind.isDirected && u ≠ v

/-- Writes the edge from `u` to `v`, and says whether it is new. -/
def insert (g : Graph n) (u v : Fin n) (w : Weight) : Bool × Graph n :=
  let ⟨kind, adjacency, edgeCount⟩ := g
  let (created, forth) := adjacency.upsert u v w
  let both := if runsBothWays kind u v then (forth.upsert v u w).2 else forth
  (created, ⟨kind, both, if created then edgeCount + 1 else edgeCount⟩)

/-- Takes the edge from `u` to `v` out, and says whether there was one. -/
def erase (g : Graph n) (u v : Fin n) : Bool × Graph n :=
  let ⟨kind, adjacency, edgeCount⟩ := g
  let (removed, forth) := adjacency.remove u v
  let both := if runsBothWays kind u v then (forth.remove v u).2 else forth
  (removed, ⟨kind, both, if removed then edgeCount - 1 else edgeCount⟩)

/-- Adds the edge from `source` to `target` or overwrites its weight, and says whether it is new. -/
def addEdge (g : Graph n) (source target : Nat) (weight : Weight) : Outcome Bool × Graph n :=
  match checkEnds n source target with
  | .error e => (.fail e, g)
  | .ok (u, v) =>
    let (created, g) := g.insert u v weight
    (.report created (.upsertedEdge source target weight created), g)

/-- Adds the edge from `source` to `target` with weight one. -/
def addEdgeUnweighted (g : Graph n) (source target : Nat) : Outcome Bool × Graph n :=
  g.addEdge source target unitWeight

/-- Sets the weight of the edge from `source` to `target`, which is added if it is missing. -/
def setEdgeWeight (g : Graph n) (source target : Nat) (weight : Weight) : Outcome Bool × Graph n :=
  g.addEdge source target weight

/-- Removes the edge from `source` to `target`, and says whether there was one. -/
def removeEdge (g : Graph n) (source target : Nat) : Outcome Bool × Graph n :=
  match checkEnds n source target with
  | .error e => (.fail e, g)
  | .ok (u, v) =>
    let (removed, g) := g.erase u v
    (.report removed (.removedEdge source target removed), g)

def clear (g : Graph n) : Outcome Unit × Graph n :=
  let ⟨kind, adjacency, _⟩ := g
  (.report () (.clearedGraph n), ⟨kind, adjacency.clear, 0⟩)

/-- Adds edges one after the other, up to the first that has an end which is no vertex. -/
def addEdges (g : Graph n) : List Edge → Outcome Unit × Graph n
  | [] => (.ok (), g)
  | e :: edges =>
    let (added, g) := g.addEdge e.source e.target e.weight
    match added.result with
    | .error problem => (⟨.error problem, added.events⟩, g)
    | .ok _ =>
      let (rest, g) := g.addEdges edges
      (⟨rest.result, added.events ++ rest.events⟩, g)

/-- A graph with the given edges; of several weights for one edge the last one stays. -/
def fromEdges (n : Nat) (kind : GraphKind) (representation : Representation) (edges : List Edge) :
    Outcome (Graph n) := do
  let g ← create n kind representation
  let (added, g) := g.addEdges edges
  added
  return g

theorem addEdge_of_lt (g : Graph n) {u v : Nat} (hu : u < n) (hv : v < n) (w : Weight) :
    g.addEdge u v w =
      (.report (g.insert ⟨u, hu⟩ ⟨v, hv⟩ w).1 (.upsertedEdge u v w (g.insert ⟨u, hu⟩ ⟨v, hv⟩ w).1),
        (g.insert ⟨u, hu⟩ ⟨v, hv⟩ w).2) := by
  simp [addEdge, checkEnds_of_lt hu hv]

theorem removeEdge_of_lt (g : Graph n) {u v : Nat} (hu : u < n) (hv : v < n) :
    g.removeEdge u v =
      (.report (g.erase ⟨u, hu⟩ ⟨v, hv⟩).1 (.removedEdge u v (g.erase ⟨u, hu⟩ ⟨v, hv⟩).1),
        (g.erase ⟨u, hu⟩ ⟨v, hv⟩).2) := by
  simp [removeEdge, checkEnds_of_lt hu hv]

@[simp] theorem kind_insert (g : Graph n) (u v : Fin n) (w : Weight) : (g.insert u v w).2.kind = g.kind := rfl

@[simp] theorem kind_erase (g : Graph n) (u v : Fin n) : (g.erase u v).2.kind = g.kind := rfl

@[simp] theorem representation_insert (g : Graph n) (u v : Fin n) (w : Weight) :
    (g.insert u v w).2.representation = g.representation := by
  simp only [insert, representation]
  split <;> simp

@[simp] theorem representation_erase (g : Graph n) (u v : Fin n) :
    (g.erase u v).2.representation = g.representation := by
  simp only [erase, representation]
  split <;> simp

end WeightedGraph.Graph
