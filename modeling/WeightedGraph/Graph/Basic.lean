import WeightedGraph.Adjacency.Basic
import WeightedGraph.Outcome

/-!
# Graphs

A graph with weighted edges between the vertices `0, …, n - 1`.  From one vertex to another there is at most one
edge.  An undirected edge between two vertices is stored in both directions and counted once.  The number of
vertices is part of the type, so a vertex that has been checked is a `Fin n`; everything that takes a vertex as a
plain number checks it first.
-/

namespace WeightedGraph

structure Graph (n : Nat) where
  kind : GraphKind
  adjacency : Adjacency n
  /-- The number of edges, where the two directions of an undirected edge count once. -/
  edgeCount : Nat

namespace Graph

variable {n : Nat}

/-- A graph without edges, if it has a vertex and the allocator has the memory for it. -/
def createWithin (limit n : Nat) (kind : GraphKind) (representation : Representation) : Outcome (Graph n) :=
  if n = 0 then .fail .zeroVertices
  else
    match Adjacency.allocateWithin limit n representation with
    | .error e => .fail e
    | .ok adjacency => .report ⟨kind, adjacency, 0⟩ (.createdGraph n kind representation)

def create (n : Nat) (kind : GraphKind) (representation : Representation) : Outcome (Graph n) :=
  createWithin Allocation.addressSpace n kind representation

theorem create_eq (n : Nat) (kind : GraphKind) (representation : Representation) :
    create n kind representation =
      if n = 0 then .fail .zeroVertices
      else
        match Adjacency.allocate n representation with
        | .error e => .fail e
        | .ok adjacency => .report ⟨kind, adjacency, 0⟩ (.createdGraph n kind representation) := rfl

def vertexCount (_ : Graph n) : Nat := n

def isDirected (g : Graph n) : Bool := g.kind.isDirected

def representation (g : Graph n) : Representation := g.adjacency.representation

def containsVertex (_ : Graph n) (v : Nat) : Bool := v < n

/-- A number as a vertex, if it is one. -/
def checkVertex (n v : Nat) : Except GraphError (Fin n) :=
  if h : v < n then .ok ⟨v, h⟩ else .error (.vertexOutOfRange v n)

/-- Two numbers as vertices; the first one that is none is to blame. -/
def checkEnds (n u v : Nat) : Except GraphError (Fin n × Fin n) := do
  let u ← checkVertex n u
  let v ← checkVertex n v
  return (u, v)

/-- The weight of the edge from `u` to `v`, if both are vertices and there is one. -/
def findEdgeWeight (g : Graph n) (u v : Nat) : Option Weight :=
  match checkEnds n u v with
  | .error _ => none
  | .ok (u, v) => g.adjacency.weight? u v

def hasEdge (g : Graph n) (u v : Nat) : Bool :=
  match checkEnds n u v with
  | .error _ => false
  | .ok (u, v) => g.adjacency.contains u v

/-- The weight of the edge from `u` to `v`, or `noEdgeWeight` if there is none. -/
def edgeWeight (g : Graph n) (u v : Nat) : Weight :=
  (g.findEdgeWeight u v).getD noEdgeWeight

/-- The number of edges from `v`; a loop counts once. -/
def degree (g : Graph n) (v : Nat) : Except GraphError Nat :=
  (checkVertex n v).map g.adjacency.outDegree

/-- The number of edges to `v`, which in an undirected graph are the edges from `v` seen from the other side. -/
def inDegree (g : Graph n) (v : Nat) : Except GraphError Nat :=
  (checkVertex n v).map fun v => if g.isDirected then g.adjacency.inDegree v else g.adjacency.outDegree v

/-- The share of possible edges that are there; a loop at every vertex is possible. -/
def density (g : Graph n) : Float :=
  let size := Float.ofNat n
  let possible := if g.isDirected then size * size else size * (size + 1.0) / 2.0
  Float.ofNat g.edgeCount / possible

def labelled (g : Graph n) : Text.Labelled :=
  ⟨"Graph", [("vertex_count", toString n), ("edge_count", toString g.edgeCount), ("kind", g.kind.label),
    ("representation", g.representation.label)]⟩

theorem checkVertex_of_lt {v : Nat} (h : v < n) : checkVertex n v = .ok ⟨v, h⟩ := by simp [checkVertex, h]

theorem checkVertex_of_le {v : Nat} (h : n ≤ v) : checkVertex n v = .error (.vertexOutOfRange v n) := by
  simp [checkVertex, Nat.not_lt.2 h]

theorem checkEnds_of_lt {u v : Nat} (hu : u < n) (hv : v < n) :
    checkEnds n u v = .ok (⟨u, hu⟩, ⟨v, hv⟩) := by
  simp [checkEnds, checkVertex_of_lt hu, checkVertex_of_lt hv, bind, Except.bind, pure, Except.pure]

theorem checkEnds_of_source_le {u v : Nat} (hu : n ≤ u) :
    checkEnds n u v = .error (.vertexOutOfRange u n) := by
  simp [checkEnds, checkVertex_of_le hu, bind, Except.bind]

theorem checkEnds_of_target_le {u v : Nat} (hu : u < n) (hv : n ≤ v) :
    checkEnds n u v = .error (.vertexOutOfRange v n) := by
  simp [checkEnds, checkVertex_of_lt hu, checkVertex_of_le hv, bind, Except.bind]

end Graph

end WeightedGraph
