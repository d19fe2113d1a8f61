/-!
# Shapes of a graph

Whether edges have a direction (`GraphKind`) and how a graph stores them (`Representation`).  Each value has a
name, which documents and messages use, and a label, which structured texts use.
-/

namespace WeightedGraph

inductive GraphKind where
  /-- An edge leads from its source to its target only. -/
  | directed
  /-- An edge can be walked both ways and counts once. -/
  | undirected
deriving DecidableEq

inductive Representation where
  | adjacencyList
  | adjacencyMatrix
deriving DecidableEq

namespace GraphKind

instance : Inhabited GraphKind := ⟨.directed⟩

def isDirected : GraphKind → Bool
  | .directed => true
  | .undirected => false

/-- The name used in documents and messages. -/
def name : GraphKind → String
  | .directed => "directed"
  | .undirected => "undirected"

def label : GraphKind → String
  | .directed => "Directed"
  | .undirected => "Undirected"

/-- Both kinds, in the order in which messages list them. -/
def values : List GraphKind := [.directed, .undirected]

theorem mem_values (k : GraphKind) : k ∈ values := by cases k <;> simp [values]

end GraphKind

namespace Representation

instance : Inhabited Representation := ⟨.adjacencyList⟩

/-- The name used in documents and messages. -/
def name : Representation → String
  | .adjacencyList => "adjacency_list"
  | .adjacencyMatrix => "adjacency_matrix"

def label : Representation → String
  | .adjacencyList => "AdjacencyList"
  | .adjacencyMatrix => "AdjacencyMatrix"

/-- Both representations, in the order in which messages list them. -/
def values : List Representation := [.adjacencyList, .adjacencyMatrix]

theorem mem_values (r : Representation) : r ∈ values := by cases r <;> simp [values]

end Representation

end WeightedGraph
