import WeightedGraph.Graph.Basic

/-!
# Configurations

The shape of a graph: how many vertices it has, whether its edges are directed and how it stores them.  A
configuration is put together step by step, and it is not checked until a graph is built from it.
-/

namespace WeightedGraph

/-- The shape of a graph. -/
structure GraphConfig where
  vertexCount : Nat
  kind : GraphKind
  representation : Representation
deriving DecidableEq

namespace GraphConfig

/-- Directed edges in adjacency lists, unless something else is asked for. -/
def ofVertexCount (vertexCount : Nat) : GraphConfig := ⟨vertexCount, default, default⟩

def withKind (c : GraphConfig) (kind : GraphKind) : GraphConfig := { c with kind }

def directed (c : GraphConfig) : GraphConfig := c.withKind .directed

def undirected (c : GraphConfig) : GraphConfig := c.withKind .undirected

def withRepresentation (c : GraphConfig) (representation : Representation) : GraphConfig :=
  { c with representation }

def list (c : GraphConfig) : GraphConfig := c.withRepresentation .adjacencyList

def matrix (c : GraphConfig) : GraphConfig := c.withRepresentation .adjacencyMatrix

/-- Whether a graph can have this shape, memory aside. -/
def validate (c : GraphConfig) : Except GraphError Unit :=
  if c.vertexCount = 0 then .error .zeroVertices else .ok ()

/-- A graph of this shape without edges. -/
def build (c : GraphConfig) : Outcome (Graph c.vertexCount) :=
  Graph.create c.vertexCount c.kind c.representation

def labelled (c : GraphConfig) : Text.Labelled :=
  ⟨"GraphConfig", [("vertex_count", toString c.vertexCount), ("kind", c.kind.label),
    ("representation", c.representation.label)]⟩

end GraphConfig

/-- The shape of a graph, from which one like it without edges can be built. -/
def Graph.config {n : Nat} (g : Graph n) : GraphConfig := ⟨n, g.kind, g.representation⟩

end WeightedGraph
