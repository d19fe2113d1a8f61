import WeightedGraph.Text.Labelled
import WeightedGraph.Text.Quoted

/-!
# Errors

Everything that can go wrong: an argument that is refused before anything has changed, or memory that cannot be
had.  A `GraphError` says what the cause is; its wording is in `GraphError.message`.
-/

namespace WeightedGraph

/-- Why memory cannot be had. -/
inductive AllocationError where
  /-- The size in bytes is beyond what a request can say. -/
  | capacityExceeded
  /-- The request was made and turned down. -/
  | refused
deriving DecidableEq

inductive ErrorKind where
  | argument
  | memory
deriving DecidableEq

/-- Why an operation on graphs failed. -/
inductive GraphError where
  | zeroVertices
  | vertexOutOfRange (vertex vertexCount : Nat)
  | invalidConfig (problem : String)
  /-- A square grid with this many rows has too many cells to be counted. -/
  | capacityOverflow (vertexCount : Nat)
  | allocation (cause : AllocationError)
deriving DecidableEq

/-- What a reader is told about missing memory. -/
def AllocationError.message : AllocationError → String
  | .capacityExceeded => "memory allocation failed because the computed capacity exceeded the collection's maximum"
  | .refused => "memory allocation failed because the memory allocator returned an error"

def AllocationError.inspect : AllocationError → String
  | .capacityExceeded => Text.Labelled.inline ⟨"TryReserveError", [("kind", "CapacityOverflow")]⟩
  | .refused => Text.Labelled.inline ⟨"TryReserveError", [("kind", "AllocError")]⟩

namespace GraphError

/-- Whether the argument or the memory is at fault. -/
def kind : GraphError → ErrorKind
  | .zeroVertices | .vertexOutOfRange .. | .invalidConfig _ => .argument
  | .capacityOverflow _ | .allocation _ => .memory

def isArgumentError (e : GraphError) : Bool := e.kind = .argument

def isMemoryError (e : GraphError) : Bool := e.kind = .memory

/-- What a reader is told. -/
def message : GraphError → String
  | .zeroVertices => "a graph must have at least one vertex"
  | .vertexOutOfRange vertex vertexCount =>
    "vertex " ++ toString vertex ++ " is out of range for a graph with " ++ toString vertexCount ++ " vertices"
  | .invalidConfig problem => "invalid graph configuration: " ++ problem
  | .capacityOverflow vertexCount =>
    "an adjacency matrix for " ++ toString vertexCount ++ " vertices overflows usize"
  | .allocation cause => "memory allocation failed: " ++ cause.message

def inspect : GraphError → String
  | .zeroVertices => "ZeroVertices"
  | .vertexOutOfRange vertex vertexCount =>
    Text.Labelled.inline
      ⟨"VertexOutOfRange", [("vertex", toString vertex), ("vertex_count", toString vertexCount)]⟩
  | .invalidConfig problem => "InvalidConfig(" ++ Text.quoted problem ++ ")"
  | .capacityOverflow vertexCount =>
    Text.Labelled.inline ⟨"CapacityOverflow", [("vertex_count", toString vertexCount)]⟩
  | .allocation cause => "Allocation(" ++ cause.inspect ++ ")"

end GraphError

end WeightedGraph
