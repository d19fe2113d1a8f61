import WeightedGraph.Kind
import WeightedGraph.Weight

/-!
# Events

What operations report while they succeed.  An event carries the values that belong to it; its level, its message
and its named fields are read off by `Event.level`, `Event.message` and `Event.fields`.
-/

namespace WeightedGraph

/-- Something that an operation has done. -/
inductive Event where
  | createdGraph (vertexCount : Nat) (kind : GraphKind) (representation : Representation)
  | upsertedEdge (source target : Nat) (weight : Weight) (created : Bool)
  | removedEdge (source target : Nat) (removed : Bool)
  | clearedGraph (vertexCount : Nat)
  | copiedGraph (source target : Representation) (edgeCount : Nat)
  | breadthFirstFinished (start visited : Nat)
  | depthFirstFinished (start visited : Nat)
  | shortestPathsFinished (source settled stale : Nat)

inductive Level where
  | debug
  | trace
deriving DecidableEq

inductive FieldValue where
  | count (n : Nat)
  | flag (b : Bool)
  | weight (w : Weight)
  | name (s : String)

def Level.name : Level → String
  | .debug => "debug"
  | .trace => "trace"

namespace Event

/-- Changes of a single edge are traced; everything else matters more. -/
def level : Event → Level
  | .upsertedEdge .. | .removedEdge .. => .trace
  | _ => .debug

/-- What a reader is told. -/
def message : Event → String
  | .createdGraph .. => "created graph"
  | .upsertedEdge .. => "upserted edge"
  | .removedEdge .. => "removed edge"
  | .clearedGraph _ => "cleared graph"
  | .copiedGraph .. => "copied graph"
  | .breadthFirstFinished .. => "bfs finished"
  | .depthFirstFinished .. => "dfs finished"
  | .shortestPathsFinished .. => "dijkstra finished"

/-- The values of an event under their names. -/
def fields : Event → List (String × FieldValue)
  | .createdGraph vertexCount kind representation =>
    [("vertex_count", .count vertexCount), ("kind", .name kind.name),
      ("representation", .name representation.name)]
  | .upsertedEdge source target weight created =>
    [("from", .count source), ("to", .count target), ("weight", .weight weight), ("created", .flag created)]
  | .removedEdge source target removed =>
    [("from", .count source), ("to", .count target), ("removed", .flag removed)]
  | .clearedGraph vertexCount => [("vertex_count", .count vertexCount)]
  | .copiedGraph source target edgeCount =>
    [("from", .name source.name), ("to", .name target.name), ("edge_count", .count edgeCount)]
  | .breadthFirstFinished start visited => [("start", .count start), ("visited", .count visited)]
  | .depthFirstFinished start visited => [("start", .count start), ("visited", .count visited)]
  | .shortestPathsFinished source settled stale =>
    [("source", .count source), ("settled", .count settled), ("stale", .count stale)]

end Event

end WeightedGraph
