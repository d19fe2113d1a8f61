import WeightedGraph.Graph.Basic
import WeightedGraph.Search.BreadthFirst
import WeightedGraph.Search.DepthFirst
import WeightedGraph.Search.ShortestPaths

/-!
# Searching a graph

The searches started at a vertex of a graph, which is checked first.  Each reports its end; a search that is not
started visits nothing and reports nothing.
-/

namespace WeightedGraph.Graph

variable {n : Nat} {β : Type}

/-- Visits what can be reached from `start`, nearer vertices first; besides the outcome, the value that the visits
leave. -/
def visitBreadthFirst (g : Graph n) (start : Nat) (visit : β → Nat → β) (value : β) : Outcome Unit × β :=
  match checkVertex n start with
  | .error e => (.fail e, value)
  | .ok s =>
    let final := BreadthFirst.run g.adjacency.successors (fun b v => visit b v) s value
    (.report () (.breadthFirstFinished start final.visited), final.value)

/-- Visits what can be reached from `start`, the last successor of a vertex first and everything behind it before
the others; besides the outcome, the value that the visits leave. -/
def visitDepthFirst (g : Graph n) (start : Nat) (visit : β → Nat → β) (value : β) : Outcome Unit × β :=
  match checkVertex n start with
  | .error e => (.fail e, value)
  | .ok s =>
    let final := DepthFirst.run g.adjacency.successors (fun b v => visit b v) s value
    (.report () (.depthFirstFinished start final.visited), final.value)

/-- The value that breadth-first visits leave, if they have been made. -/
def foldBreadthFirst (g : Graph n) (start : Nat) (visit : β → Nat → β) (value : β) : Outcome β :=
  let (visited, value) := g.visitBreadthFirst start visit value
  visited.bind fun _ => .ok value

/-- The value that depth-first visits leave, if they have been made. -/
def foldDepthFirst (g : Graph n) (start : Nat) (visit : β → Nat → β) (value : β) : Outcome β :=
  let (visited, value) := g.visitDepthFirst start visit value
  visited.bind fun _ => .ok value

def breadthFirstOrder (g : Graph n) (start : Nat) : Outcome (Array Nat) :=
  g.foldBreadthFirst start Array.push #[]

def depthFirstOrder (g : Graph n) (start : Nat) : Outcome (Array Nat) :=
  g.foldDepthFirst start Array.push #[]

def isConnectedFrom (g : Graph n) (start : Nat) : Outcome Bool := do
  let reached ← g.foldBreadthFirst start (fun count _ => count + 1) 0
  return reached == n

def shortestPaths (g : Graph n) (source : Nat) : Outcome (ShortestPaths n) :=
  match checkVertex n source with
  | .error e => .fail e
  | .ok s =>
    let final := ShortestPaths.run g.adjacency.records s
    .report (final.result s) (.shortestPathsFinished source final.settled final.stale)

def distancesFrom (g : Graph n) (source : Nat) : Outcome (Vector Weight n) := do
  let paths ← g.shortestPaths source
  return paths.distances

end WeightedGraph.Graph
