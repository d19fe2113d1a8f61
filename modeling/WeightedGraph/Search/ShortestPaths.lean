import WeightedGraph.Adjacency.Row
import WeightedGraph.Search.Repeat
import WeightedGraph.Search.VertexSet
import WeightedGraph.Worklist.PriorityQueue

/-!
# Shortest paths

Distances from one vertex, found by settling vertices in the order of their distance.  Whenever a shorter way
to a vertex is found, the vertex goes to the frontier with the new distance; the entries for longer ways stay
there and are passed over as stale when they leave, because their vertex has been settled.  Weights should not
be negative. This is not checked: with negative weights the search ends all the same, but the distances mean
nothing.  Nothing stops the way back along predecessors that run in a circle.  Those that do not end among as many
vertices as there are run in a circle, so that this number is no bound for it (`traceBack`).
-/

namespace WeightedGraph

structure ShortestPaths (n : Nat) where
  source : Fin n
  /-- The distance of every vertex, infinite if it cannot be reached. -/
  distances : Vector Weight n
  predecessors : Vector (Option (Fin n)) n

namespace ShortestPaths

/-- A vertex at the end of a way of some length. -/
structure Tentative (n : Nat) where
  vertex : Fin n
  distance : Weight

def Tentative.compare {n : Nat} (a b : Tentative n) : Ordering := Weight.compare a.distance b.distance

/-- The weight above every other one, which is the distance of a vertex that cannot be reached. -/
def infinity : Weight := 1.0 / 0.0

structure State (n : Nat) where
  distances : Vector Weight n
  predecessors : Vector (Option (Fin n)) n
  /-- The vertices whose distance will not change any more. -/
  finalized : VertexSet n
  /-- The ends of the ways found, the shortest first. -/
  frontier : PriorityQueue (Tentative n) Tentative.compare
  settled : Nat
  stale : Nat

variable {n : Nat}

/-- A search that knows of no way but the empty one. -/
def State.initial (source : Fin n) : State n where
  distances := (Vector.replicate n infinity).set source 0.0 source.isLt
  predecessors := .replicate n none
  finalized := .empty n
  frontier := PriorityQueue.empty.insert ⟨source, 0.0⟩
  settled := 0
  stale := 0

/-- Tries the way to the target of an edge from `u`, unless that vertex is finalized. -/
def State.relax (u : Fin n) (s : State n) (r : Record (Fin n)) : State n :=
  let v := r.target
  if s.finalized.contains v then s
  else
    let candidate := s.distances.get u + r.weight
    if candidate < s.distances.get v then
      { s with
        distances := s.distances.set v candidate v.isLt
        predecessors := s.predecessors.set v (some u) v.isLt
        frontier := s.frontier.insert ⟨v, candidate⟩ }
    else s

def State.isDone (s : State n) : Bool := s.frontier.isEmpty

/-- The number of vertices that are not final, and the number of entries in the frontier. -/
def State.rank (s : State n) : Nat × Nat := (s.finalized.missing, s.frontier.size)

variable (records : Fin n → Row (Fin n))

/-- Takes the first entry of the frontier; unless it is stale, finalizes its vertex and relaxes the edges from
there. -/
@[specialize]
def State.step (s : State n) : State n :=
  let ⟨distances, predecessors, finalized, frontier, settled, stale⟩ := s
  match frontier.extractMin with
  | (none, frontier) => ⟨distances, predecessors, finalized, frontier, settled, stale⟩
  | (some ⟨u, _⟩, frontier) =>
    if finalized.contains u then ⟨distances, predecessors, finalized, frontier, settled, stale + 1⟩
    else
      (records u).foldl (State.relax u)
        ⟨distances, predecessors, finalized.insert u, frontier, settled + 1, stale⟩

omit records in
theorem State.finalized_relax (u : Fin n) (s : State n) (r : Record (Fin n)) :
    (s.relax u r).finalized = s.finalized := by
  simp only [State.relax]
  split
  · rfl
  · split <;> rfl

omit records in
theorem State.finalized_foldl_relax (u : Fin n) (s : State n) (rs : Row (Fin n)) :
    (rs.foldl (State.relax u) s).finalized = s.finalized := by
  induction rs generalizing s with
  | nil => rfl
  | cons r rs ih => rw [List.foldl_cons, ih, State.finalized_relax]

theorem State.smallerRank_step (s : State n) (h : s.isDone = false) :
    SmallerRank (s.step records).rank s.rank := by
  have size : s.frontier.extractMin.2.size < s.frontier.size := by
    rw [PriorityQueue.size_extractMin]
    have : s.frontier.heap.size ≠ 0 := by simpa [State.isDone, PriorityQueue.isEmpty] using h
    simp only [PriorityQueue.size]
    omega
  have some : s.frontier.extractMin.1.isSome := by
    rw [PriorityQueue.extractMin_fst]
    have : s.frontier.heap.size ≠ 0 := by simpa [State.isDone, PriorityQueue.isEmpty] using h
    simp [PriorityQueue.peek?]
    omega
  unfold State.step
  simp only
  split
  · rename_i hx
    simp [hx] at some
  · rename_i u d frontier hx
    simp only [hx] at size
    split
    · exact .right _ size
    · rename_i hu
      refine Prod.lex_def.2 (.inl ?_)
      simp only [State.rank, State.finalized_foldl_relax]
      exact VertexSet.missing_insert_lt (by simpa using hu)

def run (source : Fin n) : State n :=
  repeatUntil State.isDone (State.step records) State.rank (State.smallerRank_step records) (.initial source)

def State.result (s : State n) (source : Fin n) : ShortestPaths n := ⟨source, s.distances, s.predecessors⟩

omit records

def distance? (p : ShortestPaths n) (v : Nat) : Option Weight := p.distances[v]?

def isReachable (p : ShortestPaths n) (v : Nat) : Bool := (p.distance? v).any Float.isFinite

/-- The vertex before `v` on a shortest path; the source has none, and neither has what cannot be reached. -/
def predecessor? (p : ShortestPaths n) (v : Nat) : Option (Fin n) := p.predecessors[v]?.join

/-- The predecessors of `v` and then `rest`, if one of the first `count` vertices going back has no predecessor. -/
def traceWithin (p : ShortestPaths n) : Nat → Fin n → List Nat → Option (List Nat)
  | 0, _, _ => none
  | count + 1, v, rest =>
    match p.predecessors.get v with
    | none => some (v :: rest)
    | some u => p.traceWithin count u (v :: rest)

/-- The predecessors of `v` and then `rest`, back to a vertex that has none.  It has no value where predecessors run in
a circle, as those do that do not end among `n` vertices. -/
def traceBack (p : ShortestPaths n) (v : Fin n) (rest : List Nat) : Option (List Nat) := p.traceWithin n v rest

/-- The vertices on a shortest path from the source to a reachable vertex, both included. -/
def pathTo (p : ShortestPaths n) (target : Nat) : Option (List Nat) :=
  if h : target < n then
    if p.isReachable target then p.traceBack ⟨target, h⟩ [] else none
  else none

instance : BEq (ShortestPaths n) :=
  ⟨fun p q => p.source == q.source && p.distances == q.distances && p.predecessors == q.predecessors⟩

def labelled (p : ShortestPaths n) : Text.Labelled :=
  ⟨"ShortestPaths", [("source", toString p.source),
    ("distances", Text.listed (p.distances.toList.map Decimal.structured.text)),
    ("predecessors", Text.listed (p.predecessors.toList.map fun u => Text.optional (u.map toString)))]⟩

end ShortestPaths

end WeightedGraph
