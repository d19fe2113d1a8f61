import WeightedGraph.Graph.Copy
import WeightedGraph.Graph.Search
import WeightedGraph.Proofs.Graph.Stored
import WeightedGraph.Proofs.Plain.Search

/-!
# Plain graphs

A graph as it lies in memory, with numbers for its vertices, and its operations with nothing to rely on but the checks
that they make.  On the arrays of a graph each of them has a value, which is that of the operation of the graph
(`addEdge?_plain`, `copy?_plain`, `shortestPaths?_plain`, …); taking an edge out asks for one more thing, a count that
is not zero (`removeEdge?_plain`).
-/

namespace WeightedGraph

namespace Plain

variable {β : Type}

structure Graph where
  storage : Storage
  vertexCount : Nat
  edgeCount : Nat
  kind : GraphKind

namespace Graph

def create (n : Nat) (kind : GraphKind) (r : Representation) : Except GraphError Graph :=
  if n = 0 then .error .zeroVertices else (Storage.allocate n r).map fun storage => ⟨storage, n, 0, kind⟩

/-- Does something with a number that is a vertex. -/
def check (g : Graph) (v : Nat) (f : Nat → Option β) : Option (Except GraphError β) :=
  if v < g.vertexCount then (f v).map .ok else some (.error (.vertexOutOfRange v g.vertexCount))

/-- Whether the edge between two vertices is stored in both directions. -/
def runsBothWays (g : Graph) (u v : Nat) : Bool := !g.kind.isDirected && u ≠ v

def upsert? (g : Graph) (u v : Nat) (w : Weight) : Option (Bool × Graph) := do
  g.storage.reserve? (if g.runsBothWays u v then [u, v] else [u])
  let (created, forth) ← g.storage.upsert? u v w
  let both ← (if g.runsBothWays u v then (forth.upsert? v u w).map Prod.snd else some forth)
  return (created, { g with storage := both, edgeCount := if created then g.edgeCount + 1 else g.edgeCount })

def remove? (g : Graph) (u v : Nat) : Option (Bool × Graph) := do
  let (removed, forth) ← g.storage.remove? u v
  let both ← (if g.runsBothWays u v then (forth.remove? v u).map Prod.snd else some forth)
  let edgeCount ← (if removed then decrement? g.edgeCount else some g.edgeCount)
  return (removed, { g with storage := both, edgeCount })

/-- Does something to a graph with two numbers that are vertices; otherwise the graph stays as it is. -/
def change (g : Graph) (u v : Nat) (f : Nat → Nat → Option (Bool × Graph)) :
    Option (Except GraphError Bool × Graph) :=
  if u < g.vertexCount then
    if v < g.vertexCount then (f u v).map fun (answer, g) => (.ok answer, g)
    else some (.error (.vertexOutOfRange v g.vertexCount), g)
  else some (.error (.vertexOutOfRange u g.vertexCount), g)

def addEdge? (g : Graph) (u v : Nat) (w : Weight) : Option (Except GraphError Bool × Graph) :=
  g.change u v fun u v => g.upsert? u v w

def addEdgeUnweighted? (g : Graph) (u v : Nat) : Option (Except GraphError Bool × Graph) := g.addEdge? u v unitWeight

def setEdgeWeight? (g : Graph) (u v : Nat) (w : Weight) : Option (Except GraphError Bool × Graph) := g.addEdge? u v w

def removeEdge? (g : Graph) (u v : Nat) : Option (Except GraphError Bool × Graph) := g.change u v g.remove?

def clear (g : Graph) : Graph := { g with storage := g.storage.clear, edgeCount := 0 }

/-- Adds edges one after the other, up to the first that has an end which is no vertex. -/
def addEdges? (g : Graph) : List Edge → Option (Except GraphError Unit × Graph)
  | [] => some (.ok (), g)
  | e :: edges => do
    let (added, g) ← g.addEdge? e.source e.target e.weight
    match added with
    | .error problem => return (.error problem, g)
    | .ok _ => g.addEdges? edges

def fromEdges? (n : Nat) (kind : GraphKind) (r : Representation) (edges : List Edge) :
    Option (Except GraphError Graph) :=
  match create n kind r with
  | .error e => some (.error e)
  | .ok g => do
    let (added, g) ← g.addEdges? edges
    return added.map fun _ => g

/-- The answers of a cursor at the first edge from `v`. -/
def neighborCalls? (g : Graph) (v : Nat) (calls : List CursorCall) :
    Option (Except GraphError (List (Bool ⊕ Option Edge))) :=
  g.check v fun u => (g.storage.neighbors u).performAll? calls

def edges (g : Graph) : Cursor := ⟨g.storage, 0, 0, g.vertexCount⟩

noncomputable def copy? (g : Graph) (r : Representation) : Option (Except GraphError Graph) := do
  let edges ← g.edges.forEach? (fun edges e => some (edges ++ [e])) []
  fromEdges? g.vertexCount g.kind r edges

noncomputable def convert? (g : Graph) (r : Representation) : Option (Except GraphError Unit × Graph) :=
  if g.storage.representation = r then some (.ok (), g)
  else do
    match ← g.copy? r with
    | .error e => return (.error e, g)
    | .ok target => return (.ok (), target)

def hasEdge? (g : Graph) (u v : Nat) : Option Bool :=
  if u < g.vertexCount ∧ v < g.vertexCount then g.storage.contains? u v else some false

def findEdgeWeight? (g : Graph) (u v : Nat) : Option (Option Weight) :=
  if u < g.vertexCount ∧ v < g.vertexCount then g.storage.weight? u v else some none

def edgeWeight? (g : Graph) (u v : Nat) : Option Weight := (g.findEdgeWeight? u v).map (·.getD noEdgeWeight)

def degree? (g : Graph) (v : Nat) : Option (Except GraphError Nat) := g.check v g.storage.outDegree?

def inDegree? (g : Graph) (v : Nat) : Option (Except GraphError Nat) :=
  g.check v (if g.kind.isDirected then g.storage.inDegree? else g.storage.outDegree?)

noncomputable def foldBreadthFirst? (g : Graph) (start : Nat) (visit : β → Nat → β) (value : β) :
    Option (Except GraphError β) :=
  g.check start fun s => (BreadthFirst.run? g.storage g.vertexCount visit s value).map (·.value)

noncomputable def foldDepthFirst? (g : Graph) (start : Nat) (visit : β → Nat → β) (value : β) :
    Option (Except GraphError β) :=
  g.check start fun s => (DepthFirst.run? g.storage g.vertexCount visit s value).map (·.value)

noncomputable def breadthFirstOrder? (g : Graph) (start : Nat) : Option (Except GraphError (Array Nat)) :=
  g.foldBreadthFirst? start Array.push #[]

noncomputable def depthFirstOrder? (g : Graph) (start : Nat) : Option (Except GraphError (Array Nat)) :=
  g.foldDepthFirst? start Array.push #[]

noncomputable def isConnectedFrom? (g : Graph) (start : Nat) : Option (Except GraphError Bool) :=
  (g.foldBreadthFirst? start (fun count _ => count + 1) 0).map (·.map (· == g.vertexCount))

/-- The distances from a vertex and the predecessors on the ways to the others. -/
noncomputable def shortestPaths? (g : Graph) (source : Nat) :
    Option (Except GraphError (Array Weight × Array (Option Nat))) :=
  g.check source fun s =>
    (ShortestPaths.run? g.storage g.vertexCount s).map fun final => (final.distances, final.predecessors)

noncomputable def distancesFrom? (g : Graph) (source : Nat) : Option (Except GraphError (Array Weight)) :=
  (g.shortestPaths? source).map (·.map Prod.fst)

end Graph

end Plain

variable {n : Nat} {β : Type}

/-- The arrays of a graph. -/
def Graph.plain (g : Graph n) : Plain.Graph := ⟨g.adjacency.plain, n, g.edgeCount, g.kind⟩

namespace Graph

open Plain (decrement?)

variable (g : Graph n)

theorem create_plain (kind : GraphKind) (r : Representation) :
    Plain.Graph.create n kind r = (create n kind r).result.map plain := by
  rw [Plain.Graph.create, create_eq, Plain.Storage.allocate_plain]
  split
  · rfl
  · cases Adjacency.allocate n r <;> rfl

/-- What is done with a vertex is done after it has been checked. -/
theorem check_plain {f : Nat → Option β} (f' : Fin n → β) (hf : ∀ v : Fin n, f v = some (f' v)) (v : Nat) :
    g.plain.check v f = some ((checkVertex n v).map f') := by
  unfold Plain.Graph.check
  by_cases hv : v < n
  · have hrun := hf ⟨v, hv⟩
    simp only [plain, hv, if_true, hrun, checkVertex_of_lt hv]
    rfl
  · simp only [plain, hv, if_false, checkVertex_of_le (Nat.not_lt.1 hv)]
    rfl

theorem runsBothWays_plain (u v : Fin n) : g.plain.runsBothWays u v = runsBothWays g.kind u v := by
  simp [Plain.Graph.runsBothWays, runsBothWays, plain, Fin.val_inj]

theorem upsert?_plain (u v : Fin n) (w : Weight) :
    g.plain.upsert? u v w = some ((g.insert u v w).map id plain) := by
  have hreserve :
      g.plain.storage.reserve? (if runsBothWays g.kind u v then [u.val, v.val] else [u.val]) = some () := by
    apply Plain.Storage.reserve?_plain
    split <;> simp
  have hforth := Plain.Storage.upsert?_plain g.adjacency u v w
  have hback := Plain.Storage.upsert?_plain (g.adjacency.upsert u v w).2 v u w
  obtain ⟨kind, a, count⟩ := g
  simp only [Plain.Graph.upsert?, runsBothWays_plain, hreserve, Option.bind_eq_bind, Option.bind_some]
  simp only [plain, hforth, Prod.map, id, hback, Option.bind_some, Option.map_some, insert]
  split <;> rfl

theorem remove?_plain (u v : Fin n) (hcount : (g.adjacency.weight? u v).isSome → 0 < g.edgeCount) :
    g.plain.remove? u v = some ((g.erase u v).map id plain) := by
  have hforth := Plain.Storage.remove?_plain g.adjacency u v
  have hback := Plain.Storage.remove?_plain (g.adjacency.remove u v).2 v u
  have hdecrement : (if (g.adjacency.remove u v).1 then decrement? g.edgeCount else some g.edgeCount) =
      some (if (g.adjacency.remove u v).1 then g.edgeCount - 1 else g.edgeCount) := by
    rw [Adjacency.fst_remove]
    split
    · rename_i hstored
      have hpos := hcount hstored
      cases hedges : g.edgeCount with
      | zero => omega
      | succ k => rfl
    · rfl
  obtain ⟨kind, a, count⟩ := g
  simp only [Plain.Graph.remove?, runsBothWays_plain, Option.bind_eq_bind]
  simp only [plain, hforth, Prod.map, id, hback, hdecrement, Option.bind_some, Option.map_some, erase]
  split <;> rfl

/-- A change of a plain graph checks both ends first. -/
theorem change_plain {f : Nat → Nat → Option (Bool × Plain.Graph)} {f' : Fin n → Fin n → Bool × Graph n}
    (hf : ∀ u v : Fin n, f u v = some ((f' u v).map id plain)) (u v : Nat) :
    g.plain.change u v f = some
      (match checkEnds n u v with
      | .error e => (.error e, g.plain)
      | .ok (u, v) => (.ok (f' u v).1, (f' u v).2.plain)) := by
  unfold Plain.Graph.change
  by_cases hu : u < n
  · by_cases hv : v < n
    · have hrun := hf ⟨u, hu⟩ ⟨v, hv⟩
      simp only [plain, hu, hv, if_true, checkEnds_of_lt hu hv]
      rw [hrun]
      rfl
    · simp only [plain, hu, hv, if_true, if_false, checkEnds_of_target_le hu (Nat.not_lt.1 hv)]
  · simp only [plain, hu, if_false, checkEnds_of_source_le (Nat.not_lt.1 hu)]

theorem addEdge?_plain (u v : Nat) (w : Weight) :
    g.plain.addEdge? u v w = some ((g.addEdge u v w).map (·.result) plain) := by
  rw [Plain.Graph.addEdge?, g.change_plain fun u v => g.upsert?_plain u v w, addEdge]
  cases checkEnds n u v <;> rfl

theorem removeEdge?_plain (hcount : ∀ u v : Fin n, (g.adjacency.weight? u v).isSome → 0 < g.edgeCount) (u v : Nat) :
    g.plain.removeEdge? u v = some ((g.removeEdge u v).map (·.result) plain) := by
  rw [Plain.Graph.removeEdge?, g.change_plain fun u v => g.remove?_plain u v (hcount u v), removeEdge]
  cases checkEnds n u v <;> rfl

theorem clear_plain : g.plain.clear = g.clear.2.plain := by
  simp only [Plain.Graph.clear, plain, Plain.Storage.clear_plain]
  rfl

theorem addEdges?_plain (edges : List Edge) :
    g.plain.addEdges? edges = some ((g.addEdges edges).map (·.result) plain) := by
  induction edges generalizing g with
  | nil => rfl
  | cons e edges ih =>
    simp only [Plain.Graph.addEdges?, addEdge?_plain, Option.bind_eq_bind, Option.bind_some, Prod.map, addEdges]
    cases (g.addEdge e.source e.target e.weight).1.result with
    | error problem => rfl
    | ok created => exact ih _

theorem fromEdges?_plain (n : Nat) (kind : GraphKind) (r : Representation) (edges : List Edge) :
    Plain.Graph.fromEdges? n kind r edges = some ((fromEdges n kind r edges).result.map plain) := by
  unfold Plain.Graph.fromEdges? fromEdges
  rw [create_plain]
  simp only [Outcome.bind_def, Outcome.result_bind, Outcome.pure_def]
  cases (create n kind r).result with
  | error e => rfl
  | ok empty =>
    simp only [Except.map, Except.bind, addEdges?_plain, Option.bind_eq_bind, Option.bind_some, Prod.map]
    cases (empty.addEdges edges).1.result <;> rfl

theorem reads_edges : g.plain.edges.Reads g.adjacency g.edges.remaining :=
  Plain.Cursor.reads_vertices g.adjacency (Nat.zero_le n)

theorem reads_outEdges (u : Fin n) : (g.plain.storage.neighbors u).Reads g.adjacency (g.outEdges u).remaining := by
  rw [← EdgeCursor.toList_eq_remaining, toList_outEdges]
  exact Plain.Cursor.reads_vertex g.adjacency u

theorem copy?_plain (r : Representation) : g.plain.copy? r = some ((g.copy r).result.map plain) := by
  have hcollect (collected rest : List Edge) :
      rest.foldlM (fun edges e => some (edges ++ [e])) collected = some (collected ++ rest) := by
    induction rest generalizing collected with
    | nil => simp
    | cons e rest ih => simpa using ih (collected ++ [e])
  have hedges := Plain.Cursor.forEach?_eq g.reads_edges (hcollect [] _)
  rw [List.nil_append, ← EdgeCursor.toList_eq_remaining] at hedges
  simp only [Plain.Graph.copy?, hedges, Option.bind_eq_bind, Option.bind_some, copy, Outcome.bind_def,
    Outcome.result_bind]
  rw [show g.plain.vertexCount = n from rfl, show g.plain.kind = g.kind from rfl, fromEdges?_plain]
  cases (fromEdges n g.kind r g.edges.toList).result <;> rfl

theorem convert?_plain (r : Representation) : g.plain.convert? r = some ((g.convert r).map (·.result) plain) := by
  have hrepresentation : g.plain.storage.representation = g.representation :=
    Plain.Storage.representation_plain g.adjacency
  unfold Plain.Graph.convert? convert
  rw [hrepresentation, copy?_plain]
  split
  · rfl
  · simp only [Option.bind_eq_bind, Option.bind_some]
    cases (g.copy r).result <;> rfl

theorem hasEdge?_plain (u v : Nat) : g.plain.hasEdge? u v = some (g.hasEdge u v) := by
  unfold Plain.Graph.hasEdge? hasEdge
  by_cases hin : u < n ∧ v < n
  · have hcontains := Plain.Storage.contains?_plain g.adjacency ⟨u, hin.1⟩ ⟨v, hin.2⟩
    rw [checkEnds_of_lt hin.1 hin.2]
    exact (if_pos hin).trans hcontains
  · have hnone : (g.findEdgeWeight u v).isSome = false := by
      rw [findEdgeWeight_of_le (by omega)]
      rfl
    exact (if_neg hin).trans (congrArg some (hnone.symm.trans (g.hasEdge_eq u v).symm))

theorem findEdgeWeight?_plain (u v : Nat) : g.plain.findEdgeWeight? u v = some (g.findEdgeWeight u v) := by
  unfold Plain.Graph.findEdgeWeight?
  by_cases hin : u < n ∧ v < n
  · have hweight := Plain.Storage.weight?_plain g.adjacency ⟨u, hin.1⟩ ⟨v, hin.2⟩
    rw [← findEdgeWeight_val] at hweight
    exact (if_pos hin).trans hweight
  · rw [findEdgeWeight_of_le (by omega)]
    exact if_neg hin

theorem edgeWeight?_plain (u v : Nat) : g.plain.edgeWeight? u v = some (g.edgeWeight u v) := by
  rw [Plain.Graph.edgeWeight?, findEdgeWeight?_plain]
  rfl

theorem degree?_plain (v : Nat) : g.plain.degree? v = some (g.degree v) :=
  g.check_plain g.adjacency.outDegree (Plain.Storage.outDegree?_plain g.adjacency) v

theorem inDegree?_plain (v : Nat) : g.plain.inDegree? v = some (g.inDegree v) := by
  apply g.check_plain
  intro u
  rw [show g.plain.kind.isDirected = g.isDirected from rfl]
  split
  · exact Plain.Storage.inDegree?_plain g.adjacency u
  · exact Plain.Storage.outDegree?_plain g.adjacency u

theorem neighborCalls?_plain (v : Nat) (calls : List CursorCall) :
    g.plain.neighborCalls? v calls = some ((g.neighbors v).map (·.performAll calls)) := by
  rw [Plain.Graph.neighborCalls?, g.check_plain (fun u => (g.outEdges u).performAll calls) fun u =>
    Plain.Cursor.performAll?_eq (g.reads_outEdges u) calls, neighbors]
  cases checkVertex n v <;> rfl

theorem edgeCalls_plain (calls : List CursorCall) :
    g.plain.edges.performAll? calls = some (g.edges.performAll calls) :=
  Plain.Cursor.performAll?_eq g.reads_edges calls

theorem foldBreadthFirst?_plain (start : Nat) (visit : β → Nat → β) (value : β) :
    g.plain.foldBreadthFirst? start visit value = some (g.foldBreadthFirst start visit value).result := by
  have hrun (s : Fin n) : (Plain.BreadthFirst.run? g.plain.storage n visit s value).map (·.value) =
      some (BreadthFirst.run g.adjacency.successors (fun b v => visit b v) s value).value :=
    congrArg (Option.map (·.value)) (BreadthFirst.run?_plain g.adjacency visit s value)
  refine (g.check_plain _ hrun start).trans ?_
  unfold foldBreadthFirst visitBreadthFirst
  cases checkVertex n start <;> rfl

theorem foldDepthFirst?_plain (start : Nat) (visit : β → Nat → β) (value : β) :
    g.plain.foldDepthFirst? start visit value = some (g.foldDepthFirst start visit value).result := by
  have hrun (s : Fin n) : (Plain.DepthFirst.run? g.plain.storage n visit s value).map (·.value) =
      some (DepthFirst.run g.adjacency.successors (fun b v => visit b v) s value).value :=
    congrArg (Option.map (·.value)) (DepthFirst.run?_plain g.adjacency visit s value)
  refine (g.check_plain _ hrun start).trans ?_
  unfold foldDepthFirst visitDepthFirst
  cases checkVertex n start <;> rfl

theorem isConnectedFrom?_plain (start : Nat) :
    g.plain.isConnectedFrom? start = some (g.isConnectedFrom start).result := by
  rw [Plain.Graph.isConnectedFrom?, foldBreadthFirst?_plain]
  simp only [isConnectedFrom, Outcome.bind_def, Outcome.result_bind]
  cases (g.foldBreadthFirst start (fun count _ => count + 1) 0).result <;> rfl

theorem shortestPaths?_plain (source : Nat) :
    g.plain.shortestPaths? source = some ((g.shortestPaths source).result.map ShortestPaths.plain) := by
  have hrun (s : Fin n) : (Plain.ShortestPaths.run? g.plain.storage n s).map
      (fun final => (final.distances, final.predecessors)) =
      some ((ShortestPaths.run g.adjacency.records s).result s).plain :=
    congrArg (Option.map fun final => (final.distances, final.predecessors))
      (ShortestPaths.run?_plain g.adjacency s)
  refine (g.check_plain _ hrun source).trans ?_
  unfold shortestPaths
  cases checkVertex n source <;> rfl

theorem distancesFrom?_plain (source : Nat) :
    g.plain.distancesFrom? source = some ((g.distancesFrom source).result.map Vector.toArray) := by
  rw [Plain.Graph.distancesFrom?, shortestPaths?_plain]
  simp only [distancesFrom, Outcome.bind_def, Outcome.result_bind]
  cases (g.shortestPaths source).result <;> rfl

end Graph

end WeightedGraph
