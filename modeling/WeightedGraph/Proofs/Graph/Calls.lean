import WeightedGraph.Proofs.Graph.Recast
import WeightedGraph.Proofs.Graph.SameEdges

/-!
# Calls that fail

Everything that can fail when it is asked of a graph, as one `Call`.  What stops a call can be told before it is made
(`Call.problem?`): a vertex that the graph does not have, the first of those that the call names, or a new graph of the
same size for which there is no memory.  Exactly these calls fail, with that error; they leave the graph and what
visits have gathered as they were, and they report nothing (`call_exact_and_atomic`).
-/

namespace WeightedGraph

namespace Outcome

variable {α : Type}

/-- What comes of an operation, apart from its result. -/
def finished (x : Outcome α) : Outcome Unit := x.bind fun _ => .ok ()

/-- A result or an error of an operation that reports nothing. -/
def silent (x : Except GraphError α) : Outcome α := ⟨x, []⟩

/-- The error that stopped an operation. -/
def problem? (x : Outcome α) : Option GraphError :=
  match x.result with
  | .error e => some e
  | .ok _ => none

@[simp] theorem finished_fail (e : GraphError) : (fail e : Outcome α).finished = fail e := rfl

@[simp] theorem problem?_finished (x : Outcome α) : x.finished.problem? = x.problem? := by
  unfold finished problem?
  rw [result_bind]
  cases x.result <;> rfl

theorem problem?_finished_of_ok {x : Outcome α} {a : α} (h : x.result = .ok a) : x.finished.problem? = none := by
  rw [problem?_finished, problem?, h]

theorem result_eq_error_iff {x : Outcome α} {e : GraphError} : x.result = .error e ↔ x.problem? = some e := by
  unfold problem?
  cases x.result <;> simp

end Outcome

/-- A call of a graph that can fail. -/
inductive Call
  | addEdge (u v : Nat) (w : Weight)
  | addEdgeUnweighted (u v : Nat)
  | setEdgeWeight (u v : Nat) (w : Weight)
  | removeEdge (u v : Nat)
  | degree (v : Nat)
  | inDegree (v : Nat)
  | neighbors (v : Nat)
  | visitBreadthFirst (start : Nat)
  | visitDepthFirst (start : Nat)
  | breadthFirstOrder (start : Nat)
  | depthFirstOrder (start : Nat)
  | isConnectedFrom (start : Nat)
  | shortestPaths (source : Nat)
  | distancesFrom (source : Nat)
  | copy (r : Representation)
  | convert (r : Representation)

/-- The first of some vertices that is none of a graph with `n` vertices is to blame. -/
def outOfRange? (n : Nat) (vs : List Nat) : Option GraphError :=
  (vs.find? fun v => n ≤ v).map fun v => .vertexOutOfRange v n

namespace Call

/-- The vertices that a call names, in order. -/
def vertices : Call → List Nat
  | addEdge u v _ | addEdgeUnweighted u v | setEdgeWeight u v _ | removeEdge u v => [u, v]
  | degree v | inDegree v | neighbors v => [v]
  | visitBreadthFirst s | visitDepthFirst s | breadthFirstOrder s | depthFirstOrder s | isConnectedFrom s => [s]
  | shortestPaths s | distancesFrom s => [s]
  | copy _ | convert _ => []

/-- What will stop a call of a graph. -/
def problem? {n : Nat} (g : Graph n) : Call → Option GraphError
  | copy r => (Graph.create n g.kind r).problem?
  | convert r => if g.representation = r then none else (Graph.create n g.kind r).problem?
  | c => outOfRange? n c.vertices

end Call

namespace Graph

variable {n : Nat} {β : Type} {g : Graph n} {visit : β → Nat → β} {value : β} {c : Call} {e : GraphError}

/-- What comes of a call: how it ends, the graph afterwards, and the value that its visits leave. -/
def call (g : Graph n) (visit : β → Nat → β) (value : β) : Call → Outcome Unit × Graph n × β
  | .addEdge u v w => ((g.addEdge u v w).1.finished, (g.addEdge u v w).2, value)
  | .addEdgeUnweighted u v => ((g.addEdgeUnweighted u v).1.finished, (g.addEdgeUnweighted u v).2, value)
  | .setEdgeWeight u v w => ((g.setEdgeWeight u v w).1.finished, (g.setEdgeWeight u v w).2, value)
  | .removeEdge u v => ((g.removeEdge u v).1.finished, (g.removeEdge u v).2, value)
  | .degree v => ((Outcome.silent (g.degree v)).finished, g, value)
  | .inDegree v => ((Outcome.silent (g.inDegree v)).finished, g, value)
  | .neighbors v => ((Outcome.silent (g.neighbors v)).finished, g, value)
  | .visitBreadthFirst s => ((g.visitBreadthFirst s visit value).1, g, (g.visitBreadthFirst s visit value).2)
  | .visitDepthFirst s => ((g.visitDepthFirst s visit value).1, g, (g.visitDepthFirst s visit value).2)
  | .breadthFirstOrder s => ((g.breadthFirstOrder s).finished, g, value)
  | .depthFirstOrder s => ((g.depthFirstOrder s).finished, g, value)
  | .isConnectedFrom s => ((g.isConnectedFrom s).finished, g, value)
  | .shortestPaths s => ((g.shortestPaths s).finished, g, value)
  | .distancesFrom s => ((g.distancesFrom s).finished, g, value)
  | .copy r => ((g.copy r).finished, g, value)
  | .convert r => ((g.convert r).1, (g.convert r).2, value)

/-! ### Vertices that are none -/

theorem outOfRange?_eq_none_iff {vs : List Nat} : outOfRange? n vs = none ↔ ∀ v ∈ vs, v < n := by
  simp [outOfRange?]

theorem lt_of_outOfRange {v : Nat} (h : outOfRange? n [v] = none) : v < n :=
  outOfRange?_eq_none_iff.1 h v (by simp)

theorem ends_lt_of_outOfRange {u v : Nat} (h : outOfRange? n [u, v] = none) : u < n ∧ v < n :=
  ⟨outOfRange?_eq_none_iff.1 h u (by simp), outOfRange?_eq_none_iff.1 h v (by simp)⟩

theorem checkVertex_of_outOfRange {v : Nat} (h : outOfRange? n [v] = some e) : checkVertex n v = .error e := by
  by_cases hv : v < n
  · rw [outOfRange?_eq_none_iff.2 (by simpa using hv)] at h
    contradiction
  · rw [outOfRange?, List.find?_cons_of_pos (by simpa using hv)] at h
    rw [checkVertex_of_le (Nat.le_of_not_lt hv), ← Option.some.inj h]

theorem checkEnds_of_outOfRange {u v : Nat} (h : outOfRange? n [u, v] = some e) : checkEnds n u v = .error e := by
  by_cases hu : u < n
  · have hv : outOfRange? n [v] = some e := by
      rwa [outOfRange?, List.find?_cons_of_neg (by simpa using hu)] at h
    rw [checkEnds, checkVertex_of_lt hu, checkVertex_of_outOfRange hv]
    rfl
  · rw [outOfRange?, List.find?_cons_of_pos (by simpa using hu)] at h
    rw [checkEnds_of_source_le (Nat.le_of_not_lt hu), ← Option.some.inj h]

/-! ### New graphs that cannot be had -/

theorem create_of_problem {kind : GraphKind} {r : Representation} (h : (create n kind r).problem? = some e) :
    create n kind r = .fail e := by
  rw [create_eq] at h ⊢
  split at h
  · rw [if_pos ‹n = 0›, Option.some.inj h]
  · rw [if_neg ‹¬n = 0›]
    split at h
    · simp only [Option.some.inj h, *]
    · contradiction

theorem copy_of_problem {r : Representation} (h : (create n g.kind r).problem? = some e) : g.copy r = .fail e := by
  simp only [copy, fromEdges, create_of_problem h, Outcome.bind_def, Outcome.bind_fail]

theorem problem?_copy (g : Graph n) (r : Representation) : (g.copy r).problem? = (create n g.kind r).problem? := by
  unfold Outcome.problem?
  rw [result_copy]
  cases (create n g.kind r).result <;> rfl

/-! ### Calls -/

/-- A call that has a problem fails with it, and does nothing else. -/
theorem call_of_problem (h : c.problem? g = some e) : g.call visit value c = (.fail e, g, value) := by
  cases c
  case addEdge u v w | addEdgeUnweighted u v | setEdgeWeight u v w =>
    simp only [call, addEdgeUnweighted, setEdgeWeight, addEdge, checkEnds_of_outOfRange h, Outcome.finished_fail]
  case removeEdge u v => simp only [call, removeEdge, checkEnds_of_outOfRange h, Outcome.finished_fail]
  case degree v | inDegree v | neighbors v =>
    simp only [call, degree, inDegree, neighbors, checkVertex_of_outOfRange h]
    rfl
  case visitBreadthFirst s | visitDepthFirst s =>
    simp only [call, visitBreadthFirst, visitDepthFirst, checkVertex_of_outOfRange h]
  case breadthFirstOrder s | depthFirstOrder s | isConnectedFrom s =>
    simp only [call, breadthFirstOrder, depthFirstOrder, isConnectedFrom, foldBreadthFirst, foldDepthFirst,
      visitBreadthFirst, visitDepthFirst, checkVertex_of_outOfRange h, Outcome.bind_def, Outcome.bind_fail,
      Outcome.finished_fail]
  case shortestPaths s | distancesFrom s =>
    simp only [call, distancesFrom, shortestPaths, checkVertex_of_outOfRange h, Outcome.bind_def, Outcome.bind_fail,
      Outcome.finished_fail]
  case copy r => rw [call, copy_of_problem h, Outcome.finished_fail]
  case convert r =>
    rw [Call.problem?] at h
    split at h
    · contradiction
    · rw [call, convert, if_neg ‹_›, copy_of_problem h]
      rfl

/-- A call that has no problem comes to an end. -/
theorem problem?_call_of_none (h : c.problem? g = none) : (g.call visit value c).1.problem? = none := by
  cases c
  case addEdge u v w | addEdgeUnweighted u v | setEdgeWeight u v w =>
    obtain ⟨hu, hv⟩ := ends_lt_of_outOfRange h
    simp only [call, addEdgeUnweighted, setEdgeWeight, addEdge_of_lt g hu hv]
    rfl
  case removeEdge u v =>
    obtain ⟨hu, hv⟩ := ends_lt_of_outOfRange h
    simp only [call, removeEdge_of_lt g hu hv]
    rfl
  case degree v | inDegree v | neighbors v =>
    simp only [call, degree, inDegree, neighbors, checkVertex_of_lt (lt_of_outOfRange h)]
    rfl
  case visitBreadthFirst s | visitDepthFirst s =>
    simp only [call, visitBreadthFirst, visitDepthFirst, checkVertex_of_lt (lt_of_outOfRange h)]
    rfl
  case breadthFirstOrder s =>
    exact Outcome.problem?_finished_of_ok (g.breadthFirstOrder_eq ⟨s, lt_of_outOfRange h⟩)
  case depthFirstOrder s => exact Outcome.problem?_finished_of_ok (g.depthFirstOrder_eq ⟨s, lt_of_outOfRange h⟩)
  case isConnectedFrom s => exact Outcome.problem?_finished_of_ok (g.isConnectedFrom_eq ⟨s, lt_of_outOfRange h⟩)
  case shortestPaths s => exact Outcome.problem?_finished_of_ok (g.shortestPaths_of_lt (lt_of_outOfRange h))
  case distancesFrom s => exact Outcome.problem?_finished_of_ok (g.distancesFrom_eq ⟨s, lt_of_outOfRange h⟩)
  case copy r => rw [call, Outcome.problem?_finished, problem?_copy, ← h, Call.problem?]
  case convert r =>
    by_cases hr : g.representation = r
    · rw [call, ← hr, convert_of_eq]
      rfl
    · rw [Call.problem?, if_neg hr, ← problem?_copy] at h
      cases hcopy : (g.copy r).result with
      | error e =>
        rw [Outcome.result_eq_error_iff, h] at hcopy
        contradiction
      | ok h' =>
        rw [call, convert_of_ne hr hcopy]
        rfl

/-- The calls that fail are those that have a problem, and they fail with it.  A call that fails leaves the graph and
the value of the visits as they were, and reports nothing. -/
theorem call_exact_and_atomic (g : Graph n) (visit : β → Nat → β) (value : β) (c : Call) (e : GraphError) :
    ((g.call visit value c).1.result = .error e ↔ c.problem? g = some e) ∧
    (g.call visit value c = (.fail e, g, value) ↔ c.problem? g = some e) := by
  have hfails : (g.call visit value c).1.result = .error e → c.problem? g = some e := by
    intro hresult
    rw [Outcome.result_eq_error_iff] at hresult
    cases hproblem : c.problem? g with
    | none =>
      rw [problem?_call_of_none hproblem] at hresult
      contradiction
    | some e' =>
      rw [call_of_problem hproblem] at hresult
      exact hresult
  refine ⟨⟨hfails, fun h => ?_⟩, ⟨fun h => hfails ?_, call_of_problem⟩⟩
  · rw [call_of_problem h]
    rfl
  · rw [h]
    rfl

end Graph

end WeightedGraph
