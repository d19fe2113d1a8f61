import WeightedGraph.Graph.Copy
import WeightedGraph.Proofs.Graph.Stored

/-!
# Reachable graphs

The graphs that constructors and changes lead to, whatever they are called with (`Graph.Reachable`).  All of them
come from a graph without edges by writing and erasing edges and by clearing, so a property that these keep up is
one of every reachable graph (`Reachable.induction`).
-/

namespace WeightedGraph.Graph

variable {n : Nat}

/-- The graph can come to be by the operations of a graph. -/
inductive Reachable : Graph n → Prop
  | create {kind : GraphKind} {representation : Representation} {g : Graph n}
    (h : (create n kind representation).result = .ok g) : Reachable g
  | fromEdges {kind : GraphKind} {representation : Representation} {edges : List Edge} {g : Graph n}
    (h : (fromEdges n kind representation edges).result = .ok g) : Reachable g
  | addEdge {g : Graph n} (h : Reachable g) (u v : Nat) (w : Weight) : Reachable (g.addEdge u v w).2
  | addEdgeUnweighted {g : Graph n} (h : Reachable g) (u v : Nat) : Reachable (g.addEdgeUnweighted u v).2
  | setEdgeWeight {g : Graph n} (h : Reachable g) (u v : Nat) (w : Weight) : Reachable (g.setEdgeWeight u v w).2
  | removeEdge {g : Graph n} (h : Reachable g) (u v : Nat) : Reachable (g.removeEdge u v).2
  | clear {g : Graph n} (h : Reachable g) : Reachable g.clear.2
  | copy {g g' : Graph n} (h : Reachable g) {representation : Representation}
    (hcopy : (g.copy representation).result = .ok g') : Reachable g'
  | convert {g : Graph n} (h : Reachable g) (representation : Representation) :
    Reachable (g.convert representation).2

/-- A graph with given edges is a new graph to which the edges have been added. -/
theorem exists_create_of_fromEdges {kind : GraphKind} {representation : Representation} {edges : List Edge}
    {g : Graph n} (h : (fromEdges n kind representation edges).result = .ok g) :
    ∃ empty, (create n kind representation).result = .ok empty ∧ (empty.addEdges edges).2 = g := by
  simp only [fromEdges, Outcome.bind_def, Outcome.pure_def, Outcome.result_bind] at h
  cases hempty : (create n kind representation).result with
  | error e => simp [hempty, Except.bind] at h
  | ok empty =>
    cases hadded : (empty.addEdges edges).1.result with
    | error e => simp [hempty, hadded, Except.bind] at h
    | ok u => exact ⟨empty, rfl, by simpa [hempty, hadded, Except.bind, Outcome.ok] using h⟩

section

variable {P : Graph n → Prop}
  (hcreate : ∀ {kind : GraphKind} {representation : Representation} {g : Graph n},
    (Graph.create n kind representation).result = .ok g → P g)
  (hinsert : ∀ {g : Graph n} (u v : Fin n) (w : Weight), P g → P (g.insert u v w).2)
  (herase : ∀ {g : Graph n} (u v : Fin n), P g → P (g.erase u v).2)
  (hclear : ∀ {g : Graph n}, P g → P g.clear.2)

section

include hinsert

private theorem addEdge_keeps {g : Graph n} (h : P g) (u v : Nat) (w : Weight) : P (g.addEdge u v w).2 := by
  unfold Graph.addEdge
  split
  · exact h
  · exact hinsert _ _ w h

/-- What writing an edge keeps up, adding edges keeps up. -/
theorem addEdges_keeps (edges : List Edge) {g : Graph n} (h : P g) : P (g.addEdges edges).2 := by
  induction edges generalizing g with
  | nil => exact h
  | cons e edges ih =>
    have hadded := addEdge_keeps hinsert h e.source e.target e.weight
    unfold addEdges
    simp only
    split
    · exact hadded
    · exact ih hadded

end

include herase in
private theorem removeEdge_keeps {g : Graph n} (h : P g) (u v : Nat) : P (g.removeEdge u v).2 := by
  unfold Graph.removeEdge
  split
  · exact h
  · exact herase _ _ h

include hcreate hinsert in
private theorem fromEdges_keeps {kind : GraphKind} {representation : Representation} {edges : List Edge}
    {g : Graph n} (h : (fromEdges n kind representation edges).result = .ok g) : P g := by
  obtain ⟨empty, hempty, rfl⟩ := exists_create_of_fromEdges h
  exact addEdges_keeps hinsert edges (hcreate hempty)

include hcreate hinsert in
private theorem copy_keeps {g g' : Graph n} {representation : Representation}
    (h : (g.copy representation).result = .ok g') : P g' := by
  simp only [copy, Outcome.bind_def, Outcome.result_bind] at h
  cases hg : (Graph.fromEdges n g.kind representation g.edges.toList).result with
  | error e => simp [hg, Except.bind] at h
  | ok target =>
    obtain rfl : target = g' := by simpa [hg, Except.bind, Outcome.report] using h
    exact fromEdges_keeps hcreate hinsert hg

include hcreate hinsert herase hclear in
/-- What new graphs have, and what writing, erasing and clearing keep up, every reachable graph has. -/
theorem Reachable.induction {g : Graph n} (h : g.Reachable) : P g := by
  induction h with
  | create h => exact hcreate h
  | fromEdges h => exact fromEdges_keeps hcreate hinsert h
  | addEdge _ u v w ih => exact addEdge_keeps hinsert ih u v w
  | addEdgeUnweighted _ u v ih => exact addEdge_keeps hinsert ih u v unitWeight
  | setEdgeWeight _ u v w ih => exact addEdge_keeps hinsert ih u v w
  | removeEdge _ u v ih => exact removeEdge_keeps herase ih u v
  | clear _ ih => exact hclear ih
  | copy _ hcopy => exact copy_keeps hcreate hinsert hcopy
  | convert _ representation ih =>
    unfold Graph.convert
    split
    · exact ih
    · simp only
      split
      · exact ih
      · rename_i hcopy
        exact copy_keeps hcreate hinsert hcopy

end

theorem Reachable.distinct {g : Graph n} (h : g.Reachable) : g.adjacency.Distinct := by
  refine Reachable.induction (P := fun g => g.adjacency.Distinct) ?_ ?_ ?_ ?_ h
  · intro kind representation g hg
    obtain ⟨a, ha, rfl⟩ := eq_of_create hg
    exact Adjacency.distinct_of_allocate ha
  · exact fun u v w hg => distinct_insert hg u v w
  · exact fun u v hg => distinct_erase hg u v
  · exact fun _ => Adjacency.distinct_clear _

theorem Reachable.vertexCount_pos {g : Graph n} (h : g.Reachable) : 0 < n := by
  refine Reachable.induction (P := fun _ : Graph n => 0 < n) ?_ ?_ ?_ ?_ h
  · intro kind representation g hg
    by_contra hzero
    rw [create_eq, if_pos (by omega)] at hg
    contradiction
  · exact fun _ _ _ hpos => hpos
  · exact fun _ _ hpos => hpos
  · exact fun hpos => hpos

theorem Reachable.blank {g : Graph n} (h : g.Reachable) : g.adjacency.Blank := by
  refine Reachable.induction (P := fun g => g.adjacency.Blank) ?_ ?_ ?_ ?_ h
  · intro kind representation g hg
    obtain ⟨a, ha, rfl⟩ := eq_of_create hg
    rcases Adjacency.eq_empty_of_allocate ha with rfl | rfl
    · trivial
    · exact Adjacency.blank_empty_grid
  · intro g u v w hg
    simp only [insert]
    split
    · exact (hg.upsert u v w).upsert v u w
    · exact hg.upsert u v w
  · intro g u v hg
    simp only [erase]
    split
    · exact (hg.remove u v).remove v u
    · exact hg.remove u v
  · exact fun _ => Adjacency.blank_clear _

/-- The records of a vertex in a reachable graph are the weights of its edges. -/
theorem Reachable.mem_records_iff {g : Graph n} (h : g.Reachable) {u v : Fin n} {w : Weight} :
    ⟨v, w⟩ ∈ g.adjacency.records u ↔ g.findEdgeWeight u v = some w := by
  rw [findEdgeWeight_val]
  exact Adjacency.mem_records_iff h.distinct

end WeightedGraph.Graph
