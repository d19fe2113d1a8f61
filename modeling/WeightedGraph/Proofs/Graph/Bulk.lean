import WeightedGraph.Proofs.Graph.EdgeMap

/-!
# Adding many edges

Edges between vertices can all be added, one after the other (`addEdges_of_inRange`), and then the graph stands for
the map into which they have been written in turn (`Represents.addEdges`).  Where all the edges with one key have one
weight, that weight is found under the key in the end (`EdgeMap.lookup_writeAll_of_agree`).
-/

namespace WeightedGraph

/-- Both ends are vertices. -/
def Edge.InRange (n : Nat) (e : Edge) : Prop := e.source < n ∧ e.target < n

/-- What the directions of an edge have in common. -/
def Edge.key (kind : GraphKind) (e : Edge) : Nat × Nat := kind.key e.source e.target

namespace EdgeMap

/-- Writes the weights of edges under their keys, one after the other. -/
def writeAll (kind : GraphKind) (m : EdgeMap) (edges : List Edge) : EdgeMap :=
  edges.foldl (fun m e => (m.write e.weight (e.key kind)).2) m

/-- If a map knows the weights of all the edges, they are found in the end, and nothing else has changed. -/
theorem lookup_writeAll_of_agree {kind : GraphKind} {m m' : EdgeMap} {edges : List Edge}
    (h : ∀ e ∈ edges, m'.lookup (e.key kind) = some e.weight) (k : Nat × Nat) :
    (m.writeAll kind edges).lookup k = if k ∈ edges.map (Edge.key kind) then m'.lookup k else m.lookup k := by
  induction edges generalizing m with
  | nil => rfl
  | cons e edges ih =>
    show (writeAll kind (m.write e.weight (e.key kind)).2 edges).lookup k = _
    rw [ih fun e he => h e (List.mem_cons_of_mem _ he), lookup_write]
    simp only [List.map_cons, List.mem_cons]
    by_cases hlater : k ∈ edges.map (Edge.key kind)
    · rw [if_pos hlater, if_pos (.inr hlater)]
    · rw [if_neg hlater]
      by_cases hk : e.key kind = k
      · subst hk
        rw [if_pos rfl, if_pos (.inl rfl), h e List.mem_cons_self]
      · rw [if_neg hk, if_neg (not_or.2 ⟨Ne.symm hk, hlater⟩)]

end EdgeMap

namespace Graph

variable {n : Nat} {g : Graph n} {m : EdgeMap}

theorem addEdges_cons_of_inRange {e : Edge} (h : e.InRange n) (edges : List Edge) :
    (g.addEdges (e :: edges)).1.result =
        ((g.insert ⟨e.source, h.1⟩ ⟨e.target, h.2⟩ e.weight).2.addEdges edges).1.result ∧
      (g.addEdges (e :: edges)).2 = ((g.insert ⟨e.source, h.1⟩ ⟨e.target, h.2⟩ e.weight).2.addEdges edges).2 := by
  rw [addEdges, addEdge_of_lt g h.1 h.2]
  exact ⟨rfl, rfl⟩

/-- Edges between vertices can all be added. -/
theorem addEdges_of_inRange {edges : List Edge} (h : ∀ e ∈ edges, e.InRange n) :
    (g.addEdges edges).1.result = .ok () := by
  induction edges generalizing g with
  | nil => rfl
  | cons e edges ih =>
    rw [(addEdges_cons_of_inRange (h e List.mem_cons_self) edges).1]
    exact ih fun e he => h e (List.mem_cons_of_mem _ he)

@[simp] theorem representation_addEdges (g : Graph n) (edges : List Edge) :
    (g.addEdges edges).2.representation = g.representation :=
  addEdges_keeps (P := fun g' => g'.representation = g.representation)
    (fun u v w h => (representation_insert _ u v w).trans h) edges rfl

@[simp] theorem kind_addEdges (g : Graph n) (edges : List Edge) : (g.addEdges edges).2.kind = g.kind :=
  addEdges_keeps (P := fun g' => g'.kind = g.kind) (fun _ _ _ h => h) edges rfl

/-- Adding edges to a graph writes them into the map that it represents. -/
theorem Represents.addEdges (hg : Represents g m) {edges : List Edge} (h : ∀ e ∈ edges, e.InRange n) :
    Represents (g.addEdges edges).2 (m.writeAll g.kind edges) := by
  induction edges generalizing g m with
  | nil => exact hg
  | cons e edges ih =>
    have he := h e List.mem_cons_self
    rw [(addEdges_cons_of_inRange he edges).2]
    exact ih (hg.insert ⟨e.source, he.1⟩ ⟨e.target, he.2⟩ e.weight) fun e he => h e (List.mem_cons_of_mem _ he)

/-- A graph can be made of edges between vertices if there is memory for it. -/
theorem fromEdges_of_inRange {kind : GraphKind} {r : Representation} {edges : List Edge} {empty : Graph n}
    (h : ∀ e ∈ edges, e.InRange n) (hempty : (create n kind r).result = .ok empty) :
    (fromEdges n kind r edges).result = .ok (empty.addEdges edges).2 := by
  simp only [fromEdges, Outcome.bind_def, Outcome.pure_def, Outcome.result_bind, hempty, Except.bind,
    addEdges_of_inRange h]
  rfl

end Graph

end WeightedGraph
