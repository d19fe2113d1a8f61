import WeightedGraph.Graph.Basic

/-!
# Edge cursors

A cursor hands out edges one at a time: those of one vertex, or those of all vertices by increasing source.
It looks at the records of a vertex only when it gets there, and asking whether an edge is left may move it
past vertices without edges.  What is still to come is `EdgeCursor.remaining`; the key facts say what
`hasNext` and `next` do to it.
-/

namespace WeightedGraph

/-- A place in an enumeration of edges. -/
structure EdgeCursor (n : Nat) where
  adjacency : Adjacency n
  /-- Edges of the vertex at hand that have not been handed out. -/
  pending : List Edge
  /-- Vertices that have not been looked at. -/
  upcoming : List (Fin n)

namespace EdgeCursor

variable {n : Nat}

/-- The edges of the first vertex that has any, and the vertices after it. -/
def firstEdges (a : Adjacency n) : List (Fin n) → List Edge × List (Fin n)
  | [] => ([], [])
  | u :: us =>
    match a.outEdges u with
    | [] => firstEdges a us
    | edges => (edges, us)

/-- Moves on to a vertex that has an edge left, if there is one. -/
def settle (c : EdgeCursor n) : EdgeCursor n :=
  match c.pending with
  | [] =>
    let (pending, upcoming) := firstEdges c.adjacency c.upcoming
    ⟨c.adjacency, pending, upcoming⟩
  | _ => c

def hasNext (c : EdgeCursor n) : Bool × EdgeCursor n :=
  let c := c.settle
  (!c.pending.isEmpty, c)

def next (c : EdgeCursor n) : Option Edge × EdgeCursor n :=
  let c := c.settle
  match c.pending with
  | [] => (none, c)
  | e :: pending => (some e, { c with pending })

def remaining (c : EdgeCursor n) : List Edge :=
  c.pending ++ c.upcoming.flatMap c.adjacency.outEdges

theorem append_flatMap_firstEdges (a : Adjacency n) (us : List (Fin n)) :
    (firstEdges a us).1 ++ (firstEdges a us).2.flatMap a.outEdges = us.flatMap a.outEdges := by
  induction us with
  | nil => rfl
  | cons u us ih =>
    unfold firstEdges
    split
    · rename_i h
      simp [ih, h]
    · simp

theorem firstEdges_eq_nil {a : Adjacency n} {us : List (Fin n)} (h : (firstEdges a us).1 = []) :
    (firstEdges a us).2 = [] := by
  induction us with
  | nil => rfl
  | cons u us ih =>
    unfold firstEdges at h ⊢
    split
    · rename_i hu
      simp only [hu] at h
      exact ih h
    · rename_i hne
      split at h
      · contradiction
      · exact absurd h hne

@[simp] theorem remaining_settle (c : EdgeCursor n) : c.settle.remaining = c.remaining := by
  unfold settle
  split
  · rename_i h
    simp [remaining, h, append_flatMap_firstEdges]
  · rfl

theorem remaining_of_pending_settle {c : EdgeCursor n} (h : c.settle.pending = []) : c.remaining = [] := by
  rw [← remaining_settle]
  unfold remaining
  rw [h]
  unfold settle at h ⊢
  split
  · rename_i hp
    simp only [hp] at h
    simp [firstEdges_eq_nil h]
  · rename_i hne
    split at h
    · contradiction
    · exact absurd h hne

/-- `hasNext` tells whether edges remain. -/
theorem hasNext_fst (c : EdgeCursor n) : c.hasNext.1 = !c.remaining.isEmpty := by
  unfold hasNext
  cases h : c.settle.pending with
  | nil => simp [h, remaining_of_pending_settle h]
  | cons e es =>
    have : c.remaining ≠ [] := by rw [← remaining_settle c]; simp [remaining, h]
    simp [h, this]

/-- `hasNext` takes no edge. -/
@[simp] theorem remaining_hasNext (c : EdgeCursor n) : c.hasNext.2.remaining = c.remaining := by
  simp [hasNext]

/-- `next` gives the first edge that remains. -/
theorem next_fst (c : EdgeCursor n) : c.next.1 = c.remaining.head? := by
  unfold next
  cases h : c.settle.pending with
  | nil => simp [h, remaining_of_pending_settle h]
  | cons e es =>
    rw [← remaining_settle c]
    simp [remaining, h]

/-- After `next` the other edges remain. -/
theorem remaining_next (c : EdgeCursor n) : c.next.2.remaining = c.remaining.tail := by
  unfold next
  cases h : c.settle.pending with
  | nil => simp [h, remaining_of_pending_settle h]
  | cons e es =>
    rw [← remaining_settle c]
    simp [remaining, h]

def drain (c : EdgeCursor n) : List Edge × EdgeCursor n :=
  match _ : c.next with
  | (none, c') => ([], c')
  | (some e, c') =>
    let (es, last) := c'.drain
    (e :: es, last)
termination_by c.remaining.length
decreasing_by
  rename_i h
  have h1 := next_fst c
  have h2 := remaining_next c
  rw [h] at h1 h2
  cases hr : c.remaining with
  | nil => simp [hr] at h1
  | cons a l => simp_all

def toList (c : EdgeCursor n) : List Edge := c.drain.1

/-- Taking edges until none is left gives what remains. -/
theorem toList_eq_remaining (c : EdgeCursor n) : c.toList = c.remaining := by
  unfold toList
  fun_induction drain c with
  | case1 c c' h =>
    have h1 := next_fst c
    rw [h] at h1
    exact (List.head?_eq_none_iff.1 h1.symm).symm
  | case2 c e c' h es last hd ih =>
    have h1 := next_fst c
    have h2 := remaining_next c
    rw [h] at h1 h2
    rw [hd] at ih
    cases hr : c.remaining with
    | nil => simp [hr] at h1
    | cons a l => simp_all

end EdgeCursor

namespace Graph

variable {n : Nat}

/-- A cursor at the first edge of a vertex. -/
def outEdges (g : Graph n) (u : Fin n) : EdgeCursor n := ⟨g.adjacency, [], [u]⟩

/-- A cursor at the first edge from `v`. -/
def neighbors (g : Graph n) (v : Nat) : Except GraphError (EdgeCursor n) :=
  (checkVertex n v).map g.outEdges

/-- A cursor at the first of all edges.  An undirected edge between two vertices comes once in each direction. -/
def edges (g : Graph n) : EdgeCursor n := ⟨g.adjacency, [], List.finRange n⟩

theorem toList_edges (g : Graph n) :
    g.edges.toList = (List.finRange n).flatMap g.adjacency.outEdges := by
  simp [EdgeCursor.toList_eq_remaining, EdgeCursor.remaining, edges]

theorem toList_outEdges (g : Graph n) (u : Fin n) : (g.outEdges u).toList = g.adjacency.outEdges u := by
  simp [EdgeCursor.toList_eq_remaining, EdgeCursor.remaining, outEdges]

end Graph

end WeightedGraph
