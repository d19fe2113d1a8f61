import WeightedGraph.Proofs.Graph.Recast
import WeightedGraph.Proofs.Plain.Graph

/-!
# Schedules of cursor calls

A cursor may be asked for the next edge and whether there is one in any order.  One call does one thing to the edges
that are left: a question leaves them all, and handing an edge out leaves the others (`Serves.hasNext_cons`,
`Serves.next_cons`).  So by induction on the calls the answers depend only on how many edges have been asked for
before (`serves_performAll`).  With the edges as they lie in memory (`Storage.edgesOf`) that says what both cursors
answer to every schedule (`cursors_serve`).  A plain cursor answers the same, so that each of its calls ends and keeps
to the arrays.
-/

namespace WeightedGraph

/-- Whether a call asks for an edge. -/
def CursorCall.takes : CursorCall → Bool
  | .hasNext => false
  | .next => true

/-- How many edges have been asked for before call number `i`. -/
def asked (calls : List CursorCall) (i : Nat) : Nat := (calls.take i).countP CursorCall.takes

/-- The answers of a cursor that hands out these edges in their order and nothing after them.  It says that an edge is
left as long as fewer have been asked for than there are. -/
structure Serves (edges : List Edge) (calls : List CursorCall) (answers : List (Bool ⊕ Option Edge)) : Prop where
  length_eq : answers.length = calls.length
  hasNext : ∀ {i : Nat}, calls[i]? = some .hasNext → answers[i]? = some (.inl (decide (asked calls i < edges.length)))
  next : ∀ {i : Nat}, calls[i]? = some .next → answers[i]? = some (.inr edges[asked calls i]?)
  /-- The edges that are handed out, whatever is asked in between. -/
  handedOut : answers.filterMap Sum.getRight? = (List.range (calls.countP CursorCall.takes)).map (edges[·]?)

/-- The edges of a vertex as they lie in memory: its records in their order, or the cells of its row that are set, by
ascending column. -/
def Plain.Storage.edgesOf : Storage → Nat → List Edge
  | .lists rows, u => (rows.getD u #[]).toList.map fun r => ⟨u, r.target, r.weight⟩
  | .matrix weights present side, u =>
    ((List.range side).filter fun v => present.getD (u * side + v) false).map fun v =>
      ⟨u, v, weights.getD (u * side + v) 0.0⟩

variable {n : Nat} {edges : List Edge} {calls : List CursorCall} {answers : List (Bool ⊕ Option Edge)} {e : Edge}

/-! ### One call -/

@[simp] theorem asked_zero (calls : List CursorCall) : asked calls 0 = 0 := rfl

@[simp] theorem asked_hasNext_cons (calls : List CursorCall) (i : Nat) :
    asked (.hasNext :: calls) (i + 1) = asked calls i := by
  rw [asked, List.take_succ_cons, List.countP_cons_of_neg (by decide), asked]

@[simp] theorem asked_next_cons (calls : List CursorCall) (i : Nat) :
    asked (.next :: calls) (i + 1) = asked calls i + 1 := by
  rw [asked, List.take_succ_cons, List.countP_cons_of_pos rfl, asked]

namespace Serves

theorem nil (edges : List Edge) : Serves edges [] [] where
  length_eq := rfl
  hasNext h := by simp at h
  next h := by simp at h
  handedOut := rfl

/-- A question leaves all the edges for the calls after it. -/
theorem hasNext_cons (h : Serves edges calls answers) :
    Serves edges (.hasNext :: calls) (.inl (!edges.isEmpty) :: answers) where
  length_eq := congrArg (· + 1) h.length_eq
  hasNext {i} hi := by
    cases i with
    | zero => cases edges <;> simp
    | succ i => simpa using h.hasNext (by simpa using hi)
  next {i} hi := by
    cases i with
    | zero => simp at hi
    | succ i => simpa using h.next (by simpa using hi)
  handedOut := by
    rw [List.countP_cons_of_neg (by decide), ← h.handedOut]
    rfl

/-- Handing out the first edge leaves the others for the calls after it. -/
theorem next_cons (h : Serves edges.tail calls answers) :
    Serves edges (.next :: calls) (.inr edges.head? :: answers) where
  length_eq := congrArg (· + 1) h.length_eq
  hasNext {i} hi := by
    cases i with
    | zero => simp at hi
    | succ i => simpa [Nat.lt_sub_iff_add_lt] using h.hasNext (i := i) (by simpa using hi)
  next {i} hi := by
    cases i with
    | zero => simp [List.head?_eq_getElem?]
    | succ i => simpa using h.next (i := i) (by simpa using hi)
  handedOut := by
    have hlater : answers.filterMap Sum.getRight? =
        (List.range (calls.countP CursorCall.takes)).map fun k => edges[k + 1]? := by
      simpa using h.handedOut
    rw [List.countP_cons_of_pos rfl, List.range_succ_eq_map, List.map_cons, List.map_map, ← List.head?_eq_getElem?]
    exact congrArg (edges.head? :: ·) hlater

/-- Only these edges are handed out. -/
theorem mem (h : Serves edges calls answers) (he : .inr (some e) ∈ answers) : e ∈ edges := by
  have hmem : some e ∈ answers.filterMap Sum.getRight? := List.mem_filterMap.2 ⟨_, he, rfl⟩
  rw [h.handedOut, List.mem_map] at hmem
  obtain ⟨k, -, hk⟩ := hmem
  exact List.mem_of_getElem? hk

end Serves

/-- To any schedule of calls a cursor answers with the edges that it has left. -/
theorem EdgeCursor.serves_performAll (c : EdgeCursor n) (calls : List CursorCall) :
    Serves c.remaining calls (c.performAll calls) := by
  induction calls generalizing c with
  | nil => exact Serves.nil _
  | cons call calls ih =>
    cases call with
    | hasNext =>
      have hrest := ih c.hasNext.2
      rw [c.remaining_hasNext] at hrest
      simpa [performAll, c.hasNext_fst] using hrest.hasNext_cons
    | next =>
      have hrest := ih c.next.2
      rw [c.remaining_next] at hrest
      simpa [performAll, c.next_fst] using hrest.next_cons

/-! ### Edges in memory -/

namespace Plain.Storage

theorem edgesOf_plain (a : Adjacency n) (u : Fin n) : a.plain.edgesOf u = a.outEdges u := by
  cases a with
  | rows a =>
    have hrow : a.plain.getD u.val #[] = (a.records u).plain := by
      rw [Array.getD_eq_getD_getElem?, getElem?_plain]
      rfl
    simp [Adjacency.plain, edgesOf, hrow, Row.plain, Record.plain, Adjacency.outEdges, Adjacency.records]
  | grid a =>
    have hset (v : Fin n) : a.present.toArray.getD (u.val * n + v.val) false = a.contains u v := by
      rw [Array.getD_eq_getD_getElem?, getElem?_present]
      rfl
    have hweight (v : Fin n) : a.weights.toArray.getD (u.val * n + v.val) 0.0 = a.rawWeight u v := by
      rw [Array.getD_eq_getD_getElem?, getElem?_weights]
      rfl
    have hrecords : a.records u = ((List.finRange n).filter (a.contains u)).map fun v => ⟨v, a.rawWeight u v⟩ := by
      rw [Grid.records, ← List.filterMap_eq_map, List.filterMap_filter]
      rfl
    simp only [Adjacency.plain, edgesOf, Adjacency.outEdges, Adjacency.records, hrecords,
      ← List.map_coe_finRange_eq_range, List.filter_map, List.map_map, Function.comp_def, hset, hweight]

end Plain.Storage

theorem source_of_mem_outEdges {a : Adjacency n} {u : Fin n} (he : e ∈ a.outEdges u) : e.source = u := by
  obtain ⟨r, -, rfl⟩ := List.mem_map.1 he
  rfl

namespace Graph

/-- The edges of all vertices follow one another as they lie in memory. -/
theorem flatMap_edgesOf (g : Graph n) : (List.range n).flatMap g.plain.storage.edgesOf = g.edges.remaining := by
  rw [← List.map_coe_finRange_eq_range, List.flatMap_map]
  simp only [show g.plain.storage = g.adjacency.plain from rfl, Plain.Storage.edgesOf_plain]
  rfl

theorem edgesOf_storage (g : Graph n) (v : Fin n) : g.plain.storage.edgesOf v = (g.outEdges v).remaining := by
  rw [← EdgeCursor.toList_eq_remaining, toList_outEdges]
  exact Plain.Storage.edgesOf_plain g.adjacency v

/-- To any schedule of calls cursors answer with the edges as they lie in memory, those of one vertex or those of one
vertex after the other, and plain cursors answer the same. -/
theorem cursors_serve (g : Graph n) (calls : List CursorCall) :
    (∃ answers, g.plain.edges.performAll? calls = some answers ∧ g.edges.performAll calls = answers ∧
      Serves ((List.range n).flatMap g.plain.storage.edgesOf) calls answers ∧
      ∀ e : Edge, .inr (some e) ∈ answers → e.source < n) ∧
    ∀ v : Fin n, ∃ answers, g.plain.neighborCalls? v calls = some (.ok answers) ∧
      (g.neighbors v).map (·.performAll calls) = .ok answers ∧ Serves (g.plain.storage.edgesOf v) calls answers ∧
      ∀ e : Edge, .inr (some e) ∈ answers → e.source = v := by
  constructor
  · have hserves := g.edges.serves_performAll calls
    refine ⟨_, g.edgeCalls_plain calls, rfl, ?_, fun e he => ?_⟩
    · rw [flatMap_edgesOf]
      exact hserves
    · have hmem := hserves.mem he
      rw [← EdgeCursor.toList_eq_remaining] at hmem
      exact (g.inRange_of_mem_edges e hmem).1
  · intro v
    have hserves := (g.outEdges v).serves_performAll calls
    have hcalls : (g.neighbors v).map (·.performAll calls) = .ok ((g.outEdges v).performAll calls) := by
      rw [neighbors, checkVertex_of_lt v.isLt]
      rfl
    refine ⟨_, (g.neighborCalls?_plain v calls).trans (congrArg some hcalls), hcalls, ?_, fun e he => ?_⟩
    · rw [edgesOf_storage]
      exact hserves
    · have hmem := hserves.mem he
      rw [← EdgeCursor.toList_eq_remaining, toList_outEdges] at hmem
      exact source_of_mem_outEdges hmem

/-- In a matrix whose first and last rows are empty, a cursor that is asked twice before each edge. -/
theorem cursors_serve_empty_rows :
    let g : Graph 3 := ((⟨.directed, .grid (.empty 3), 0⟩ : Graph 3).addEdge 1 2 2.5).2.addEdge 1 0 1.5 |>.2
    let calls : List CursorCall := [.hasNext, .hasNext, .next, .hasNext, .next, .hasNext, .next]
    ∃ answers, g.plain.edges.performAll? calls = some answers ∧ answers[1]? = some (Sum.inl true) ∧
      answers[2]? = some (Sum.inr (some (Edge.mk 1 0 1.5))) ∧ answers[4]? = some (Sum.inr (some (Edge.mk 1 2 2.5))) ∧
      answers[5]? = some (Sum.inl false) ∧ answers[6]? = some (Sum.inr none) := by
  intro g calls
  obtain ⟨⟨answers, hplain, -, hserves, -⟩, -⟩ := cursors_serve g calls
  exact ⟨answers, hplain, hserves.hasNext rfl, hserves.next rfl, hserves.next rfl, hserves.hasNext rfl,
    hserves.next rfl⟩

end Graph

end WeightedGraph
