import WeightedGraph.Proofs.Graph.Stored

/-!
# Walks

A walk follows the edges of a graph from a vertex, visits vertices any number of times, and is as long as the sum
of the weights on the way, added up from left to right (`Graph.Walk`).
-/

namespace WeightedGraph.Graph

variable {n : Nat}

/-- A walk from `source`: its last vertex, all of its vertices and its length. -/
inductive Walk (g : Graph n) (source : Nat) : Nat → List Nat → Weight → Prop
  | start (h : source < n) : Walk g source source [source] 0.0
  | extend {u v : Nat} {path : List Nat} {d w : Weight} (h : Walk g source u path d)
    (hw : g.findEdgeWeight u v = some w) : Walk g source v (path ++ [v]) (d + w)

namespace Walk

variable {g : Graph n} {source v : Nat} {path : List Nat} {d : Weight} (h : g.Walk source v path d)
include h

theorem lt : v < n := by
  cases h with
  | start h => exact h
  | extend _ hw => exact (lt_of_findEdgeWeight hw).2

theorem source_lt : source < n := by
  induction h with
  | start h => exact h
  | extend _ _ ih => exact ih

theorem head?_eq : path.head? = some source := by
  induction h with
  | start => rfl
  | extend _ _ ih => rw [List.head?_append, ih, Option.some_or]

theorem getLast?_eq : path.getLast? = some v := by
  cases h with
  | start => rfl
  | extend => exact List.getLast?_concat

/-- Each vertex of a walk has an edge to the next one. -/
theorem isChain : path.IsChain fun u v => g.hasEdge u v = true := by
  induction h with
  | start => exact .singleton _
  | extend h hw ih =>
    rw [List.isChain_append]
    refine ⟨ih, .singleton _, ?_⟩
    intro x hx y hy
    rw [h.getLast?_eq] at hx
    cases hx
    cases hy
    rw [hasEdge_eq, hw]
    rfl

end Walk

end WeightedGraph.Graph
