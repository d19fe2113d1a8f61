import WeightedGraph.Proofs.BreadthFirst.Parent
import WeightedGraph.Proofs.Graph.Neighbors
import WeightedGraph.Proofs.Graph.SameEdges

/-!
# The breadth-first order of a graph

The neighbours of the vertices, as cursors hand them out, fix the order of a breadth-first search: each vertex is found
from the earliest vertex that has an edge to it, and those that are found from one vertex come in the order of its
neighbours (`IsBreadthFirst`).  No other order has this property.  Along it the number of edges on a shortest walk to a
vertex never falls, and a vertex is one edge further away than the vertex from which it is found
(`breadthFirstOrder_determined`).
-/

namespace WeightedGraph.Graph

variable {n : Nat} {g : Graph n} {start : Fin n} {order : List (Fin n)}

/-- The earliest vertex of an order that has an edge to `v`. -/
def parent? (g : Graph n) (order : List (Fin n)) (v : Fin n) : Option (Fin n) :=
  order.find? fun u : Fin n => g.hasEdge u v

/-- The place from which `v` is found: that of its parent in the order, and that of `v` among the neighbours of its
parent. -/
def foundAt (g : Graph n) (order : List (Fin n)) (v : Fin n) : Option (Nat × Nat) := do
  let p ← g.parent? order v
  let edges ← (g.neighborList p).toOption
  return (order.idxOf p, (edges.map Edge.target).idxOf v.val)

/-- The order begins with the start and lists what can be reached, each vertex after its parent, and later vertices are
found from later places. -/
structure IsBreadthFirst (g : Graph n) (start : Fin n) (order : List (Fin n)) : Prop where
  head?_eq : order.head? = some start
  nodup : order.Nodup
  mem_iff : ∀ v, v ∈ order ↔ ∃ path d, g.Walk start v path d
  parent : ∀ v ∈ order, v ≠ start → ∃ p, g.parent? order v = some p ∧ order.idxOf p < order.idxOf v
  grows : order.tail.Pairwise fun v w =>
    ∃ a b, g.foundAt order v = some a ∧ g.foundAt order w = some b ∧ Prod.Lex (· < ·) (· < ·) a b

private theorem idxOf_map {α β : Type} [DecidableEq α] [DecidableEq β] {f : α → β} (hf : Function.Injective f)
    (l : List α) (a : α) : (l.map f).idxOf (f a) = l.idxOf a := by
  induction l with
  | nil => rfl
  | cons b l ih =>
    rw [List.map_cons]
    by_cases hb : b = a
    · rw [hb, List.idxOf_cons_self, List.idxOf_cons_self]
    · rw [List.idxOf_cons_ne _ hb, List.idxOf_cons_ne _ (hf.ne hb), ih]

theorem parent?_eq (g : Graph n) (order : List (Fin n)) (v : Fin n) :
    g.parent? order v = BreadthFirst.parent? g.adjacency.successors order v := by
  have hsame : (fun u : Fin n => g.hasEdge u v) = fun u => decide (v ∈ g.adjacency.successors u) := by
    funext u
    rw [Bool.eq_iff_iff, hasEdge_eq, decide_eq_true_iff, mem_successors_iff, Option.isSome_iff_exists]
  rw [parent?, hsame, BreadthFirst.parent?]

theorem foundAt_eq (g : Graph n) (order : List (Fin n)) (v : Fin n) :
    g.foundAt order v = BreadthFirst.foundAt g.adjacency.successors order v := by
  unfold foundAt
  rw [parent?_eq, BreadthFirst.foundAt]
  cases BreadthFirst.parent? g.adjacency.successors order v with
  | none => rfl
  | some p =>
    show ((g.neighborList p).toOption.bind fun edges => some (order.idxOf p, (edges.map Edge.target).idxOf v.val)) = _
    rw [neighborList_val]
    show some (order.idxOf p, ((g.adjacency.outEdges p).map Edge.target).idxOf v.val) = _
    rw [map_target_outEdges, targets, idxOf_map Fin.val_injective]
    rfl

/-- The graph has this property in common with what its searches see of it. -/
theorem isBreadthFirst_iff : g.IsBreadthFirst start order ↔
    BreadthFirst.Places g.adjacency.successors start order ∧
      ∀ v, v ∈ order ↔ v ∈ BreadthFirst.order g.adjacency.successors start := by
  have hreach (v : Fin n) : (∃ path d, g.Walk start v path d) ↔
      v ∈ BreadthFirst.order g.adjacency.successors start := by
    rw [exists_walk_iff, BreadthFirst.mem_order_iff]
    simp [Fin.val_inj]
  have hparent (v : Fin n) (k : Nat) :
      (∃ p, g.parent? order v = some p ∧ order.idxOf p < k) ↔
        ∃ a, BreadthFirst.foundAt g.adjacency.successors order v = some a ∧ a.1 < k := by
    rw [parent?_eq, BreadthFirst.foundAt]
    simp
  have hgrows : (order.tail.Pairwise fun v w =>
      ∃ a b, g.foundAt order v = some a ∧ g.foundAt order w = some b ∧ Prod.Lex (· < ·) (· < ·) a b) ↔
        order.tail.Pairwise (BreadthFirst.FoundBefore g.adjacency.successors order) := by
    simp only [foundAt_eq]
    rfl
  constructor
  · intro h
    exact ⟨⟨h.nodup, h.head?_eq, fun v hv hne => (hparent v _).1 (h.parent v hv hne), hgrows.1 h.grows⟩,
      fun v => (h.mem_iff v).trans (hreach v)⟩
  · rintro ⟨h, hmem⟩
    exact ⟨h.head?_eq, h.nodup, fun v => (hmem v).trans (hreach v).symm,
      fun v hv hne => (hparent v _).2 (h.parent v hv hne), hgrows.2 h.grows⟩

/-- A breadth-first order is the only one with the property of `IsBreadthFirst`, and along it the number of edges on a
shortest walk never falls. -/
theorem breadthFirstOrder_determined (g : Graph n) (start : Fin n) :
    ∃ order : List (Fin n),
      (g.breadthFirstOrder start).result = .ok (order.map Fin.val).toArray ∧
      g.IsBreadthFirst start order ∧
      (∀ other, g.IsBreadthFirst start other → other = order) ∧
      ∃ hop : Fin n → Nat, (∀ v ∈ order, g.IsHopCount start v (hop v)) ∧
        order.Pairwise (fun u v => hop u ≤ hop v) ∧
        ∀ v ∈ order, v ≠ start → ∀ p, g.parent? order v = some p → hop v = hop p + 1 := by
  have hplaces := BreadthFirst.places_order g.adjacency.successors start
  refine ⟨BreadthFirst.order g.adjacency.successors start, g.breadthFirstOrder_eq start,
    isBreadthFirst_iff.2 ⟨hplaces, fun _ => Iff.rfl⟩, fun other hother => ?_, ?_⟩
  · obtain ⟨hother, hmem⟩ := isBreadthFirst_iff.1 hother
    exact hother.unique hplaces hmem
  · obtain ⟨hop, hsorted, hleast, -⟩ := BreadthFirst.exists_hop g.adjacency.successors start
    refine ⟨hop, fun v hv => ?_, hsorted, fun v hv hne p hp => ?_⟩
    · simpa only [IsHopCount, exists_walk_iff_hops] using hleast v hv
    · exact BreadthFirst.hop_eq_of_parent? hsorted hleast hv hne (by rwa [← parent?_eq])

end WeightedGraph.Graph
