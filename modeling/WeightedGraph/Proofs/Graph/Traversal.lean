import WeightedGraph.Graph.Cursor
import WeightedGraph.Graph.Search
import WeightedGraph.Proofs.BreadthFirst.Order
import WeightedGraph.Proofs.DepthFirst.Recursive
import WeightedGraph.Proofs.Graph.Walk

/-!
# Traversals of a graph

Both traversals of a graph visit exactly the vertices that walks lead to, each once and the start first
(`traversals_visit_reachable`).  The depth-first one visits them in the order of a search by recursion that takes
the neighbours of each vertex from the last to the first (`depthFirstOrder_eq_recursive`).
-/

namespace WeightedGraph

theorem Adjacency.mem_successors_iff {n : Nat} {a : Adjacency n} {u v : Fin n} :
    v ∈ a.successors u ↔ a.contains u v = true := by
  cases a with
  | rows a => exact Row.leadsTo_eq_true_iff.symm
  | grid a =>
    show v ∈ (a.records u).targets ↔ a.contains u v = true
    rw [Grid.targets_records, List.mem_filter]
    exact and_iff_right (List.mem_finRange v)

namespace Graph

variable {n : Nat} {g : Graph n}

theorem mem_successors_iff {u v : Fin n} : v ∈ g.adjacency.successors u ↔ ∃ w, g.findEdgeWeight u v = some w := by
  rw [Adjacency.mem_successors_iff, Adjacency.contains_eq, Option.isSome_iff_exists, findEdgeWeight_val]

/-- Walks of `k` edges are ways over `k` successors. -/
theorem exists_walk_iff_hops {start v : Fin n} {k : Nat} :
    (∃ path d, g.Walk start v path d ∧ path.length = k + 1) ↔ Hops g.adjacency.successors start k v := by
  constructor
  · rintro ⟨path, d, hwalk, hlength⟩
    generalize hx : v.val = x at hwalk
    induction hwalk generalizing v k with
    | start _ =>
      obtain rfl : v = start := Fin.ext hx
      obtain rfl : k = 0 := by simpa using hlength.symm
      exact .start
    | @extend u y path d w hwalk hw ih =>
      subst hx
      obtain ⟨u, rfl⟩ : ∃ u' : Fin n, u'.val = u := ⟨⟨u, hwalk.lt⟩, rfl⟩
      cases k with
      | zero =>
        have hhead := hwalk.head?_eq
        rw [List.length_append, List.length_singleton, Nat.add_right_cancel_iff, List.length_eq_zero_iff] at hlength
        simp [hlength] at hhead
      | succ k =>
        have hk : path.length = k + 1 := by simpa using hlength
        exact .hop (ih hk rfl) (mem_successors_iff.2 ⟨w, hw⟩)
  · intro h
    induction h with
    | start => exact ⟨_, _, .start start.isLt, rfl⟩
    | @hop k u v _ hv ih =>
      obtain ⟨path, d, hwalk, hlength⟩ := ih
      obtain ⟨w, hw⟩ := mem_successors_iff.1 hv
      exact ⟨_, _, hwalk.extend hw, by rw [List.length_append, hlength, List.length_singleton]⟩

theorem exists_walk_iff {start : Fin n} {v : Nat} :
    (∃ path d, g.Walk start v path d) ↔ ∃ x : Fin n, x.val = v ∧ ∃ k, Hops g.adjacency.successors start k x := by
  constructor
  · rintro ⟨path, d, hwalk⟩
    obtain ⟨x, rfl⟩ : ∃ x : Fin n, x.val = v := ⟨⟨v, hwalk.lt⟩, rfl⟩
    have hpos : path ≠ [] := by
      rintro rfl
      have hhead := hwalk.head?_eq
      contradiction
    have hlength : path.length = path.length - 1 + 1 := by
      have := List.length_pos_iff.2 hpos
      omega
    exact ⟨x, rfl, _, exists_walk_iff_hops.1 ⟨path, d, hwalk, hlength⟩⟩
  · rintro ⟨x, rfl, k, hk⟩
    obtain ⟨path, d, hwalk, -⟩ := exists_walk_iff_hops.2 hk
    exact ⟨path, d, hwalk⟩

/-- The vertices of a breadth-first search from a vertex of a graph, in order. -/
def breadthFirstList (g : Graph n) (start : Fin n) : List Nat :=
  (BreadthFirst.order g.adjacency.successors start).map Fin.val

/-- The vertices of a depth-first search from a vertex of a graph, in order. -/
def depthFirstList (g : Graph n) (start : Fin n) : List Nat :=
  (DepthFirst.order g.adjacency.successors start).map Fin.val

theorem visitBreadthFirst_eq {β : Type} (g : Graph n) (start : Fin n) (visit : β → Nat → β) (value : β) :
    g.visitBreadthFirst start visit value =
      (.report () (.breadthFirstFinished start (g.breadthFirstList start).length),
        (g.breadthFirstList start).foldl visit value) := by
  unfold visitBreadthFirst breadthFirstList
  rw [checkVertex_of_lt start.isLt]
  simp only [BreadthFirst.value_run, BreadthFirst.visited_run, List.foldl_map, List.length_map]

theorem visitDepthFirst_eq {β : Type} (g : Graph n) (start : Fin n) (visit : β → Nat → β) (value : β) :
    g.visitDepthFirst start visit value =
      (.report () (.depthFirstFinished start (g.depthFirstList start).length),
        (g.depthFirstList start).foldl visit value) := by
  unfold visitDepthFirst depthFirstList
  rw [checkVertex_of_lt start.isLt]
  simp only [DepthFirst.value_run, DepthFirst.visited_run, List.foldl_map, List.length_map]

theorem foldBreadthFirst_eq {β : Type} (g : Graph n) (start : Fin n) (visit : β → Nat → β) (value : β) :
    g.foldBreadthFirst start visit value =
      .report ((g.breadthFirstList start).foldl visit value)
        (.breadthFirstFinished start (g.breadthFirstList start).length) := by
  rw [foldBreadthFirst, visitBreadthFirst_eq]
  rfl

theorem foldDepthFirst_eq {β : Type} (g : Graph n) (start : Fin n) (visit : β → Nat → β) (value : β) :
    g.foldDepthFirst start visit value =
      .report ((g.depthFirstList start).foldl visit value)
        (.depthFirstFinished start (g.depthFirstList start).length) := by
  rw [foldDepthFirst, visitDepthFirst_eq]
  rfl

theorem breadthFirstOrder_eq (g : Graph n) (start : Fin n) :
    (g.breadthFirstOrder start).result = .ok (g.breadthFirstList start).toArray := by
  unfold breadthFirstOrder
  rw [foldBreadthFirst_eq]
  simp [Outcome.report]

theorem depthFirstOrder_eq (g : Graph n) (start : Fin n) :
    (g.depthFirstOrder start).result = .ok (g.depthFirstList start).toArray := by
  unfold depthFirstOrder
  rw [foldDepthFirst_eq]
  simp [Outcome.report]

theorem mem_breadthFirstList_iff {start : Fin n} {v : Nat} :
    v ∈ g.breadthFirstList start ↔ ∃ path d, g.Walk start v path d := by
  rw [exists_walk_iff, breadthFirstList, List.mem_map]
  simp only [BreadthFirst.mem_order_iff, and_comm]

theorem mem_depthFirstList_iff {start : Fin n} {v : Nat} :
    v ∈ g.depthFirstList start ↔ ∃ path d, g.Walk start v path d := by
  rw [exists_walk_iff, depthFirstList, List.mem_map]
  simp only [DepthFirst.mem_order_iff, and_comm]

theorem nodup_breadthFirstList (g : Graph n) (start : Fin n) : (g.breadthFirstList start).Nodup :=
  (BreadthFirst.nodup_order ..).map Fin.val_injective

theorem nodup_depthFirstList (g : Graph n) (start : Fin n) : (g.depthFirstList start).Nodup :=
  (DepthFirst.nodup_order ..).map Fin.val_injective

/-- Both traversals end and visit the vertices that walks lead to, each once and the start first. -/
theorem traversals_visit_reachable (g : Graph n) {start : Nat} (hs : start < n) :
    ∃ breadth depth : List Nat,
      (∀ (β : Type) (visit : β → Nat → β) (value : β),
        g.foldBreadthFirst start visit value =
            .report (breadth.foldl visit value) (.breadthFirstFinished start breadth.length) ∧
          g.foldDepthFirst start visit value =
            .report (depth.foldl visit value) (.depthFirstFinished start depth.length)) ∧
      (g.breadthFirstOrder start).result = .ok breadth.toArray ∧
      (g.depthFirstOrder start).result = .ok depth.toArray ∧
      (breadth.head? = some start ∧ breadth.Nodup ∧ ∀ v, v ∈ breadth ↔ ∃ path d, g.Walk start v path d) ∧
      (depth.head? = some start ∧ depth.Nodup ∧ ∀ v, v ∈ depth ↔ ∃ path d, g.Walk start v path d) ∧
      breadth.Perm depth := by
  lift start to Fin n using hs
  have hbreadth : (g.breadthFirstList start).head? = some start.val := by
    rw [breadthFirstList, List.head?_map, BreadthFirst.head?_order]
    rfl
  have hdepth : (g.depthFirstList start).head? = some start.val := by
    rw [depthFirstList, List.head?_map, DepthFirst.head?_order]
    rfl
  have hperm : (g.breadthFirstList start).Perm (g.depthFirstList start) := by
    rw [List.perm_ext_iff_of_nodup (g.nodup_breadthFirstList start) (g.nodup_depthFirstList start)]
    intro v
    rw [mem_breadthFirstList_iff, mem_depthFirstList_iff]
  refine ⟨g.breadthFirstList start, g.depthFirstList start, fun β visit value => ?_, ?_, ?_, ?_, ?_, hperm⟩
  · exact ⟨g.foldBreadthFirst_eq start visit value, g.foldDepthFirst_eq start visit value⟩
  · exact g.breadthFirstOrder_eq start
  · exact g.depthFirstOrder_eq start
  · exact ⟨hbreadth, g.nodup_breadthFirstList start, fun v => mem_breadthFirstList_iff⟩
  · exact ⟨hdepth, g.nodup_depthFirstList start, fun v => mem_depthFirstList_iff⟩

/-- Around a circle with a loop both traversals come to the vertex before the start. -/
theorem traversals_visit_reachable_circle :
    let g : Graph 3 := ((((⟨.directed, .grid (.empty 3), 0⟩ : Graph 3).addEdge 0 1 1.0).2.addEdge 1 2 1.0).2.addEdge
      2 0 1.0).2.addEdge 1 1 1.0 |>.2
    ∃ breadth depth : List Nat, (g.breadthFirstOrder 1).result = .ok breadth.toArray ∧
      (g.depthFirstOrder 1).result = .ok depth.toArray ∧ 0 ∈ breadth ∧ 0 ∈ depth := by
  intro g
  have hstart : 1 < 3 := by decide
  obtain ⟨breadth, depth, -, hbreadth, hdepth, ⟨-, -, hb⟩, ⟨-, -, hd⟩, -⟩ :=
    traversals_visit_reachable g hstart
  have hfirst : g.findEdgeWeight 1 2 = some 1.0 := by decide
  have hsecond : g.findEdgeWeight 2 0 = some 1.0 := by decide
  have hwalk : g.Walk 1 0 [1, 2, 0] _ := ((Walk.start hstart).extend hfirst).extend hsecond
  exact ⟨breadth, depth, hbreadth, hdepth, (hb 0).2 ⟨_, _, hwalk⟩, (hd 0).2 ⟨_, _, hwalk⟩⟩

/-- The depth-first order is that of a search by recursion which visits a vertex, unless it has been visited, and then
its neighbours from the last to the first. -/
theorem depthFirstOrder_eq_recursive (g : Graph n) {start : Nat} (hs : start < n) :
    (g.depthFirstOrder start).result =
        .ok ((DepthFirst.recursive g.adjacency.successors ⟨start, hs⟩).map Fin.val).toArray ∧
      ∀ u : Fin n, ∃ c, g.neighbors u = .ok c ∧
        c.toList.map Edge.target = (g.adjacency.successors u).map Fin.val := by
  constructor
  · rw [← DepthFirst.order_eq_recursive]
    exact g.depthFirstOrder_eq ⟨start, hs⟩
  · intro u
    refine ⟨g.outEdges u, ?_, ?_⟩
    · rw [neighbors, checkVertex_of_lt u.isLt]
      rfl
    · rw [toList_outEdges, Adjacency.outEdges, Adjacency.successors, Row.targets, List.map_map, List.map_map]
      rfl

/-- A vertex that waits on the stack twice is visited when it is met for the second time. -/
theorem depthFirstOrder_eq_recursive_detour :
    let g : Graph 3 := (((⟨.directed, .rows (.empty 3), 0⟩ : Graph 3).addEdge 0 1 1.0).2.addEdge 0 2 1.0).2.addEdge
      2 1 1.0 |>.2
    (g.depthFirstOrder 0).result = .ok #[0, 2, 1] := by
  intro g
  have hsuccessors : g.adjacency.successors = ![[1, 2], [], [1]] := by
    funext u
    revert u
    decide
  have horder : DepthFirst.recursive ![[1, 2], [], [1]] (0 : Fin 3) = [0, 2, 1] := by cbv
  have hstart : 0 < 3 := by decide
  rw [(depthFirstOrder_eq_recursive g hstart).1, hsuccessors, Fin.zero_eta, horder]
  rfl

end Graph

end WeightedGraph
