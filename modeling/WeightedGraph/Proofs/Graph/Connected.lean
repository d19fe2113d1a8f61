import WeightedGraph.Proofs.Graph.CopyOrder
import WeightedGraph.Proofs.Graph.SameEdges

/-!
# Connected graphs

A graph is connected from a vertex if walks lead from there to all vertices.  A breadth-first search visits each vertex
that a walk leads to once, so it visits all vertices if it visits as many as there are (`isConnectedFrom_iff`).  In an
undirected graph a walk can be walked back (`Reachable.exists_walk_swap`): it is connected from all vertices or from
none, and a search from `u` visits `v` if and only if one from `v` visits `u`.  So searches from two vertices visit the
same vertices or have none in common (`Reachable.isPartition_breadthFirstList`).
-/

namespace WeightedGraph.Graph

variable {n : Nat} {g : Graph n} {u v w : Nat}

/-! ### Walks there and back -/

/-- Walks lead from a vertex to those that are related to it by edges, one after the other. -/
theorem exists_walk_iff_reflTransGen (hu : u < n) :
    (∃ path d, g.Walk u v path d) ↔ Relation.ReflTransGen (fun u v => g.hasEdge u v = true) u v := by
  constructor
  · rintro ⟨path, d, hwalk⟩
    induction hwalk with
    | start => exact .refl
    | extend _ hw ih => exact ih.tail (by rw [hasEdge_eq, hw, Option.isSome_some])
  · intro h
    induction h with
    | refl => exact ⟨_, _, .start hu⟩
    | tail _ hedge ih =>
      obtain ⟨path, d, hwalk⟩ := ih
      rw [hasEdge_eq, Option.isSome_iff_exists] at hedge
      obtain ⟨w, hw⟩ := hedge
      exact ⟨_, _, hwalk.extend hw⟩

theorem exists_walk_trans (hu : ∃ path d, g.Walk u v path d) (hv : ∃ path d, g.Walk v w path d) :
    ∃ path d, g.Walk u w path d := by
  obtain ⟨path, d, hwalk⟩ := hu
  have hlt : u < n := hwalk.source_lt
  rw [exists_walk_iff_reflTransGen hlt]
  exact ((exists_walk_iff_reflTransGen hlt).1 ⟨path, d, hwalk⟩).trans ((exists_walk_iff_reflTransGen hwalk.lt).1 hv)

/-- In an undirected graph a walk can be walked back. -/
theorem Reachable.exists_walk_swap (hg : g.Reachable) (hkind : g.kind = .undirected)
    (h : ∃ path d, g.Walk u v path d) : ∃ path d, g.Walk v u path d := by
  obtain ⟨path, d, hwalk⟩ := h
  have hswap : Std.Symm fun u v => g.hasEdge u v = true := ⟨fun u v huv => (hg.hasEdge_swap hkind v u).trans huv⟩
  rw [exists_walk_iff_reflTransGen hwalk.lt]
  exact Relation.ReflTransGen.stdSymm.symm _ _ ((exists_walk_iff_reflTransGen hwalk.source_lt).1 ⟨path, d, hwalk⟩)

/-- Vertices of an undirected graph with walks between them. -/
def connected (hg : g.Reachable) (hkind : g.kind = .undirected) : Setoid (Fin n) where
  r u v := ∃ path d, g.Walk u v path d
  iseqv := {
    refl u := ⟨_, _, .start u.isLt⟩
    symm h := hg.exists_walk_swap hkind h
    trans h h' := exists_walk_trans h h' }

/-! ### Searches from all vertices -/

theorem lt_of_mem_breadthFirstList {start : Fin n} (h : v ∈ g.breadthFirstList start) : v < n := by
  obtain ⟨path, d, hwalk⟩ := mem_breadthFirstList_iff.1 h
  exact hwalk.lt

/-- A search visits as many vertices as there are if and only if it visits all of them. -/
theorem length_breadthFirstList_eq_iff {start : Fin n} :
    (g.breadthFirstList start).length = n ↔ ∀ v < n, v ∈ g.breadthFirstList start := by
  have hcard : (g.breadthFirstList start).length =
      (BreadthFirst.order g.adjacency.successors start).toFinset.card := by
    rw [breadthFirstList, List.length_map, List.toFinset_card_of_nodup (BreadthFirst.nodup_order ..)]
  have hall := Finset.card_eq_iff_eq_univ (BreadthFirst.order g.adjacency.successors start).toFinset
  rw [Fintype.card_fin] at hall
  rw [hcard, hall, Finset.eq_univ_iff_forall, Fin.forall_iff]
  refine forall₂_congr fun v hv => ?_
  rw [List.mem_toFinset, breadthFirstList]
  exact (List.mem_map_of_injective Fin.val_injective).symm

theorem isConnectedFrom_iff {start : Nat} (hs : start < n) :
    ∃ b, (g.isConnectedFrom start).result = .ok b ∧ (b = true ↔ ∀ v < n, ∃ path d, g.Walk start v path d) := by
  lift start to Fin n using hs
  refine ⟨_, g.isConnectedFrom_eq start, ?_⟩
  simp only [beq_iff_eq, length_breadthFirstList_eq_iff, mem_breadthFirstList_iff]

section

variable (hg : g.Reachable) (hkind : g.kind = .undirected) {u v : Fin n}
include hg hkind

theorem Reachable.mem_breadthFirstList_swap :
    v.val ∈ g.breadthFirstList u ↔ u.val ∈ g.breadthFirstList v := by
  rw [mem_breadthFirstList_iff, mem_breadthFirstList_iff]
  exact ⟨hg.exists_walk_swap hkind, hg.exists_walk_swap hkind⟩

/-- A search from a vertex that another one visits visits the same vertices. -/
theorem Reachable.perm_breadthFirstList (h : v.val ∈ g.breadthFirstList u) :
    (g.breadthFirstList u).Perm (g.breadthFirstList v) := by
  rw [List.perm_ext_iff_of_nodup (g.nodup_breadthFirstList u) (g.nodup_breadthFirstList v)]
  rw [mem_breadthFirstList_iff] at h
  intro w
  rw [mem_breadthFirstList_iff, mem_breadthFirstList_iff]
  exact ⟨exists_walk_trans (hg.exists_walk_swap hkind h), exists_walk_trans h⟩

theorem Reachable.isPartition_breadthFirstList :
    Setoid.IsPartition (Set.range fun u : Fin n => {v : Fin n | v.val ∈ g.breadthFirstList u}) := by
  have hclasses : (Set.range fun u : Fin n => {v : Fin n | v.val ∈ g.breadthFirstList u}) =
      (connected hg hkind).classes := by
    ext reached
    simp only [Set.mem_range, Setoid.classes, Set.mem_ofPred_eq, eq_comm (b := reached)]
    refine exists_congr fun u => ?_
    have hsame : {v : Fin n | v.val ∈ g.breadthFirstList u} = {v | connected hg hkind v u} :=
      Set.ext fun v => (hg.mem_breadthFirstList_swap hkind).trans mem_breadthFirstList_iff
    rw [hsame]
  rw [hclasses]
  exact Setoid.isPartition_classes _

/-- Whether an undirected graph is connected does not depend on where the search starts. -/
theorem Reachable.isConnectedFrom_eq_of_undirected :
    (g.isConnectedFrom u).result = (g.isConnectedFrom v).result := by
  rw [isConnectedFrom_eq, isConnectedFrom_eq]
  have hconnected {u v : Fin n} (hu : (g.breadthFirstList u).length = n) : (g.breadthFirstList v).length = n := by
    have hv := length_breadthFirstList_eq_iff.1 hu v v.isLt
    rw [← (hg.perm_breadthFirstList hkind hv).length_eq, hu]
  have hiff : (g.breadthFirstList u).length = n ↔ (g.breadthFirstList v).length = n := ⟨hconnected, hconnected⟩
  rw [beq_eq_decide, beq_eq_decide, decide_eq_decide.2 hiff]

end

/-- A graph is connected from a vertex if and only if walks lead from there to all vertices, and in an undirected graph
what is visited from the vertices partitions them. -/
theorem isConnectedFrom_partitions (hg : g.Reachable) :
    (∀ start < n, ∃ b, (g.isConnectedFrom start).result = .ok b ∧
      (b = true ↔ ∀ v < n, ∃ path d, g.Walk start v path d)) ∧
    (g.kind = .undirected →
      (∃ b, ∀ start < n, (g.isConnectedFrom start).result = .ok b) ∧
      ∃ order : Fin n → List Nat,
        (∀ u : Fin n, (g.breadthFirstOrder u).result = .ok (order u).toArray) ∧
        (∀ u : Fin n, ∀ v ∈ order u, v < n) ∧
        (∀ u v : Fin n, (v.val ∈ order u ↔ u.val ∈ order v) ∧ (v.val ∈ order u → (order u).Perm (order v))) ∧
        Setoid.IsPartition (Set.range fun u : Fin n => {v : Fin n | v.val ∈ order u})) := by
  refine ⟨fun start hs => isConnectedFrom_iff hs, fun hkind => ⟨?_, ?_⟩⟩
  · obtain ⟨b, hb, -⟩ := isConnectedFrom_iff (g := g) hg.vertexCount_pos
    refine ⟨b, fun start hs => ?_⟩
    rw [← hb]
    exact hg.isConnectedFrom_eq_of_undirected hkind (u := ⟨start, hs⟩) (v := ⟨0, hg.vertexCount_pos⟩)
  · refine ⟨g.breadthFirstList, g.breadthFirstOrder_eq, fun u v => lt_of_mem_breadthFirstList, fun u v => ⟨?_, ?_⟩, ?_⟩
    · exact hg.mem_breadthFirstList_swap hkind
    · exact hg.perm_breadthFirstList hkind
    · exact hg.isPartition_breadthFirstList hkind

/-- A search visits one of two pairs without an edge between them, whichever vertex of the pair it starts from. -/
theorem isConnectedFrom_partitions_pairs :
    let g : Graph 4 := ((⟨.undirected, .grid (.empty 4), 0⟩ : Graph 4).addEdge 1 0 1.5).2.addEdge 2 3 2.5 |>.2
    (∀ start < 4, (g.isConnectedFrom start).result = .ok false) ∧
      ∃ order : Fin 4 → List Nat, order 0 = [0, 1] ∧ (g.breadthFirstOrder 1).result = .ok (order 1).toArray ∧
        (order 0).Perm (order 1) := by
  intro g
  have hnew : (create 4 .undirected .adjacencyMatrix).result = .ok ⟨.undirected, .grid (.empty 4), 0⟩ := rfl
  have hg : g.Reachable := ((Reachable.create hnew).addEdge 1 0 1.5).addEdge 2 3 2.5
  have hsuccessors : g.adjacency.successors = ![[1], [0], [3], [2]] := by
    funext u
    revert u
    decide
  have hfirst : g.breadthFirstList 0 = [0, 1] := by
    rw [breadthFirstList, hsuccessors]
    cbv
  obtain ⟨⟨b, hb⟩, order, horder, -, hswap, -⟩ := (isConnectedFrom_partitions hg).2 rfl
  have hzero : order 0 = [0, 1] := by
    have hsame := (horder 0).symm.trans (g.breadthFirstOrder_eq 0)
    rw [hfirst] at hsame
    simpa using hsame
  refine ⟨fun start hs => ?_, order, hzero, horder 1, (hswap 0 1).2 (by simp [hzero])⟩
  have hnot : (g.isConnectedFrom 0).result = .ok false := by
    rw [show 0 = (0 : Fin 4).val from rfl, isConnectedFrom_eq, hfirst]
    rfl
  rw [hb start hs, ← hb 0 (by decide), hnot]

end WeightedGraph.Graph
