import WeightedGraph.Proofs.Graph.Edit
import WeightedGraph.Proofs.Graph.Traversal

/-!
# Pairs of vertices with an edge

The pairs of vertices from the first of which an edge leads to the second (`Graph.pairs`).  A cursor over all edges
meets each of them once, so counting edges is counting pairs (`countP_edges`).  The edges that a graph counts are the
keys of the pairs: all pairs if edges have a direction (`card_pairs_directed`), and otherwise as many as there are pairs
in one order; the pairs in either order and once more the loops make that number twice (`card_pairs_undirected`).
-/

namespace WeightedGraph.Graph

open scoped Finset

variable {n : Nat} {g : Graph n} {m : EdgeMap}

/-- The pairs of vertices with an edge from the first to the second. -/
def pairs (g : Graph n) : Finset (Fin n × Fin n) := {q | g.adjacency.contains q.1 q.2 = true}

/-- The pairs of a vertex with itself that have an edge. -/
def loops (g : Graph n) : Finset (Fin n × Fin n) := {q ∈ g.pairs | q.1 = q.2}

theorem mem_pairs_iff {u v : Fin n} : (u, v) ∈ g.pairs ↔ g.adjacency.contains u v = true := by
  rw [pairs, Finset.mem_filter_univ]

theorem mem_pairs_iff_weight? {u v : Fin n} : (u, v) ∈ g.pairs ↔ (g.adjacency.weight? u v).isSome := by
  rw [mem_pairs_iff, Adjacency.contains_eq]

theorem mem_pairs_iff_hasEdge {u v : Fin n} : (u, v) ∈ g.pairs ↔ g.hasEdge u v = true := by
  rw [mem_pairs_iff_weight?, hasEdge_eq, findEdgeWeight_val]

/-! ### Edges of a cursor -/

/-- The edges from a vertex lead to different vertices. -/
theorem countP_successors (hg : g.adjacency.Distinct) (p : Fin n → Prop) [DecidablePred p] (u : Fin n) :
    (g.adjacency.successors u).countP (fun v => p v) = ∑ v, if (u, v) ∈ g.pairs ∧ p v then 1 else 0 := by
  have hnodup : ((g.adjacency.successors u).filter fun v => p v).Nodup := (hg u).filter _
  rw [List.countP_eq_length_filter, ← List.toFinset_card_of_nodup hnodup, ← Finset.card_filter]
  congr 1
  ext v
  simp [Adjacency.mem_successors_iff, mem_pairs_iff]

/-- A cursor over all edges meets each pair once. -/
theorem countP_edges (hg : g.adjacency.Distinct) (p : Nat → Nat → Prop) [DecidableRel p] :
    g.edges.toList.countP (fun e => p e.source e.target) = #{q ∈ g.pairs | p q.1 q.2} := by
  have hrow (u : Fin n) : (g.adjacency.outEdges u).countP (fun e => p e.source e.target) =
      (g.adjacency.successors u).countP fun v : Fin n => p u v := by
    rw [Adjacency.outEdges, Adjacency.successors, Row.targets, List.countP_map, List.countP_map]
    rfl
  calc g.edges.toList.countP (fun e => p e.source e.target)
      = ∑ u, (g.adjacency.successors u).countP fun v : Fin n => p u v := by
        simp only [toList_edges, List.countP_flatMap, Fin.sum_univ_def, Function.comp_def, hrow]
    _ = ∑ u : Fin n, ∑ v : Fin n, if (u, v) ∈ g.pairs ∧ p u v then 1 else 0 :=
        Finset.sum_congr rfl fun u _ => countP_successors hg (fun v => p u v) u
    _ = #{q : Fin n × Fin n | q ∈ g.pairs ∧ p q.1 q.2} := by
        rw [Finset.card_filter, Fintype.sum_prod_type]
    _ = #{q ∈ g.pairs | p q.1 q.2} := by
        rw [← Finset.filter_filter, Finset.filter_univ_mem]

theorem length_edges (hg : g.adjacency.Distinct) : g.edges.toList.length = #g.pairs := by
  have hall := countP_edges hg fun _ _ => True
  simpa using hall

theorem countP_isSelfLoop (hg : g.adjacency.Distinct) : g.edges.toList.countP Edge.isSelfLoop = #g.loops := by
  have hself : Edge.isSelfLoop = fun e => decide (e.source = e.target) := funext fun e => beq_eq_decide _ _
  rw [hself, countP_edges hg fun u v => u = v, loops]
  simp only [Fin.val_inj]

/-! ### Counted edges -/

/-- The keys of a graph are those of its pairs. -/
theorem Represents.keys_eq (hm : Represents g m) (hkeys : ∀ k ∈ m, ∃ u v : Fin n, g.kind.key u v = k) :
    m.keys = g.pairs.image fun q => g.kind.key q.1 q.2 := by
  have hstored (u v : Fin n) : (u, v) ∈ g.pairs ↔ g.kind.key u v ∈ m := by
    rw [mem_pairs_iff_weight?, hm.weight?, Finmap.lookup_isSome]
  ext k
  rw [Finmap.mem_keys, Finset.mem_image]
  constructor
  · intro hk
    obtain ⟨u, v, rfl⟩ := hkeys k hk
    exact ⟨(u, v), (hstored u v).2 hk, rfl⟩
  · rintro ⟨⟨u, v⟩, hq, rfl⟩
    exact (hstored u v).1 hq

theorem Reachable.mem_pairs_swap (h : g.Reachable) (hkind : g.kind = .undirected) {u v : Fin n} :
    (v, u) ∈ g.pairs ↔ (u, v) ∈ g.pairs := by
  obtain ⟨m, hm, -⟩ := h.represents
  rw [mem_pairs_iff_weight?, mem_pairs_iff_weight?, hm.weight?_swap hkind]

/-- Edges with a direction are counted by their pairs. -/
theorem card_pairs_directed (h : g.Reachable) (hkind : g.kind = .directed) : #g.pairs = g.edgeCount := by
  obtain ⟨m, hm, hkeys⟩ := h.represents
  rw [hm.edgeCount, hm.keys_eq hkeys, hkind, Finset.card_image_of_injective]
  rintro ⟨u, v⟩ ⟨u', v'⟩ hkey
  rw [GraphKind.directed_key_inj, Fin.val_inj, Fin.val_inj] at hkey
  exact Prod.ext hkey.1 hkey.2

/-- Edges without a direction are counted by their pairs in ascending order. -/
theorem card_ascending_pairs (h : g.Reachable) (hkind : g.kind = .undirected) :
    #{q ∈ g.pairs | q.1 ≤ q.2} = g.edgeCount := by
  obtain ⟨m, hm, hkeys⟩ := h.represents
  have himage : g.pairs.image (fun q => GraphKind.undirected.key q.1 q.2) =
      {q ∈ g.pairs | q.1 ≤ q.2}.image fun q => GraphKind.undirected.key q.1 q.2 := by
    refine Finset.Subset.antisymm (fun k hk => ?_) (Finset.image_subset_image (Finset.filter_subset _ _))
    obtain ⟨⟨u, v⟩, hq, rfl⟩ := Finset.mem_image.1 hk
    rcases le_total u v with hle | hle
    · exact Finset.mem_image.2 ⟨(u, v), Finset.mem_filter.2 ⟨hq, hle⟩, rfl⟩
    · refine Finset.mem_image.2 ⟨(v, u), Finset.mem_filter.2 ⟨(h.mem_pairs_swap hkind).2 hq, hle⟩, ?_⟩
      exact GraphKind.key_swap v u
  rw [hm.edgeCount, hm.keys_eq hkeys, hkind, himage, Finset.card_image_of_injOn]
  rintro ⟨u, v⟩ hq ⟨u', v'⟩ hq' hkey
  have hle : u ≤ v := (Finset.mem_filter.1 hq).2
  have hle' : u' ≤ v' := (Finset.mem_filter.1 hq').2
  rw [GraphKind.undirected_key_inj] at hkey
  simp only [Fin.val_inj] at hkey
  obtain ⟨rfl, rfl⟩ | ⟨rfl, rfl⟩ := hkey
  · rfl
  · -- opposite pairs that both ascend are loops
    rw [le_antisymm hle hle']

/-- Each edge without a direction has two pairs, but a loop has one. -/
theorem card_pairs_undirected (h : g.Reachable) (hkind : g.kind = .undirected) :
    #g.pairs + #g.loops = 2 * g.edgeCount := by
  have hswap : #{q ∈ g.pairs | q.2 ≤ q.1} = #{q ∈ g.pairs | q.1 ≤ q.2} := by
    refine Finset.card_nbij' Prod.swap Prod.swap ?_ ?_ (fun _ _ => rfl) fun _ _ => rfl
    all_goals
      rintro ⟨u, v⟩ hq
      rw [Finset.mem_coe, Finset.mem_filter] at hq ⊢
      exact ⟨(h.mem_pairs_swap hkind).2 hq.1, hq.2⟩
  have hboth : {q ∈ g.pairs | q.1 ≤ q.2} ∪ {q ∈ g.pairs | q.2 ≤ q.1} = g.pairs := by
    rw [← Finset.filter_or, Finset.filter_true_of_mem fun q _ => le_total q.1 q.2]
  have hloops : {q ∈ g.pairs | q.1 ≤ q.2} ∩ {q ∈ g.pairs | q.2 ≤ q.1} = g.loops := by
    rw [← Finset.filter_and, loops]
    simp only [le_antisymm_iff]
  have hcount := Finset.card_union_add_card_inter {q ∈ g.pairs | q.1 ≤ q.2} {q ∈ g.pairs | q.2 ≤ q.1}
  rw [hboth, hloops, hswap, card_ascending_pairs h hkind] at hcount
  omega

end WeightedGraph.Graph
