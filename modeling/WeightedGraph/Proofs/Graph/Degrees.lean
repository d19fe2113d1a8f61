import WeightedGraph.Proofs.Graph.Pairs

/-!
# Degrees

What the degrees of a graph count.  An adjacency answers from one row for the edges that leave a vertex
(`Adjacency.outDegree_eq`) and from all rows for those that arrive (`Adjacency.inDegree_eq`); a graph without directions
answers the second question from one row as well, since the edges that arrive are the mirror images of those that leave
(`Reachable.outDegree_eq_arriving`).  So both degrees count edges of the cursor over all edges, and over all vertices
they count each of them once.  The number of these edges is the edge count of a graph with directions, and twice the
edge count less the number of loops of one without (`degrees_account`).
-/

namespace WeightedGraph

open scoped Finset

variable {n : Nat}

theorem card_eq_countP_finRange (p : Fin n → Bool) : #{v | p v = true} = (List.finRange n).countP p := by
  have hnodup : ((List.finRange n).filter p).Nodup := (List.nodup_finRange n).filter p
  rw [List.countP_eq_length_filter, ← List.toFinset_card_of_nodup hnodup, List.toFinset_filter,
    List.toFinset_finRange]

/-! ### Degrees of an adjacency -/

namespace Adjacency

variable {a : Adjacency n}

theorem outDegree_eq (h : a.Distinct) (u : Fin n) : a.outDegree u = #{v | a.contains u v = true} := by
  cases a with
  | rows a =>
    have hrow : (a.records u).targets.Nodup := h u
    calc (a.records u).length
        = #(a.records u).targets.toFinset := by
          rw [List.toFinset_card_of_nodup hrow, Row.targets, List.length_map]
      _ = #{v | a.contains u v = true} := by
          congr 1
          ext v
          rw [List.mem_toFinset, ← Row.leadsTo_eq_true_iff, Finset.mem_filter]
          exact (and_iff_right (Finset.mem_univ v)).symm
  | grid a =>
    show (a.row u).count true = #{v | a.contains u v = true}
    rw [card_eq_countP_finRange, Grid.row, ← Vector.count_toList, Vector.toList_ofFn, List.ofFn_eq_map, List.count,
      List.countP_map]
    congr 1
    funext v
    exact beq_true _

theorem inDegree_eq (h : a.Distinct) (v : Fin n) : a.inDegree v = #{u | a.contains u v = true} := by
  cases a with
  | rows a =>
    have hrow (u : Fin n) : (a.records u).countP (fun r => r.target = v) = if a.contains u v then 1 else 0 := by
      have hnodup : (a.records u).targets.Nodup := h u
      have hcount : (a.records u).countP (fun r => r.target = v) = (a.records u).targets.count v := by
        rw [Row.targets, List.count, List.countP_map]
        congr 1
      rw [hcount, hnodup.count]
      simp only [← Row.leadsTo_eq_true_iff]
      rfl
    have hrows : a.rows.toList = (List.finRange n).map a.records := by
      rw [← List.ofFn_eq_map, ← Vector.toList_ofFn]
      exact congrArg Vector.toList (Vector.ofFn_getElem).symm
    show a.rows.toList.flatten.countP (fun r => r.target = v) = #{u | a.contains u v = true}
    rw [List.countP_flatten, hrows, List.map_map, Finset.card_filter, Fin.sum_univ_def]
    congr 1
    exact List.map_congr_left fun u _ => hrow u
  | grid a => exact (card_eq_countP_finRange fun u => a.contains u v).symm

end Adjacency

/-! ### Degrees of a graph -/

namespace Graph

variable {g : Graph n}

theorem card_leaving (v : Fin n) : #{q ∈ g.pairs | q.1.val = v.val} = #{w | g.adjacency.contains v w = true} := by
  have hpairs : {q ∈ g.pairs | q.1.val = v.val} =
      ({w | g.adjacency.contains v w = true} : Finset (Fin n)).image fun w => (v, w) := by
    ext ⟨u, w⟩
    simp only [Finset.mem_filter, Finset.mem_univ, true_and, mem_pairs_iff, Fin.val_inj, Finset.mem_image,
      Prod.mk.injEq]
    constructor
    · rintro ⟨hw, rfl⟩
      exact ⟨w, hw, rfl, rfl⟩
    · rintro ⟨_, hw, rfl, rfl⟩
      exact ⟨hw, rfl⟩
  rw [hpairs, Finset.card_image_of_injective _ (Prod.mk_right_injective v)]

theorem card_arriving (v : Fin n) : #{q ∈ g.pairs | q.2.val = v.val} = #{u | g.adjacency.contains u v = true} := by
  have hpairs : {q ∈ g.pairs | q.2.val = v.val} =
      ({u | g.adjacency.contains u v = true} : Finset (Fin n)).image fun u => (u, v) := by
    ext ⟨u, w⟩
    simp only [Finset.mem_filter, Finset.mem_univ, true_and, mem_pairs_iff, Fin.val_inj, Finset.mem_image,
      Prod.mk.injEq]
    constructor
    · rintro ⟨hu, rfl⟩
      exact ⟨u, hu, rfl, rfl⟩
    · rintro ⟨_, hu, rfl, rfl⟩
      exact ⟨hu, rfl⟩
  rw [hpairs, Finset.card_image_of_injective _ (Prod.mk_left_injective v)]

/-- Without directions as many edges leave a vertex as arrive. -/
theorem Reachable.outDegree_eq_arriving (h : g.Reachable) (hkind : g.kind = .undirected) (v : Fin n) :
    g.adjacency.outDegree v = #{u | g.adjacency.contains u v = true} := by
  rw [Adjacency.outDegree_eq h.distinct]
  congr 1
  ext u
  rw [Finset.mem_filter_univ, Finset.mem_filter_univ, ← mem_pairs_iff, ← mem_pairs_iff, h.mem_pairs_swap hkind]

theorem Reachable.degree_eq (h : g.Reachable) {v : Nat} (hv : v < n) :
    g.degree v = .ok #{q ∈ g.pairs | q.1.val = v} := by
  rw [degree, checkVertex_of_lt hv, card_leaving ⟨v, hv⟩, ← Adjacency.outDegree_eq h.distinct]
  rfl

theorem Reachable.inDegree_eq (h : g.Reachable) {v : Nat} (hv : v < n) :
    g.inDegree v = .ok #{q ∈ g.pairs | q.2.val = v} := by
  rw [inDegree, checkVertex_of_lt hv, card_arriving ⟨v, hv⟩, isDirected]
  cases hkind : g.kind with
  | directed => exact congrArg Except.ok (Adjacency.inDegree_eq h.distinct _)
  | undirected => exact congrArg Except.ok (h.outDegree_eq_arriving hkind _)

private theorem mapM_eq_ok {f : Nat → Except GraphError Nat} {c : Nat → Nat} {l : List Nat}
    (h : ∀ v ∈ l, f v = .ok (c v)) : l.mapM f = .ok (l.map c) := by
  induction l with
  | nil => rfl
  | cons v l ih =>
    rw [List.forall_mem_cons] at h
    rw [List.mapM_cons, h.1, ih h.2]
    rfl

/-- Counts for all vertices have a sum. -/
theorem sum_mapM_range {f : Nat → Except GraphError Nat} {c : Nat → Nat} (h : ∀ v < n, f v = .ok (c v)) :
    List.sum <$> (List.range n).mapM f = .ok (∑ v ∈ Finset.range n, c v) := by
  rw [mapM_eq_ok fun v hv => h v (List.mem_range.1 hv), ← List.toFinset_range, List.sum_toFinset _ List.nodup_range]
  rfl

/-- Degrees count the edges of the cursor over all edges that leave a vertex or arrive, and over all vertices either
kind adds up to the number of these edges. -/
theorem degrees_account (h : g.Reachable) :
    (∀ v < n,
      g.degree v = .ok (g.edges.toList.countP fun e : Edge => e.source = v) ∧
      g.inDegree v = .ok (g.edges.toList.countP fun e : Edge => e.target = v)) ∧
    List.sum <$> (List.range n).mapM g.degree = .ok g.edges.toList.length ∧
    List.sum <$> (List.range n).mapM g.inDegree = .ok g.edges.toList.length ∧
    (g.kind = .directed → g.edges.toList.length = g.edgeCount) ∧
    (g.kind = .undirected →
      g.edges.toList.length + g.edges.toList.countP Edge.isSelfLoop = 2 * g.edgeCount) := by
  have hg : g.adjacency.Distinct := h.distinct
  refine ⟨fun v hv => ⟨?_, ?_⟩, ?_, ?_, fun hkind => ?_, fun hkind => ?_⟩
  · rw [h.degree_eq hv, countP_edges hg fun u _ => u = v]
  · rw [h.inDegree_eq hv, countP_edges hg fun _ w => w = v]
  · have hsource : Set.MapsTo (fun q : Fin n × Fin n => q.1.val) g.pairs (Finset.range n) :=
      fun q _ => Finset.mem_coe.2 (Finset.mem_range.2 q.1.isLt)
    rw [sum_mapM_range fun v hv => h.degree_eq hv, length_edges hg, Finset.card_eq_sum_card_fiberwise hsource]
  · have htarget : Set.MapsTo (fun q : Fin n × Fin n => q.2.val) g.pairs (Finset.range n) :=
      fun q _ => Finset.mem_coe.2 (Finset.mem_range.2 q.2.isLt)
    rw [sum_mapM_range fun v hv => h.inDegree_eq hv, length_edges hg, Finset.card_eq_sum_card_fiberwise htarget]
  · rw [length_edges hg, card_pairs_directed h hkind]
  · rw [length_edges hg, countP_isSelfLoop hg, card_pairs_undirected h hkind]

/-- An edge without a direction is met twice and a loop once. -/
theorem degrees_account_loop :
    let g : Graph 3 := ((⟨.undirected, .rows (.empty 3), 0⟩ : Graph 3).addEdge 2 0 2.5).2.addEdge 1 1 1.0 |>.2
    g.degree 1 = .ok 1 ∧ g.inDegree 0 = .ok 1 ∧ List.sum <$> (List.range 3).mapM g.degree = .ok 3 ∧
      List.sum <$> (List.range 3).mapM g.inDegree = .ok 3 ∧ 3 + g.edges.toList.countP Edge.isSelfLoop = 2 * 2 := by
  intro g
  have hnew : (create 3 .undirected .adjacencyList).result = .ok ⟨.undirected, .rows (.empty 3), 0⟩ := rfl
  have hg : g.Reachable := ((Reachable.create hnew).addEdge 2 0 2.5).addEdge 1 1 1.0
  obtain ⟨hvertices, hout, hinto, -, hundirected⟩ := degrees_account hg
  rw [toList_edges] at hvertices hout hinto hundirected
  rw [toList_edges]
  exact ⟨(hvertices 1 (by decide)).1, (hvertices 0 (by decide)).2, hout, hinto, hundirected rfl⟩

end Graph

end WeightedGraph
