import WeightedGraph.Proofs.Graph.Traversal
import WeightedGraph.Proofs.ShortestPaths.Optimal

/-!
# Graphs with the same edges

Searches of two graphs see the neighbours of a vertex in different orders, if the graphs are stored in different
ways or have come to be in different ways.  Walks depend on the edges alone (`Walk.of_same`), and so do the vertices
that a search visits, the stretch of a breadth-first order that each level takes up
(`exists_extract_breadthFirstList`) and, if no weight is negative, the distances (`distances_of_same`), so that there
are paths to the same vertices.  `searches_agree` collects what two graphs with the same edges agree on.
-/

namespace WeightedGraph

/-! ### Sorted lists -/

section

variable {α : Type} {f : α → Nat} {l : List α}

private theorem take_countP (h : l.Pairwise fun a b => f a ≤ f b) (k : Nat) :
    l.take (l.countP (f · < k)) = l.filter (f · < k) := by
  induction l with
  | nil => rfl
  | cons a l ih =>
    obtain ⟨ha, hl⟩ := List.pairwise_cons.1 h
    by_cases hk : f a < k
    · rw [List.countP_cons_of_pos (by simpa using hk), List.take_succ_cons, ih hl,
        List.filter_cons_of_pos (by simpa using hk)]
    · -- nothing after `a` is below `k` either
      have hnil : (a :: l).filter (f · < k) = [] := by
        rw [List.filter_eq_nil_iff]
        intro b hb
        have hle : f a ≤ f b := by
          rcases List.mem_cons.1 hb with rfl | hb
          · exact Nat.le_refl _
          · exact ha b hb
        simpa using Nat.le_trans (Nat.not_lt.1 hk) hle
      rw [List.countP_eq_length_filter, hnil]
      rfl

private theorem drop_countP (h : l.Pairwise fun a b => f a ≤ f b) (k : Nat) :
    l.drop (l.countP (f · < k)) = l.filter (k ≤ f ·) := by
  induction l with
  | nil => rfl
  | cons a l ih =>
    obtain ⟨ha, hl⟩ := List.pairwise_cons.1 h
    by_cases hk : f a < k
    · rw [List.countP_cons_of_pos (by simpa using hk), List.drop_succ_cons, ih hl,
        List.filter_cons_of_neg (by simpa using hk)]
    · have hle : ∀ b ∈ a :: l, k ≤ f b := by
        intro b hb
        rcases List.mem_cons.1 hb with rfl | hb
        · exact Nat.not_lt.1 hk
        · exact Nat.le_trans (Nat.not_lt.1 hk) (ha b hb)
      have hnone : (a :: l).countP (f · < k) = 0 := by
        rw [List.countP_eq_zero]
        intro b hb
        simpa using hle b hb
      rw [hnone, List.drop_zero, List.filter_eq_self.2 fun b hb => by simpa using hle b hb]

/-- The items of one rank take up one stretch of a list that is sorted by rank. -/
private theorem extract_countP (h : l.Pairwise fun a b => f a ≤ f b) (k : Nat) :
    l.extract (l.countP (f · < k)) (l.countP (f · < k + 1)) = l.filter (f · = k) := by
  have hfirst : (l.filter (f · < k + 1)).countP (f · < k) = l.countP (f · < k) := by
    rw [List.countP_filter]
    congr 1
    funext a
    by_cases hk : f a < k
    · simp [hk, Nat.lt_succ_of_lt hk]
    · simp [hk]
  calc l.extract (l.countP (f · < k)) (l.countP (f · < k + 1))
      = (l.take (l.countP (f · < k + 1))).drop (l.countP (f · < k)) := by
        rw [List.extract_eq_take_drop, List.drop_take]
    _ = (l.filter (f · < k + 1)).drop ((l.filter (f · < k + 1)).countP (f · < k)) := by
        rw [take_countP h, hfirst]
    _ = (l.filter (f · < k + 1)).filter (k ≤ f ·) := drop_countP (h.filter _) k
    _ = l.filter (f · = k) := by
        rw [List.filter_filter]
        congr 1
        funext a
        by_cases hk : f a = k
        · simp [hk]
        · simp [hk]
          omega

end

namespace Graph

open ShortestPaths

variable {n : Nat} {g h : Graph n}

/-- The number of edges of a walk from `start` to `v` that has as few of them as any. -/
def IsHopCount (g : Graph n) (start v k : Nat) : Prop :=
  IsLeast {k | ∃ path d, g.Walk start v path d ∧ path.length = k + 1} k

theorem isConnectedFrom_eq (g : Graph n) (start : Fin n) :
    (g.isConnectedFrom start).result = .ok ((g.breadthFirstList start).length == n) := by
  have hcount (l : List Nat) (count : Nat) : l.foldl (fun count _ => count + 1) count = count + l.length := by
    induction l generalizing count with
    | nil => rfl
    | cons v l ih => rw [List.foldl_cons, ih, List.length_cons, Nat.add_assoc, Nat.add_comm 1]
  simp only [isConnectedFrom, Outcome.bind_def, Outcome.result_bind, foldBreadthFirst_eq, hcount, Nat.zero_add]
  rfl

/-- A breadth-first order is sorted by the number of edges that are needed to reach a vertex. -/
theorem exists_isHopCount (g : Graph n) (start : Fin n) :
    ∃ hop : Nat → Nat, (g.breadthFirstList start).Pairwise (fun u v => hop u ≤ hop v) ∧
      ∀ v ∈ g.breadthFirstList start, g.IsHopCount start v (hop v) := by
  obtain ⟨hop, hsorted, hleast, -⟩ := BreadthFirst.exists_hop g.adjacency.successors start
  refine ⟨fun v => if hv : v < n then hop ⟨v, hv⟩ else 0, ?_, ?_⟩
  · rw [breadthFirstList, List.pairwise_map]
    simpa using hsorted
  · intro v hv
    obtain ⟨x, hx, rfl⟩ := List.mem_map.1 hv
    simpa only [IsHopCount, exists_walk_iff_hops, Fin.is_lt, dite_true] using hleast x hx

theorem IsHopCount.mem_breadthFirstList {start : Fin n} {v k : Nat} (h : g.IsHopCount start v k) :
    v ∈ g.breadthFirstList start := by
  obtain ⟨path, d, hwalk, -⟩ := h.1
  exact mem_breadthFirstList_iff.2 ⟨path, d, hwalk⟩

/-- Sorted by the number of edges, a breadth-first order has each level in one stretch. -/
theorem mem_extract_breadthFirstList {start : Fin n} {hop : Nat → Nat}
    (hsorted : (g.breadthFirstList start).Pairwise fun u v => hop u ≤ hop v)
    (hhop : ∀ v ∈ g.breadthFirstList start, g.IsHopCount start v (hop v)) (k v : Nat) :
    v ∈ (g.breadthFirstList start).extract ((g.breadthFirstList start).countP (hop · < k))
        ((g.breadthFirstList start).countP (hop · < k + 1)) ↔ g.IsHopCount start v k := by
  rw [extract_countP hsorted, List.mem_filter, decide_eq_true_iff]
  constructor
  · rintro ⟨hv, rfl⟩
    exact hhop v hv
  · intro hk
    have hv := hk.mem_breadthFirstList
    exact ⟨hv, (hhop v hv).unique hk⟩

theorem distancesFrom_eq (g : Graph n) (start : Fin n) :
    (g.distancesFrom start).result = .ok (ShortestPaths.run g.adjacency.records start).distances := by
  simp only [distancesFrom, Outcome.bind_def, Outcome.result_bind, g.shortestPaths_of_lt start.isLt]
  rfl

/-- No sum of weights that are not negative is the negative zero. -/
theorem Walk.isUnsigned (hweights : ∀ u v w, g.findEdgeWeight u v = some w → Weight.IsNonneg w) {start v : Nat}
    {path : List Nat} {d : Weight} (hwalk : g.Walk start v path d) : Weight.IsUnsigned d := by
  induction hwalk with
  | start _ => exact Weight.isUnsigned_zero
  | extend _ hw ih => exact ih.add (hweights _ _ _ hw)

section

variable (hsame : ∀ u v, g.findEdgeWeight u v = h.findEdgeWeight u v)
include hsame

theorem Walk.of_same {start v : Nat} {path : List Nat} {d : Weight} (hwalk : g.Walk start v path d) :
    h.Walk start v path d := by
  induction hwalk with
  | start hs => exact .start hs
  | extend _ hw ih => exact ih.extend (hsame _ _ ▸ hw)

theorem walk_iff_of_same {start v : Nat} {path : List Nat} {d : Weight} :
    g.Walk start v path d ↔ h.Walk start v path d :=
  ⟨.of_same hsame, .of_same fun u v => (hsame u v).symm⟩

theorem isHopCount_iff_of_same {start v k : Nat} : g.IsHopCount start v k ↔ h.IsHopCount start v k := by
  unfold IsHopCount
  simp only [walk_iff_of_same hsame]

theorem perm_breadthFirstList (start : Fin n) : (g.breadthFirstList start).Perm (h.breadthFirstList start) := by
  rw [List.perm_ext_iff_of_nodup (g.nodup_breadthFirstList start) (h.nodup_breadthFirstList start)]
  intro v
  simp only [mem_breadthFirstList_iff, walk_iff_of_same hsame]

theorem perm_depthFirstList (start : Fin n) : (g.depthFirstList start).Perm (h.depthFirstList start) := by
  rw [List.perm_ext_iff_of_nodup (g.nodup_depthFirstList start) (h.nodup_depthFirstList start)]
  intro v
  simp only [mem_depthFirstList_iff, walk_iff_of_same hsame]

/-- The vertices to which no walk has fewer than `k` edges, but some walk has `k`, take up the same stretch of both
orders. -/
theorem exists_extract_breadthFirstList (start : Fin n) (k : Nat) :
    ∃ first last, ∀ v, (v ∈ (g.breadthFirstList start).extract first last ↔ g.IsHopCount start v k) ∧
      (v ∈ (h.breadthFirstList start).extract first last ↔ h.IsHopCount start v k) := by
  have hperm := perm_breadthFirstList hsame start
  obtain ⟨hop, hsorted, hhop⟩ := g.exists_isHopCount start
  obtain ⟨hop', hsorted', hhop'⟩ := h.exists_isHopCount start
  have hhop_h : ∀ v ∈ h.breadthFirstList start, h.IsHopCount start v (hop v) := fun v hv =>
    (isHopCount_iff_of_same hsame).1 (hhop v (hperm.mem_iff.2 hv))
  -- the levels of both graphs are the same, so that one of them sorts both orders
  have hsorted_h : (h.breadthFirstList start).Pairwise fun u v => hop u ≤ hop v := by
    refine hsorted'.imp_of_mem fun {u v} hu hv hle => ?_
    rwa [(hhop' u hu).unique (hhop_h u hu), (hhop' v hv).unique (hhop_h v hv)] at hle
  refine ⟨(g.breadthFirstList start).countP (hop · < k), (g.breadthFirstList start).countP (hop · < k + 1),
    fun v => ⟨mem_extract_breadthFirstList hsorted hhop k v, ?_⟩⟩
  rw [hperm.countP_eq, hperm.countP_eq]
  exact mem_extract_breadthFirstList hsorted_h hhop_h k v

/-! ### Distances -/

private theorem distances_le_of_same (hg : g.Reachable) (hh : h.Reachable)
    (hweights : ∀ u v w, g.findEdgeWeight u v = some w → Weight.IsNonneg w) (s v : Fin n) :
    (run h.adjacency.records s).distances.get v ≤ (run g.adjacency.records s).distances.get v := by
  have hweights_h : ∀ u v w, h.findEdgeWeight u v = some w → Weight.IsNonneg w := fun u v w hw =>
    hweights u v w (hsame u v ▸ hw)
  have hrecords : ∀ u, ∀ r ∈ h.adjacency.records u, Weight.IsNonneg r.weight := fun u r hr =>
    hweights_h u r.target r.weight (hh.mem_records_iff.1 hr)
  obtain ⟨⟨held, hheld⟩, hcut⟩ := State.cut_run hrecords s
  have hopen := fun v => hheld.infinite_of_isDone (done_repeatUntil _) (v := v)
  have hsource := (isTree_result (State.tree_run h.adjacency.records s)).distance_source
  have htree := isTree_result (State.tree_run g.adjacency.records s)
  by_cases hreached : Reached ((run g.adjacency.records s).result s) v
  · obtain ⟨path, -, hwalk, -⟩ := IsTree.exists_path hg htree hreached
    exact (hcut.le_of_walk hh hweights_h hsource hopen (hwalk.of_same hsame)).2 v rfl
  · have hinf : (run g.adjacency.records s).distances.get v = infinity := htree.infinite v hreached
    rw [hinf]
    exact Weight.le_infinity (hcut.isNonneg v).1

omit hsame in
private theorem isUnsigned_distances (hg : g.Reachable)
    (hweights : ∀ u v w, g.findEdgeWeight u v = some w → Weight.IsNonneg w) (s v : Fin n) :
    Weight.IsUnsigned ((run g.adjacency.records s).distances.get v) := by
  have htree := isTree_result (State.tree_run g.adjacency.records s)
  by_cases hreached : Reached ((run g.adjacency.records s).result s) v
  · obtain ⟨path, -, hwalk, -⟩ := IsTree.exists_path hg htree hreached
    exact hwalk.isUnsigned hweights
  · have hinf : (run g.adjacency.records s).distances.get v = infinity := htree.infinite v hreached
    rw [hinf]
    exact Weight.isUnsigned_infinity

/-- Distances are those of the shortest walks, in whatever order the edges were tried. -/
theorem distances_of_same (hg : g.Reachable) (hh : h.Reachable)
    (hweights : ∀ u v w, g.findEdgeWeight u v = some w → Weight.IsNonneg w) (s : Fin n) :
    (run g.adjacency.records s).distances = (run h.adjacency.records s).distances := by
  have hsymm : ∀ u v, h.findEdgeWeight u v = g.findEdgeWeight u v := fun u v => (hsame u v).symm
  have hweights_h : ∀ u v w, h.findEdgeWeight u v = some w → Weight.IsNonneg w := fun u v w hw =>
    hweights u v w (hsame u v ▸ hw)
  ext v hv
  exact Weight.eq_of_le_of_le (isUnsigned_distances hg hweights s ⟨v, hv⟩)
    (isUnsigned_distances hh hweights_h s ⟨v, hv⟩) (distances_le_of_same hsymm hh hg hweights_h s ⟨v, hv⟩)
    (distances_le_of_same hsame hg hh hweights s ⟨v, hv⟩)

end

/-- Two graphs with the same edges agree on the vertices of each level and on those of a depth-first search, and if no
weight is negative, on the distances and on which vertices there are paths to. -/
theorem searches_agree (hg : g.Reachable) (hh : h.Reachable)
    (hsame : ∀ u v, g.findEdgeWeight u v = h.findEdgeWeight u v) {start : Nat} (hs : start < n) :
    (∃ bg bh : List Nat, (g.breadthFirstOrder start).result = .ok bg.toArray ∧
      (h.breadthFirstOrder start).result = .ok bh.toArray ∧ bg.Nodup ∧ bg.Perm bh ∧
      ∀ k, ∃ first last, (bg.extract first last).Perm (bh.extract first last) ∧
        (∀ v, v ∈ bg.extract first last ↔ g.IsHopCount start v k) ∧
        ∀ v, v ∈ bh.extract first last ↔ h.IsHopCount start v k) ∧
    (∃ dg dh : List Nat, (g.depthFirstOrder start).result = .ok dg.toArray ∧
      (h.depthFirstOrder start).result = .ok dh.toArray ∧ dg.Perm dh) ∧
    (∃ b, (g.isConnectedFrom start).result = .ok b ∧ (h.isConnectedFrom start).result = .ok b) ∧
    ((∀ u v w, g.findEdgeWeight u v = some w → w.isNaN = false ∧ ¬ w < 0.0) →
      (∃ distances, (g.distancesFrom start).result = .ok distances ∧
        (h.distancesFrom start).result = .ok distances) ∧
      ∃ p q, (g.shortestPaths start).result = .ok p ∧ (h.shortestPaths start).result = .ok q ∧
        p.distances = q.distances ∧ ∀ t, (p.pathTo t).isSome = (q.pathTo t).isSome) := by
  lift start to Fin n using hs
  refine ⟨⟨_, _, g.breadthFirstOrder_eq start, h.breadthFirstOrder_eq start, g.nodup_breadthFirstList start,
      perm_breadthFirstList hsame start, ?_⟩,
    ⟨_, _, g.depthFirstOrder_eq start, h.depthFirstOrder_eq start, perm_depthFirstList hsame start⟩,
    ⟨_, g.isConnectedFrom_eq start, ?_⟩, fun hweights => ?_⟩
  · intro k
    obtain ⟨first, last, hlevel⟩ := exists_extract_breadthFirstList hsame start k
    refine ⟨first, last, ?_, fun v => (hlevel v).1, fun v => (hlevel v).2⟩
    have hsub (l : List Nat) : (l.extract first last).Sublist l := by
      rw [List.extract_eq_take_drop]
      exact (List.take_sublist ..).trans (List.drop_sublist ..)
    rw [List.perm_ext_iff_of_nodup ((g.nodup_breadthFirstList start).sublist (hsub _))
      ((h.nodup_breadthFirstList start).sublist (hsub _))]
    intro v
    rw [(hlevel v).1, (hlevel v).2, isHopCount_iff_of_same hsame]
  · rw [h.isConnectedFrom_eq, (perm_breadthFirstList hsame start).length_eq]
  · have hdistances := distances_of_same hsame hg hh hweights start
    have hp := g.shortestPaths_of_lt start.isLt
    have hq := h.shortestPaths_of_lt start.isLt
    refine ⟨⟨_, g.distancesFrom_eq start, ?_⟩, _, _, hp, hq, hdistances, fun t => ?_⟩
    · rw [hdistances]
      exact h.distancesFrom_eq start
    · have hnone_g := (isTree_result (State.tree_run g.adjacency.records start)).pathTo_eq_none_iff hg (t := t)
      have hnone_h := (isTree_result (State.tree_run h.adjacency.records start)).pathTo_eq_none_iff hh (t := t)
      have hdistance : ((run g.adjacency.records start).result start).distance? t =
          ((run h.adjacency.records start).result start).distance? t := congrArg (·[t]?) hdistances
      rw [hdistance] at hnone_g
      rw [Bool.eq_iff_iff, Option.isSome_iff_ne_none, Option.isSome_iff_ne_none]
      exact not_congr (hnone_g.trans hnone_h.symm)

/-- An edge that was taken out and written anew comes last in a list, but not in a matrix. -/
theorem searches_agree_rewritten :
    let g : Graph 4 := ((((((⟨.directed, .rows (.empty 4), 0⟩ : Graph 4).addEdge 0 1 7.0).2.addEdge
      0 2 1.0).2.addEdge 2 3 1.5).2.removeEdge 0 1).2.addEdge 0 1 2.5).2
    let h : Graph 4 := ((((⟨.directed, .grid (.empty 4), 0⟩ : Graph 4).addEdge 0 1 2.5).2.addEdge
      0 2 1.0).2.addEdge 2 3 1.5).2
    g.adjacency.successors 0 = [2, 1] ∧ h.adjacency.successors 0 = [1, 2] ∧
      ∃ bg bh : List Nat, (g.breadthFirstOrder 0).result = .ok bg.toArray ∧
        (h.breadthFirstOrder 0).result = .ok bh.toArray ∧ bg.Perm bh ∧
        ∃ distances, (g.distancesFrom 0).result = .ok distances ∧ (h.distancesFrom 0).result = .ok distances := by
  intro g h
  have hlist : (create 4 .directed .adjacencyList).result = .ok ⟨.directed, .rows (.empty 4), 0⟩ := rfl
  have hmatrix : (create 4 .directed .adjacencyMatrix).result = .ok ⟨.directed, .grid (.empty 4), 0⟩ := rfl
  have hg : g.Reachable :=
    (((((Reachable.create hlist).addEdge 0 1 7.0).addEdge 0 2 1.0).addEdge 2 3 1.5).removeEdge 0 1).addEdge 0 1 2.5
  have hh : h.Reachable := (((Reachable.create hmatrix).addEdge 0 1 2.5).addEdge 0 2 1.0).addEdge 2 3 1.5
  have hstored : ∀ u v : Fin 4, g.adjacency.weight? u v = h.adjacency.weight? u v := by decide
  have hnonneg : ∀ u v : Fin 4, ∀ w ∈ g.adjacency.weight? u v, w.isNaN = false ∧ ¬ w < 0.0 := by decide
  have hsame : ∀ u v, g.findEdgeWeight u v = h.findEdgeWeight u v := by
    intro u v
    by_cases huv : u < 4 ∧ v < 4
    · rw [findEdgeWeight_val g ⟨u, huv.1⟩ ⟨v, huv.2⟩, findEdgeWeight_val h ⟨u, huv.1⟩ ⟨v, huv.2⟩]
      exact hstored _ _
    · rw [findEdgeWeight_of_le (by omega), findEdgeWeight_of_le (by omega)]
  have hweights : ∀ u v w, g.findEdgeWeight u v = some w → w.isNaN = false ∧ ¬ w < 0.0 := by
    intro u v w hw
    obtain ⟨hu, hv⟩ := lt_of_findEdgeWeight hw
    rw [findEdgeWeight_val g ⟨u, hu⟩ ⟨v, hv⟩] at hw
    exact hnonneg _ _ w hw
  have hstart : 0 < 4 := by decide
  obtain ⟨⟨bg, bh, hbg, hbh, -, hperm, -⟩, -, -, hdistances⟩ := searches_agree hg hh hsame hstart
  exact ⟨by decide, by decide, bg, bh, hbg, hbh, hperm, (hdistances hweights).1⟩

end Graph

end WeightedGraph
