import WeightedGraph.Proofs.Graph.Neighbors

/-!
# The order of a copy

A copy takes up the edges of its original vertex by vertex.  What ends up in a row of lists is therefore known from the
order of the vertices: an undirected edge has been put there from its other end before, if that is a smaller vertex
(`targets_copy_undirected`), and otherwise the row comes over as it is (`targets_copy_directed`).

* (matrix) In a copy to a matrix the neighbours ascend, and lists made from a matrix are searched as the matrix is.
* (lists) A graph whose rows ascend is copied to lists in its order.  Other rows are sorted in part by a copy to lists,
  and a second one changes nothing (`targets_copy_copy`); a way through a matrix sorts all rows.
-/

namespace WeightedGraph

/-! ### Ascending lists -/

/-- Edges by increasing target. -/
def ascending (edges : List Edge) : List Edge := edges.mergeSort fun e f => e.target ≤ f.target

private theorem eq_of_ascending {l l' : List Nat} (h : l.Pairwise (· < ·)) (h' : l'.Pairwise (· < ·))
    (hmem : ∀ t, t ∈ l ↔ t ∈ l') : l = l' := by
  have hperm : l.Perm l' := by
    rw [List.perm_ext_iff_of_nodup (h.imp Nat.ne_of_lt) (h'.imp Nat.ne_of_lt)]
    exact hmem
  exact hperm.eq_of_pairwise (fun a b _ _ hab hba => absurd hab (Nat.lt_asymm hba)) h h'

theorem map_target_ascending {edges : List Edge} {ts : List Nat} (hnodup : (edges.map Edge.target).Nodup)
    (hts : ts.Pairwise (· < ·)) (hmem : ∀ t, t ∈ edges.map Edge.target ↔ t ∈ ts) :
    (ascending edges).map Edge.target = ts := by
  have hperm : ((ascending edges).map Edge.target).Perm (edges.map Edge.target) :=
    (List.mergeSort_perm edges _).map Edge.target
  have hsorted : ((ascending edges).map Edge.target).Pairwise (· ≤ ·) := by
    rw [List.pairwise_map]
    refine (List.pairwise_mergeSort ?_ ?_ edges).imp fun h => by simpa using h
    · intro e f d hef hfd
      simp only [decide_eq_true_eq] at hef hfd ⊢
      exact Nat.le_trans hef hfd
    · intro e f
      simpa using Nat.le_total e.target f.target
  refine eq_of_ascending ?_ hts fun t => (hperm.mem_iff.trans (hmem t))
  refine (hsorted.and (hperm.nodup_iff.2 hnodup)).imp fun h => ?_
  exact Nat.lt_of_le_of_ne h.1 h.2

private theorem flatMap_ite_singleton {α : Type} (p : α → Bool) (l : List α) :
    (l.flatMap fun a => if p a then [a] else []) = l.filter p := by
  induction l with
  | nil => rfl
  | cons a l ih =>
    rw [List.flatMap_cons, ih]
    by_cases ha : p a = true <;> simp [ha]

private theorem exists_finRange_eq {n : Nat} (v : Fin n) :
    ∃ below above, List.finRange n = below ++ v :: above ∧ below.map Fin.val = List.range v ∧
      (∀ u ∈ below, u < v) ∧ ∀ u ∈ above, v < u := by
  obtain ⟨below, above, hsplit⟩ := List.append_of_mem (List.mem_finRange v)
  have hsorted := List.pairwise_lt_finRange n
  rw [hsplit, List.pairwise_append, List.pairwise_cons] at hsorted
  obtain ⟨hbelow, ⟨habove, -⟩, hcross⟩ := hsorted
  have hlt : ∀ u ∈ below, u < v := fun u hu => hcross u hu v List.mem_cons_self
  refine ⟨below, above, hsplit, ?_, hlt, habove⟩
  refine eq_of_ascending (List.pairwise_map.2 hbelow) List.pairwise_lt_range fun t => ?_
  rw [List.mem_map, List.mem_range]
  constructor
  · rintro ⟨u, hu, rfl⟩
    exact hlt u hu
  · intro ht
    have hmem := List.mem_finRange (⟨t, ht.trans v.isLt⟩ : Fin n)
    rw [hsplit, List.mem_append, List.mem_cons] at hmem
    rcases hmem with hu | hv | hu
    · exact ⟨_, hu, rfl⟩
    · exact absurd (congrArg Fin.val hv) (Nat.ne_of_lt ht)
    · exact absurd (habove _ hu) (Nat.lt_asymm ht)

namespace Graph

variable {n : Nat} {g c : Graph n}

/-! ### What adding edges puts into a row -/

/-- In lists edges that are added put their other ends into a row, in their order and each once. -/
theorem targets_addEdges (hg : g.representation = .adjacencyList) {edges : List Edge}
    (h : ∀ e ∈ edges, e.InRange n) (y : Fin n) :
    (g.addEdges edges).2.targets y =
      (edges.filterMap fun e => g.kind.otherEnd? e.source e.target y.val).foldl addLast (g.targets y) := by
  induction edges generalizing g with
  | nil => rfl
  | cons e edges ih =>
    have he := h e List.mem_cons_self
    have hedit : (g.insert ⟨e.source, he.1⟩ ⟨e.target, he.2⟩ e.weight).2.targets y = _ :=
      targets_edit hg ⟨e.source, he.1⟩ ⟨e.target, he.2⟩ (some e.weight) y
    rw [(addEdges_cons_of_inRange he edges).2, ih (by simpa using hg) fun e he => h e (List.mem_cons_of_mem _ he),
      hedit, kind_insert, List.filterMap_cons]
    cases g.kind.otherEnd? e.source e.target y.val <;> rfl

/-- What the edges from `u` put into the row of another vertex: `u`, if they have no direction and one of them leads
there. -/
theorem filterMap_otherEnd?_of_ne (hg : g.adjacency.Distinct) {u y : Fin n} (hne : u ≠ y) :
    (g.targets u).filterMap (g.kind.otherEnd? u.val · y.val) =
      if g.kind = .undirected ∧ g.hasEdge u y = true then [u.val] else [] := by
  have hne' : u.val ≠ y.val := Fin.val_ne_of_ne hne
  simp only [← mem_targets_iff]
  have hnodup := nodup_targets hg u
  generalize g.targets u = ts at hnodup
  induction ts with
  | nil => simp
  | cons t ts ih =>
    obtain ⟨ht, hts⟩ := List.nodup_cons.1 hnodup
    rw [List.filterMap_cons, ih hts]
    by_cases hkind : g.kind = .undirected
    · by_cases hty : t = y.val
      · subst hty
        simp [GraphKind.otherEnd?, hne', hkind, ht]
      · simp [GraphKind.otherEnd?, hne', hkind, hty, Ne.symm hty]
    · simp [GraphKind.otherEnd?, hne', hkind]

theorem filterMap_otherEnd?_self (g : Graph n) (y : Fin n) :
    (g.targets y).filterMap (g.kind.otherEnd? y.val · y.val) = g.targets y := by
  simp [GraphKind.otherEnd?]

/-- What the edges of a graph put into a row, as they are enumerated: the smaller vertices from which an undirected edge
leads there, the row itself, and the greater ones. -/
theorem filterMap_edges (hg : g.adjacency.Distinct) (y : Fin n) :
    ∃ above : List (Fin n), (∀ u ∈ above, y < u) ∧
      g.edges.toList.filterMap (fun e => g.kind.otherEnd? e.source e.target y.val) =
        (List.range y).filter (fun u => g.kind = .undirected ∧ g.hasEdge u y = true) ++ g.targets y ++
          (above.map Fin.val).filter fun u => g.kind = .undirected ∧ g.hasEdge u y = true := by
  obtain ⟨below, above, hsplit, hrange, hbelow, habove⟩ := exists_finRange_eq y
  have hvertex (u : Fin n) : (g.adjacency.outEdges u).filterMap (fun e => g.kind.otherEnd? e.source e.target y.val) =
      (g.targets u).filterMap (g.kind.otherEnd? u.val · y.val) := by
    rw [← map_target_outEdges, List.filterMap_map, Adjacency.outEdges, List.filterMap_map, List.filterMap_map]
    rfl
  have hother {us : List (Fin n)} (hus : ∀ u ∈ us, u ≠ y) :
      (us.flatMap fun u => (g.targets u).filterMap (g.kind.otherEnd? u.val · y.val)) =
        (us.map Fin.val).filter fun u => g.kind = .undirected ∧ g.hasEdge u y = true := by
    rw [← flatMap_ite_singleton, List.flatMap_map]
    refine List.flatMap_congr fun u hu => ?_
    rw [filterMap_otherEnd?_of_ne hg (hus u hu)]
    simp only [decide_eq_true_eq]
  refine ⟨above, habove, ?_⟩
  rw [toList_edges, List.filterMap_flatMap]
  simp only [hvertex]
  rw [hsplit, List.flatMap_append, List.flatMap_cons, filterMap_otherEnd?_self, hother fun u hu => (hbelow u hu).ne,
    hother fun u hu => (habove u hu).ne', hrange, List.append_assoc]

/-! ### Copies to lists -/

theorem findEdgeWeight_copy (hg : g.Reachable) {r : Representation} (hcopy : (g.copy r).result = .ok c) (u v : Nat) :
    c.findEdgeWeight u v = g.findEdgeWeight u v := by
  obtain ⟨m, hm, hc, hkind⟩ := exists_represents_copy hg hcopy
  exact hc.findEdgeWeight_eq hm hkind u v

theorem hasEdge_copy (hg : g.Reachable) {r : Representation} (hcopy : (g.copy r).result = .ok c) (u v : Nat) :
    c.hasEdge u v = g.hasEdge u v := by
  rw [hasEdge_eq, hasEdge_eq, findEdgeWeight_copy hg hcopy]

theorem Reachable.hasEdge_swap (hg : g.Reachable) (hkind : g.kind = .undirected) (u v : Nat) :
    g.hasEdge u v = g.hasEdge v u := by
  obtain ⟨m, hm, -⟩ := hg.represents
  exact hm.hasEdge_of_key_eq (by rw [hkind, GraphKind.key_swap])

/-- A row of a copy holds what the edges of the original put there. -/
theorem targets_copy (hcopy : (g.copy .adjacencyList).result = .ok c) (y : Fin n) :
    c.targets y = (g.edges.toList.filterMap fun e => g.kind.otherEnd? e.source e.target y.val).foldl addLast [] := by
  obtain ⟨empty, hempty, rfl⟩ := exists_create_of_copy hcopy
  obtain ⟨hkind, hlist⟩ := shape_of_create hempty
  rw [targets_addEdges hlist g.inRange_of_mem_edges, targets_of_create hempty, hkind]

theorem targets_copy_directed (hg : g.Reachable) (hkind : g.kind = .directed)
    (hcopy : (g.copy .adjacencyList).result = .ok c) (y : Fin n) : c.targets y = g.targets y := by
  obtain ⟨above, -, hedges⟩ := filterMap_edges hg.distinct y
  have hnone (us : List Nat) : us.filter (fun u => g.kind = .undirected ∧ g.hasEdge u y = true) = [] := by
    rw [List.filter_eq_nil_iff]
    simp [hkind]
  rw [targets_copy hcopy, hedges, hnone, hnone, List.append_nil, List.nil_append,
    foldl_addLast (nodup_targets hg.distinct y)]
  simp

theorem targets_copy_undirected (hg : g.Reachable) (hkind : g.kind = .undirected)
    (hcopy : (g.copy .adjacencyList).result = .ok c) (y : Fin n) :
    c.targets y = (List.range y).filter (g.hasEdge y ·) ++ (g.targets y).filter (y.val ≤ ·) := by
  obtain ⟨above, habove, hedges⟩ := filterMap_edges hg.distinct y
  have hback (us : List Nat) : us.filter (fun u => g.kind = .undirected ∧ g.hasEdge u y = true) =
      us.filter (g.hasEdge y ·) := by
    refine List.filter_congr fun u _ => ?_
    rw [hg.hasEdge_swap hkind u y]
    simp [hkind]
  have hlower : ((List.range y).filter (g.hasEdge y ·)).Nodup := List.nodup_range.filter _
  rw [targets_copy hcopy, hedges, hback, hback, List.foldl_append, List.foldl_append, foldl_addLast hlower,
    foldl_addLast (nodup_targets hg.distinct y)]
  have hupper : (g.targets y).filter (· ∉ (List.range y).filter (g.hasEdge y ·)) =
      (g.targets y).filter (y.val ≤ ·) := by
    refine List.filter_congr fun t ht => ?_
    simp [mem_targets_iff.1 ht]
  -- the edges to greater vertices are there already when those vertices are met
  have hthere : ∀ u ∈ (above.map Fin.val).filter (g.hasEdge y ·), u ∈ (List.range y).filter (g.hasEdge y ·) ++
      (g.targets y).filter (y.val ≤ ·) := by
    intro u hu
    rw [List.mem_filter, List.mem_map] at hu
    obtain ⟨⟨x, hx, rfl⟩, hedge⟩ := hu
    refine List.mem_append_right _ (List.mem_filter.2 ⟨mem_targets_iff.2 hedge, ?_⟩)
    simpa using Nat.le_of_lt (habove x hx)
  simp only [List.not_mem_nil, not_false_eq_true, decide_true, List.filter_true, List.nil_append, hupper]
  exact foldl_addLast_of_subset hthere

/-- A row that ascends is copied as it is. -/
theorem targets_copy_of_pairwise (hg : g.Reachable) (hcopy : (g.copy .adjacencyList).result = .ok c) {y : Fin n}
    (hsorted : (g.targets y).Pairwise (· < ·)) : c.targets y = g.targets y := by
  cases hkind : g.kind with
  | directed => exact targets_copy_directed hg hkind hcopy y
  | undirected =>
    rw [targets_copy_undirected hg hkind hcopy]
    refine eq_of_ascending ?_ hsorted fun t => ?_
    · rw [List.pairwise_append]
      refine ⟨List.pairwise_lt_range.filter _, hsorted.filter _, fun a ha b hb => ?_⟩
      rw [List.mem_filter, List.mem_range] at ha
      have hle : y.val ≤ b := by simpa using (List.mem_filter.1 hb).2
      exact ha.1.trans_le hle
    · rw [List.mem_append, List.mem_filter, List.mem_filter, List.mem_range, mem_targets_iff, decide_eq_true_iff]
      constructor
      · rintro (h | h)
        · exact h.2
        · exact h.1
      · intro h
        by_cases ht : t < y.val
        · exact .inl ⟨ht, h⟩
        · exact .inr ⟨h, Nat.not_lt.1 ht⟩

/-- A copy of a copy has the rows of the copy. -/
theorem targets_copy_copy (hg : g.Reachable) (hcopy : (g.copy .adjacencyList).result = .ok c) {d : Graph n}
    (hagain : (c.copy .adjacencyList).result = .ok d) (y : Fin n) : d.targets y = c.targets y := by
  have hc : c.Reachable := hg.copy hcopy
  have hckind : c.kind = g.kind := (shape_of_copy hcopy).1
  cases hkind : g.kind with
  | directed => exact targets_copy_directed hc (hckind.trans hkind) hagain y
  | undirected =>
    have hupper : (c.targets y).filter (y.val ≤ ·) = (g.targets y).filter (y.val ≤ ·) := by
      rw [targets_copy_undirected hg hkind hcopy, List.filter_append, List.filter_filter, List.filter_filter]
      have hlower : (List.range y).filter (fun t => decide (y.val ≤ t) && g.hasEdge y t) = [] := by
        rw [List.filter_eq_nil_iff]
        intro t ht
        simp [Nat.not_le.2 (List.mem_range.1 ht)]
      rw [hlower]
      simp
    rw [targets_copy_undirected hc (hckind.trans hkind) hagain, hupper, targets_copy_undirected hg hkind hcopy]
    simp only [hasEdge_copy hg hcopy]

/-! ### Edges and searches of copies -/

theorem outEdges_eq_of_targets (hg : g.adjacency.Distinct) (hc : c.adjacency.Distinct)
    (hfind : ∀ u v, c.findEdgeWeight u v = g.findEdgeWeight u v) {y : Fin n} (htargets : c.targets y = g.targets y) :
    c.adjacency.outEdges y = g.adjacency.outEdges y := by
  refine eq_of_targets_of_found (g := g) ?_ (fun e he => ?_) fun e => (mem_outEdges_iff hg).1
  · rw [map_target_outEdges, map_target_outEdges, htargets]
  · rw [← hfind]
    exact (mem_outEdges_iff hc).1 he

/-- In a copy of an undirected graph to lists the edges to smaller vertices come first and ascend, and the others
follow in their order. -/
theorem outEdges_copy_undirected (hg : g.Reachable) (hkind : g.kind = .undirected)
    (hcopy : (g.copy .adjacencyList).result = .ok c) (y : Fin n) :
    c.adjacency.outEdges y = ascending ((g.adjacency.outEdges y).filter (·.target < y.val)) ++
      (g.adjacency.outEdges y).filter (y.val ≤ ·.target) := by
  have hmap (p : Nat → Bool) : ((g.adjacency.outEdges y).filter (p ·.target)).map Edge.target =
      (g.targets y).filter p := by
    rw [← map_target_outEdges, List.filter_map]
    rfl
  have hlower : (ascending ((g.adjacency.outEdges y).filter (·.target < y.val))).map Edge.target =
      (List.range y).filter (g.hasEdge y ·) := by
    have hsmaller := hmap (· < y.val)
    refine map_target_ascending ?_ (List.pairwise_lt_range.filter _) fun t => ?_
    · rw [hsmaller]
      exact (nodup_targets hg.distinct y).filter _
    · rw [hsmaller, List.mem_filter, List.mem_filter, List.mem_range, mem_targets_iff, decide_eq_true_iff]
      exact and_comm
  refine eq_of_targets_of_found (g := g) (v := y) ?_ (fun e he => ?_) fun e he => ?_
  · rw [map_target_outEdges, targets_copy_undirected hg hkind hcopy, List.map_append, hlower, hmap (y.val ≤ ·)]
  · rw [← findEdgeWeight_copy hg hcopy]
    exact (mem_outEdges_iff (hg.copy hcopy).distinct).1 he
  · have hmem : e ∈ g.adjacency.outEdges y := by
      rcases List.mem_append.1 he with he | he
      · exact List.mem_of_mem_filter ((List.mergeSort_perm _ _).mem_iff.1 he)
      · exact List.mem_of_mem_filter he
    exact (mem_outEdges_iff hg.distinct).1 hmem

theorem searches_eq_of_targets (htargets : ∀ y, c.targets y = g.targets y) (start : Nat) :
    c.breadthFirstOrder start = g.breadthFirstOrder start ∧ c.depthFirstOrder start = g.depthFirstOrder start := by
  have hsuccessors : c.adjacency.successors = g.adjacency.successors := by
    funext y
    exact Fin.val_injective.list_map (htargets y)
  constructor
  · simp only [breadthFirstOrder, foldBreadthFirst, visitBreadthFirst, hsuccessors]
  · simp only [depthFirstOrder, foldDepthFirst, visitDepthFirst, hsuccessors]

/-- Through a matrix a graph comes back to lists with rows that ascend. -/
theorem pairwise_targets_of_recastAll (hg : g.Reachable)
    (hsteps : g.recastAll [.convert .adjacencyMatrix, .convert .adjacencyList] = .ok c) (y : Fin n) :
    (c.targets y).Pairwise (· < ·) := by
  obtain ⟨g', hfirst, hrest⟩ := recastAll_cons.1 hsteps
  obtain ⟨c', hsecond, hlast⟩ := recastAll_cons.1 hrest
  obtain rfl : c' = c := Except.ok.inj hlast
  obtain ⟨m, hm, hkeys⟩ := hg.represents
  have hmatrix : g'.representation = .adjacencyMatrix := (hm.recast hkeys hfirst).2.2
  have hg' : g'.Reachable := by
    rcases recast_cases hfirst with ⟨rfl, -⟩ | hcopy
    · exact hg
    · exact hg.copy hcopy
  rcases recast_cases hsecond with ⟨-, hlist⟩ | hcopy
  · rw [hmatrix] at hlist
    contradiction
  · have hsorted := pairwise_targets hmatrix y
    rw [targets_copy_of_pairwise hg' hcopy hsorted]
    exact hsorted

/-- In a copy to a matrix the neighbours ascend; in one to lists they keep their order, but if edges have no direction,
those before the vertex come first and ascend. -/
theorem copy_orders_neighbors (hg : g.Reachable) :
    (∀ c, (g.copy .adjacencyMatrix).result = .ok c → ∀ v < n, ∃ edges, c.neighborList v = .ok edges ∧
      (edges.map Edge.target).Pairwise (· < ·)) ∧
    (∀ c, (g.copy .adjacencyList).result = .ok c →
      (g.kind = .directed → ∀ v, c.neighborList v = g.neighborList v) ∧
      (g.kind = .undirected → ∀ v, c.neighborList v = (g.neighborList v).map fun edges =>
        ascending (edges.filter (·.target < v)) ++ edges.filter (v ≤ ·.target)) ∧
      (∀ d, (c.copy .adjacencyList).result = .ok d → d.edges.toList = c.edges.toList) ∧
      (g.representation = .adjacencyMatrix → ∀ start,
        c.breadthFirstOrder start = g.breadthFirstOrder start ∧ c.depthFirstOrder start = g.depthFirstOrder start)) ∧
    (∀ c, g.recastAll [.convert .adjacencyMatrix, .convert .adjacencyList] = .ok c → ∀ v < n, ∃ edges,
      c.neighborList v = .ok edges ∧ (edges.map Edge.target).Pairwise (· < ·)) := by
  refine ⟨?_, fun c hcopy => ⟨fun hkind v => ?_, fun hkind v => ?_, fun d hagain => ?_, fun hmatrix => ?_⟩, ?_⟩
  · intro c hcopy v hv
    refine ⟨_, c.neighborList_val ⟨v, hv⟩, ?_⟩
    rw [map_target_outEdges]
    exact pairwise_targets (shape_of_copy hcopy).2 ⟨v, hv⟩
  · by_cases hv : v < n
    · have htargets := targets_copy_directed hg hkind hcopy ⟨v, hv⟩
      rw [c.neighborList_val ⟨v, hv⟩, g.neighborList_val ⟨v, hv⟩,
        outEdges_eq_of_targets hg.distinct (hg.copy hcopy).distinct (findEdgeWeight_copy hg hcopy) htargets]
    · rw [c.neighborList_of_le (Nat.not_lt.1 hv), g.neighborList_of_le (Nat.not_lt.1 hv)]
  · by_cases hv : v < n
    · rw [c.neighborList_val ⟨v, hv⟩, g.neighborList_val ⟨v, hv⟩, outEdges_copy_undirected hg hkind hcopy]
      rfl
    · rw [c.neighborList_of_le (Nat.not_lt.1 hv), g.neighborList_of_le (Nat.not_lt.1 hv)]
      rfl
  · have hc : c.Reachable := hg.copy hcopy
    rw [toList_edges, toList_edges]
    refine List.flatMap_congr fun y _ => ?_
    exact outEdges_eq_of_targets hc.distinct (hc.copy hagain).distinct (findEdgeWeight_copy hc hagain)
      (targets_copy_copy hg hcopy hagain y)
  · exact searches_eq_of_targets fun y => targets_copy_of_pairwise hg hcopy (pairwise_targets hmatrix y)
  · intro c hsteps v hv
    refine ⟨_, c.neighborList_val ⟨v, hv⟩, ?_⟩
    rw [map_target_outEdges]
    exact pairwise_targets_of_recastAll hg hsteps ⟨v, hv⟩

/-- The row of an undirected graph that was filled from its greater vertices downwards is copied in another order. -/
theorem copy_orders_neighbors_downwards :
    let g : Graph 4 := (((⟨.undirected, .rows (.empty 4), 0⟩ : Graph 4).addEdge 1 3 1.5).2.addEdge 2 1 2.5).2.addEdge
      1 0 3.5 |>.2
    g.neighborList 1 = .ok [⟨1, 3, 1.5⟩, ⟨1, 2, 2.5⟩, ⟨1, 0, 3.5⟩] ∧
      ∃ c, (g.copy .adjacencyList).result = .ok c ∧
        c.neighborList 1 = .ok [⟨1, 0, 3.5⟩, ⟨1, 3, 1.5⟩, ⟨1, 2, 2.5⟩] := by
  intro g
  have hnew : (create 4 .undirected .adjacencyList).result = .ok ⟨.undirected, .rows (.empty 4), 0⟩ := rfl
  have hg : g.Reachable := (((Reachable.create hnew).addEdge 1 3 1.5).addEdge 2 1 2.5).addEdge 1 0 3.5
  have hrow : g.neighborList 1 = .ok [⟨1, 3, 1.5⟩, ⟨1, 2, 2.5⟩, ⟨1, 0, 3.5⟩] := neighborList_val g 1
  obtain ⟨c, hcopy⟩ : ∃ c, (g.copy .adjacencyList).result = .ok c := by
    rw [result_copy]
    exact ⟨_, rfl⟩
  refine ⟨hrow, c, hcopy, ?_⟩
  rw [((copy_orders_neighbors hg).2.1 c hcopy).2.1 rfl, hrow]
  simp [Except.map, ascending]

end Graph

end WeightedGraph
