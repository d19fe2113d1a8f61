import WeightedGraph.Proofs.Graph.EdgeMap
import WeightedGraph.Proofs.Graph.Reachable
import WeightedGraph.Proofs.Graph.Walk
import WeightedGraph.Proofs.Plain.Graph
import WeightedGraph.Proofs.ShortestPaths.Path

/-!
# Well-formed plain graphs

The arrays of a reachable graph have the sizes that its number of vertices asks for, and hold each edge once in every
direction in which it is stored (`Plain.Graph.WellFormed`).  The count of edges is the number of their keys, so it is
not zero as long as there is an edge to take out.  Every operation therefore keeps within the arrays, ends, and does
to them what it does to the graph (`reachable_runsOnArrays`).
-/

namespace WeightedGraph

namespace Plain

/-- The edge from `u` to `v` is stored with the weight `w`. -/
def Storage.Holds : Storage → Nat → Nat → Weight → Prop
  | .lists rows, u, v, w => ∃ row, rows[u]? = some row ∧ ⟨v, w⟩ ∈ row
  | .matrix weights present side, u, v, w => u < side ∧ v < side ∧ present[u * side + v]? = some true ∧
      weights[u * side + v]? = some w

/-- One row for each of `n` vertices with records of edges to different vertices, or a square matrix in which nothing
but edges has a weight. -/
def Storage.WellFormed (n : Nat) : Storage → Prop
  | .lists rows => rows.size = n ∧
      ∀ row ∈ rows, (∀ r ∈ row, r.target < n) ∧ (row.map (·.target)).toList.Nodup
  | .matrix weights present side => side = n ∧ weights.size = n * n ∧ present.size = n * n ∧
      ∀ i : Nat, present[i]? = some false → weights[i]? = some 0.0

structure Graph.WellFormed (g : Graph) : Prop where
  vertexCount_pos : 0 < g.vertexCount
  storage : g.storage.WellFormed g.vertexCount
  /-- An undirected edge is stored in both directions with one weight. -/
  symm : g.kind = .undirected → ∀ u v w, g.storage.Holds u v w → g.storage.Holds v u w
  /-- Edges are counted once, in whatever directions they are stored. -/
  edgeCount_eq : g.edgeCount = Set.ncard {k | ∃ u v w, g.storage.Holds u v w ∧ g.kind.key u v = k}

end Plain

variable {n : Nat}

namespace Graph

variable {g : Graph n}

/-- The arrays of a graph hold the edges that it finds. -/
theorem Reachable.holds_iff (h : g.Reachable) {u v : Nat} {w : Weight} :
    g.plain.storage.Holds u v w ↔ g.findEdgeWeight u v = some w := by
  obtain ⟨kind, a, count⟩ := g
  cases a with
  | rows a =>
    constructor
    · rintro ⟨row, hrow, hmem⟩
      obtain ⟨hu, -⟩ := Array.getElem?_eq_some_iff.1 hrow
      have hu : u < n := by simpa [Rows.plain] using hu
      obtain rfl : (a.records ⟨u, hu⟩).plain = row :=
        Option.some.inj ((Plain.getElem?_plain a ⟨u, hu⟩).symm.trans hrow)
      obtain ⟨r, hr, heq⟩ : ∃ r ∈ a.records ⟨u, hu⟩, r.plain = ⟨v, w⟩ := by simpa [Row.plain] using hmem
      cases heq
      exact h.mem_records_iff.1 hr
    · intro hw
      obtain ⟨hu, hv⟩ := lt_of_findEdgeWeight hw
      have hmem : ⟨⟨v, hv⟩, w⟩ ∈ a.records ⟨u, hu⟩ := h.mem_records_iff.2 hw
      refine ⟨_, Plain.getElem?_plain a ⟨u, hu⟩, ?_⟩
      simpa [Row.plain] using ⟨_, hmem, rfl⟩
  | grid a =>
    have hcell (u v : Fin n) : (a.present.toArray[u.val * n + v.val]? = some true ∧
        a.weights.toArray[u.val * n + v.val]? = some w) ↔ a.weight? u v = some w := by
      rw [Plain.getElem?_present, Plain.getElem?_weights, Grid.weight?]
      cases a.contains u v <;> simp
    constructor
    · rintro ⟨hu, hv, hset⟩
      rw [findEdgeWeight_val _ ⟨u, hu⟩ ⟨v, hv⟩]
      exact (hcell ⟨u, hu⟩ ⟨v, hv⟩).1 hset
    · intro hw
      obtain ⟨hu, hv⟩ := lt_of_findEdgeWeight hw
      rw [findEdgeWeight_val _ ⟨u, hu⟩ ⟨v, hv⟩] at hw
      exact ⟨hu, hv, (hcell ⟨u, hu⟩ ⟨v, hv⟩).2 hw⟩

theorem Reachable.wellFormed_storage (h : g.Reachable) : g.plain.storage.WellFormed n := by
  have hdistinct := h.distinct
  have hblank := h.blank
  obtain ⟨kind, a, count⟩ := g
  cases a with
  | rows a =>
    refine ⟨by simp [Rows.plain], fun row hrow => ?_⟩
    obtain ⟨u, hu⟩ : ∃ u : Fin n, (a.records u).plain = row := by
      obtain ⟨i, hi, rfl⟩ := Array.mem_iff_getElem.1 hrow
      have hi' : i < n := by simpa [Rows.plain] using hi
      exact ⟨⟨i, hi'⟩, by simp [Rows.plain, Rows.records, Vector.get]⟩
    subst hu
    constructor
    · intro r hr
      obtain ⟨r', -, rfl⟩ : ∃ r' ∈ a.records u, r'.plain = r := by simpa [Row.plain] using hr
      exact r'.target.isLt
    · have htargets : ((a.records u).plain.map (·.target)).toList = (a.records u).targets.map Fin.val := by
        simp [Row.plain, Row.targets, Record.plain]
      rw [htargets]
      exact (hdistinct u).map Fin.val_injective
  | grid a =>
    refine ⟨rfl, by simp, by simp, fun i hi => ?_⟩
    obtain ⟨hlt, -⟩ := Array.getElem?_eq_some_iff.1 hi
    have hlt : i < n * n := by simpa using hlt
    have hpos : 0 < n := h.vertexCount_pos
    -- every cell is that of two vertices
    have hcell : i / n * n + i % n = i := Nat.div_add_mod' i n
    have hunset := Plain.getElem?_present a ⟨i / n, Nat.div_lt_of_lt_mul hlt⟩ ⟨i % n, Nat.mod_lt i hpos⟩
    have hzero := Plain.getElem?_weights a ⟨i / n, Nat.div_lt_of_lt_mul hlt⟩ ⟨i % n, Nat.mod_lt i hpos⟩
    simp only [hcell] at hunset hzero
    rw [hzero, hblank _ _ (Option.some.inj (hunset.symm.trans hi))]

theorem Reachable.wellFormed_plain (h : g.Reachable) : g.plain.WellFormed := by
  obtain ⟨m, hm, hkeys⟩ := h.represents
  refine ⟨h.vertexCount_pos, h.wellFormed_storage, ?_, ?_⟩
  · intro hkind u v w hw
    rw [h.holds_iff, hm.findEdgeWeight] at hw ⊢
    have hkind : g.kind = .undirected := hkind
    rw [hkind, GraphKind.key_swap]
    rw [hkind] at hw
    split at hw
    · rename_i hin
      rw [if_pos hin.symm, hw]
    · contradiction
  · have hset : {k | ∃ u v w, g.plain.storage.Holds u v w ∧ g.plain.kind.key u v = k} = ↑m.keys := by
      ext k
      rw [Finset.mem_coe, Finmap.mem_keys]
      constructor
      · rintro ⟨u, v, w, hw, rfl⟩
        rw [h.holds_iff, hm.findEdgeWeight] at hw
        split at hw
        · exact Finmap.mem_of_lookup_eq_some hw
        · contradiction
      · intro hk
        obtain ⟨u, v, rfl⟩ := hkeys k hk
        obtain ⟨w, hw⟩ := Option.isSome_iff_exists.1 (Finmap.lookup_isSome.2 hk)
        refine ⟨u, v, w, ?_, rfl⟩
        rw [h.holds_iff, hm.findEdgeWeight, if_pos ⟨u.isLt, v.isLt⟩, hw]
    rw [hset, Set.ncard_coe_finset]
    exact hm.edgeCount

/-- Where there is an edge to take out, there is one to count. -/
theorem Reachable.edgeCount_pos (h : g.Reachable) {u v : Fin n} (hstored : (g.adjacency.weight? u v).isSome) :
    0 < g.edgeCount := by
  obtain ⟨m, hm, -⟩ := h.represents
  rw [hm.edgeCount, Finset.card_pos]
  rw [hm.weight?, Finmap.lookup_isSome] at hstored
  exact ⟨_, Finmap.mem_keys.2 hstored⟩

/-! ### Operations on the arrays -/

/-- On the arrays of a graph each operation, called with whatever arguments, has a value, which is what the graph
answers, and leaves the arrays of the graph that comes after. -/
structure RunsOnArrays (g : Graph n) : Prop where
  addEdge (u v : Nat) (w : Weight) : g.plain.addEdge? u v w = some ((g.addEdge u v w).map (·.result) plain)
  addEdgeUnweighted (u v : Nat) :
    g.plain.addEdgeUnweighted? u v = some ((g.addEdgeUnweighted u v).map (·.result) plain)
  setEdgeWeight (u v : Nat) (w : Weight) :
    g.plain.setEdgeWeight? u v w = some ((g.setEdgeWeight u v w).map (·.result) plain)
  removeEdge (u v : Nat) : g.plain.removeEdge? u v = some ((g.removeEdge u v).map (·.result) plain)
  clear : g.plain.clear = g.clear.2.plain
  copy (r : Representation) : g.plain.copy? r = some ((g.copy r).result.map plain)
  convert (r : Representation) : g.plain.convert? r = some ((g.convert r).map (·.result) plain)
  hasEdge (u v : Nat) : g.plain.hasEdge? u v = some (g.hasEdge u v)
  findEdgeWeight (u v : Nat) : g.plain.findEdgeWeight? u v = some (g.findEdgeWeight u v)
  edgeWeight (u v : Nat) : g.plain.edgeWeight? u v = some (g.edgeWeight u v)
  degree (v : Nat) : g.plain.degree? v = some (g.degree v)
  inDegree (v : Nat) : g.plain.inDegree? v = some (g.inDegree v)
  neighbors (v : Nat) (calls : List CursorCall) :
    g.plain.neighborCalls? v calls = some ((g.neighbors v).map (·.performAll calls))
  edges (calls : List CursorCall) : g.plain.edges.performAll? calls = some (g.edges.performAll calls)
  foldBreadthFirst {β : Type} (start : Nat) (visit : β → Nat → β) (value : β) :
    g.plain.foldBreadthFirst? start visit value = some (g.foldBreadthFirst start visit value).result
  foldDepthFirst {β : Type} (start : Nat) (visit : β → Nat → β) (value : β) :
    g.plain.foldDepthFirst? start visit value = some (g.foldDepthFirst start visit value).result
  breadthFirstOrder (start : Nat) : g.plain.breadthFirstOrder? start = some (g.breadthFirstOrder start).result
  depthFirstOrder (start : Nat) : g.plain.depthFirstOrder? start = some (g.depthFirstOrder start).result
  isConnectedFrom (start : Nat) : g.plain.isConnectedFrom? start = some (g.isConnectedFrom start).result
  shortestPaths (source : Nat) :
    g.plain.shortestPaths? source = some ((g.shortestPaths source).result.map ShortestPaths.plain)
  distancesFrom (source : Nat) :
    g.plain.distancesFrom? source = some ((g.distancesFrom source).result.map Vector.toArray)
  pathTo {source : Nat} {p : ShortestPaths n} (hp : (g.shortestPaths source).result = .ok p) (target : Nat) :
    Plain.ShortestPaths.pathTo? p.plain.1 p.plain.2 target = some (p.pathTo target)

/-- The way back from a vertex at a finite distance has an end. -/
theorem Reachable.isSome_pathTo (h : g.Reachable) {source : Nat} {p : ShortestPaths n}
    (hp : (g.shortestPaths source).result = .ok p) {target : Nat} (ht : p.isReachable target = true) :
    (p.pathTo target).isSome := by
  by_cases hs : source < n
  · obtain rfl := Except.ok.inj ((g.shortestPaths_of_lt hs).symm.trans hp)
    have htree := ShortestPaths.isTree_result (ShortestPaths.State.tree_run g.adjacency.records ⟨source, hs⟩)
    by_contra hnone
    rw [Option.not_isSome_iff_eq_none, htree.pathTo_eq_none_iff h] at hnone
    rcases hnone with hle | ⟨d, hd, hinfinite⟩
    · simp [ShortestPaths.isReachable, ShortestPaths.distance?, Nat.not_lt.2 hle] at ht
    · simp [ShortestPaths.isReachable, hd, hinfinite] at ht
  · rw [shortestPaths, checkVertex_of_le (Nat.not_lt.1 hs)] at hp
    contradiction

/-- The arrays of a reachable graph are well-formed, and nothing that is done to it leaves them or does not end. -/
theorem reachable_runsOnArrays (h : g.Reachable) : g.plain.WellFormed ∧ g.RunsOnArrays := by
  refine ⟨h.wellFormed_plain, ?_⟩
  exact {
    addEdge := g.addEdge?_plain
    addEdgeUnweighted := fun u v => g.addEdge?_plain u v unitWeight
    setEdgeWeight := g.addEdge?_plain
    removeEdge := g.removeEdge?_plain fun _ _ => h.edgeCount_pos
    clear := g.clear_plain
    copy := g.copy?_plain
    convert := g.convert?_plain
    hasEdge := g.hasEdge?_plain
    findEdgeWeight := g.findEdgeWeight?_plain
    edgeWeight := g.edgeWeight?_plain
    degree := g.degree?_plain
    inDegree := g.inDegree?_plain
    neighbors := g.neighborCalls?_plain
    edges := g.edgeCalls_plain
    foldBreadthFirst := g.foldBreadthFirst?_plain
    foldDepthFirst := g.foldDepthFirst?_plain
    breadthFirstOrder := fun start => g.foldBreadthFirst?_plain start Array.push #[]
    depthFirstOrder := fun start => g.foldDepthFirst?_plain start Array.push #[]
    isConnectedFrom := g.isConnectedFrom?_plain
    shortestPaths := g.shortestPaths?_plain
    distancesFrom := g.distancesFrom?_plain
    pathTo := fun hp _ => ShortestPaths.pathTo?_plain (h.isSome_pathTo hp) }

/-- An undirected edge is taken out from its other end. -/
theorem reachable_runsOnArrays_other_end :
    let g : Graph 2 := ((⟨.undirected, .grid (.empty 2), 0⟩ : Graph 2).addEdge 0 1 2.5).2
    g.plain = ⟨.matrix #[0.0, 2.5, 2.5, 0.0] #[false, true, true, false] 2, 2, 1, .undirected⟩ ∧ g.plain.WellFormed ∧
      g.plain.removeEdge? 1 0 =
        some (.ok true, ⟨.matrix (.replicate 4 0.0) (.replicate 4 false) 2, 2, 0, .undirected⟩) := by
  intro g
  have hnew : (create 2 .undirected .adjacencyMatrix).result = .ok ⟨.undirected, .grid (.empty 2), 0⟩ := rfl
  have hg : g.Reachable := (Reachable.create hnew).addEdge 0 1 2.5
  obtain ⟨hwellFormed, hruns⟩ := reachable_runsOnArrays hg
  exact ⟨rfl, hwellFormed, hruns.removeEdge 1 0⟩

end Graph

end WeightedGraph
