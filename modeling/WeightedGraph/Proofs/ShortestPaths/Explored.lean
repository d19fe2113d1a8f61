import WeightedGraph.Proofs.Graph.Connected

/-!
# What a search for shortest paths reaches

Whatever the weights are, a search reaches nothing but what walks lead to: every vertex with a predecessor, every vertex
at a finite distance and every vertex on a path is visited by the traversals (`IsTree.exists_walk_of_reached`,
`IsTree.reached_of_mem_pathTo`).  It may miss some of that: an edge from a vertex that is final has reached its target
unless the way along it is not shorter than infinity (`State.Explored`).  No way is that long if all weights are finite
and the sums along walks without repeated vertices do not overflow, as the ways of a search are such walks.  Then the
search reaches all that walks lead to, as the traversals do, and the graph is connected from the source if and only if
it reaches all vertices (`Graph.shortestPaths_reaches`).
-/

namespace WeightedGraph

namespace ShortestPaths

variable {n : Nat} {records : Fin n → Row (Fin n)} {source : Fin n}

/-! ### Edges from final vertices -/

/-- All edges from final vertices but the pending ones have reached their targets, unless the way along them is not
shorter than infinity. -/
def State.Explored (records : Fin n → Row (Fin n)) (source : Fin n) (pending : Fin n → Record (Fin n) → Prop)
    (s : State n) : Prop :=
  ∀ u r, s.finalized.contains u = true → r ∈ records u → ¬ pending u r →
    (s.result source).Reached r.target ∨ ¬ s.distances.get u + r.weight < infinity

namespace State

theorem explored_initial : (initial source).Explored records source fun _ _ => False := by
  intro u r hu
  simp at hu

theorem reached_shorten {s : State n} {u v x : Fin n} {d : Weight}
    (hx : v = x ∨ (s.result source).Reached x) : ((s.shorten u v d).result source).Reached x := by
  have hpred := predecessors_shorten s u v x d
  by_cases hv : v = x
  · exact .inr ⟨u, hpred.trans (if_pos hv)⟩
  · exact (hx.resolve_left hv).imp_right fun ⟨y, hy⟩ => ⟨y, hpred.trans ((if_neg hv).trans hy)⟩

namespace Explored

variable {s : State n} {u : Fin n} {r : Record (Fin n)} {rs : Row (Fin n)}

theorem relax (h : s.Explored records source fun x r' => x = u ∧ r' ∈ r :: rs) (htree : s.Tree records source) :
    (s.relax u r).Explored records source fun x r' => x = u ∧ r' ∈ rs := by
  intro x r' hx hr hr'
  have hpending := eq_or_not_pending_cons r hr'
  rcases s.relax_cases u r with ⟨heq, hcase⟩ | ⟨heq, hv, hlt⟩
  · rw [heq] at hx ⊢
    rcases hpending with ⟨rfl, rfl⟩ | hr'
    · rcases hcase with hv | hlt
      · exact .inl (htree.reached r'.target hv)
      · -- what has not been reached is infinitely far away
        refine or_iff_not_imp_left.2 fun hnot => ?_
        have hinfinite : s.distances.get r'.target = infinity := (isTree_result htree).infinite r'.target hnot
        rwa [hinfinite] at hlt
    · exact h x r' hx hr hr'
  · rw [heq] at hx ⊢
    rcases hpending with ⟨rfl, rfl⟩ | hr'
    · exact .inl (reached_shorten (.inl rfl))
    · rw [distances_shorten, if_neg (VertexSet.ne_of_contains hx hv).symm]
      exact (h x r' hx hr hr').imp_left fun hreached => reached_shorten (.inr hreached)

/-- When all its edges are relaxed, nothing is pending. -/
theorem foldl_relax (h : s.Explored records source fun x r => x = u ∧ r ∈ rs) (htree : s.Tree records source)
    (hu : s.finalized.contains u = true) (hrs : ∀ r ∈ rs, r ∈ records u) :
    (rs.foldl (State.relax u) s).Explored records source fun _ _ => False := by
  induction rs generalizing s with
  | nil => exact fun x r hx hr _ => h x r hx hr (by simp)
  | cons r rs ih =>
    refine ih (h.relax htree) (htree.relax hu (hrs r List.mem_cons_self)) ?_ fun r' hr' => ?_
    · rwa [finalized_relax]
    · exact hrs r' (List.mem_cons_of_mem _ hr')

/-- The edges from a vertex that becomes final are pending. -/
theorem settle (h : s.Explored records source fun _ _ => False) (u : Fin n)
    (frontier : PriorityQueue (Tentative n) Tentative.compare) :
    (s.settle u frontier).Explored records source fun x r => x = u ∧ r ∈ records u := by
  intro x r hx hr hpending
  rcases VertexSet.contains_insert_iff.1 hx with rfl | hx
  · exact absurd ⟨rfl, hr⟩ hpending
  · exact h x r hx hr not_false

theorem step (h : s.Explored records source fun _ _ => False) (htree : s.Tree records source)
    (hdone : s.isDone = false) : (s.step records).Explored records source fun _ _ => False := by
  obtain ⟨e, frontier, hx, hcases⟩ := step_cases records hdone
  obtain ⟨⟨entry, hentry, rfl⟩, hsub⟩ := PriorityQueue.mem_heap_of_extractMin hx
  rcases hcases with ⟨-, heq⟩ | ⟨hu, heq⟩
  · rw [heq]
    exact h
  · rw [heq]
    exact (h.settle _ frontier).foldl_relax (htree.settle hu (htree.entries entry hentry) hsub)
      (VertexSet.contains_insert_iff.2 (.inl rfl)) fun r hr => hr

end Explored

theorem explored_run (records : Fin n → Row (Fin n)) (source : Fin n) :
    (run records source).Explored records source fun _ _ => False := by
  refine (repeatUntil_induction
    (P := fun s : State n => s.Tree records source ∧ s.Explored records source fun _ _ => False)
    ⟨tree_initial records source, explored_initial⟩ ?_).2
  rintro s ⟨htree, hexplored⟩ hdone
  exact ⟨htree.step hdone, hexplored.step htree hdone⟩

/-- At the end of a search what has been reached is final. -/
theorem finalized_of_reached {v : Fin n} (h : ((run records source).result source).Reached v) :
    (run records source).finalized.contains v = true := by
  have htree := tree_run records source
  obtain ⟨held, hheld⟩ := exists_frontierHolds_run records source
  by_contra hv
  refine hheld.infinite_of_isDone (done_repeatUntil _) (Bool.eq_false_of_not_eq_true hv) ?_
  rcases h with rfl | ⟨u, hu⟩
  · rw [State.Tree.distance_source htree]
    exact Weight.lt_infinity_of_isFinite (by decide)
  · exact (htree.edge u v hu).2.1

end State

/-! ### Walks of a tree -/

namespace IsTree

variable {p : ShortestPaths n} {g : Graph n}

/-- Going back from a vertex that has been reached meets no other vertices. -/
theorem reached_of_mem_traceWithin (h : p.IsTree records) {count : Nat} {v : Fin n} {rest path : List Nat}
    (hv : p.Reached v) (htrace : p.traceWithin count v rest = some path) {x : Nat} (hx : x ∈ path) :
    x ∈ rest ∨ ∃ y : Fin n, y.val = x ∧ p.Reached y := by
  induction count generalizing v rest with
  | zero => contradiction
  | succ count ih =>
    rw [traceWithin] at htrace
    cases hpred : p.predecessors.get v with
    | none =>
      rw [hpred] at htrace
      obtain rfl := Option.some.inj htrace
      rcases List.mem_cons.1 hx with rfl | hx
      · exact .inr ⟨v, rfl, hv⟩
      · exact .inl hx
    | some u =>
      rw [hpred] at htrace
      rcases ih (h.edge u v hpred).1 htrace with hx | hx
      · rcases List.mem_cons.1 hx with rfl | hx
        · exact .inr ⟨v, rfl, hv⟩
        · exact .inl hx
      · exact .inr hx

/-- Walks lead to what has been reached. -/
theorem exists_walk_of_reached (hg : g.Reachable) (h : p.IsTree g.adjacency.records) {v : Fin n} (hv : p.Reached v) :
    ∃ path d, g.Walk p.source v path d := by
  obtain ⟨path, -, hwalk, -⟩ := exists_path hg h hv
  exact ⟨path, _, hwalk⟩

theorem reached_of_mem_pathTo (h : p.IsTree records) {t : Nat} {path : List Nat} (hpath : p.pathTo t = some path)
    {x : Nat} (hx : x ∈ path) : ∃ y : Fin n, y.val = x ∧ p.Reached y := by
  by_cases ht : n ≤ t
  · rw [pathTo_of_le ht] at hpath
    contradiction
  · lift t to Fin n using Nat.not_le.1 ht
    rw [pathTo_val] at hpath
    split at hpath
    · rename_i hfinite
      exact (h.reached_of_mem_traceWithin (h.reached_of_isFinite hfinite) hpath hx).resolve_left List.not_mem_nil
    · contradiction

/-- Predecessors, finite distances and paths are those of vertices that have been reached. -/
theorem exists_reached (h : p.IsTree records) {v : Nat}
    (hv : (p.predecessor? v).isSome ∨ p.isReachable v = true ∨ ∃ t path, p.pathTo t = some path ∧ v ∈ path) :
    ∃ x : Fin n, x.val = v ∧ p.Reached x := by
  rcases hv with hpred | hfinite | ⟨t, path, hpath, hmem⟩
  · obtain ⟨u, hu⟩ := Option.isSome_iff_exists.1 hpred
    refine ⟨⟨v, lt_of_predecessor? hu⟩, rfl, .inr ⟨u, ?_⟩⟩
    rw [← predecessor?_val]
    exact hu
  · have hlt : v < n := by
      by_contra hle
      simp [isReachable, distance?, hle] at hfinite
    refine ⟨⟨v, hlt⟩, rfl, h.reached_of_isFinite ?_⟩
    rw [← isReachable_val]
    exact hfinite
  · exact h.reached_of_mem_pathTo hpath hmem

theorem isSome_pathTo_iff (hg : g.Reachable) (h : p.IsTree g.adjacency.records) (t : Fin n) :
    (p.pathTo t).isSome ↔ p.isReachable t = true := by
  rw [isReachable_val]
  rcases h.pathTo_cases hg t with ⟨hfinite, hnone⟩ | ⟨hfinite, path, hpath, -⟩
  · simp [hnone, hfinite]
  · simp [hpath, hfinite]

end IsTree

end ShortestPaths

namespace Graph

open ShortestPaths

variable {n : Nat} {g : Graph n}

/-- If the weights are finite and the sums along walks without repeated vertices do not overflow, such walks are of
finite length. -/
theorem Walk.isFinite {source v : Nat} {path : List Nat} {d : Weight}
    (hweights : ∀ u v w, g.findEdgeWeight u v = some w → w.isFinite = true)
    (hsums : ∀ v path d, g.Walk source v path d → path.Nodup → d.isInf = false) (h : g.Walk source v path d)
    (hnodup : path.Nodup) : d.isFinite = true := by
  induction h with
  | start => decide
  | extend h hw ih =>
    rw [Weight.isFinite_iff_not_isInf]
    have hd := ih (List.Nodup.of_append_left hnodup)
    exact ⟨Weight.isNaN_add hd (hweights _ _ _ hw), hsums _ _ _ (h.extend hw) hnodup⟩

/-- A search reaches all that walks lead to if the weights are finite and the sums along walks without repeated vertices
do not overflow. -/
theorem reached_of_walk (hg : g.Reachable) {source : Fin n}
    (hweights : ∀ u v w, g.findEdgeWeight u v = some w → w.isFinite = true)
    (hsums : ∀ v path d, g.Walk source v path d → path.Nodup → d.isInf = false) {v : Nat} {path : List Nat}
    {d : Weight} (hwalk : g.Walk source v path d) {x : Fin n} (hx : x.val = v) :
    ((run g.adjacency.records source).result source).Reached x := by
  have htree := isTree_result (State.tree_run g.adjacency.records source)
  induction hwalk generalizing x with
  | start => exact .inl (Fin.ext hx)
  | @extend u v path d w hwalk hw ih =>
    subst hx
    have hu : ((run g.adjacency.records source).result source).Reached ⟨u, hwalk.lt⟩ := ih rfl
    obtain ⟨back, htrace, hback, hnodup⟩ := IsTree.exists_path hg htree hu
    -- the walk that the search has found to `u`, not the one that is given, is without repeated vertices
    by_cases hmem : x.val ∈ back
    · have htrace := htrace []
      rw [List.append_nil] at htrace
      obtain ⟨y, hy, hreached⟩ := (htree.reached_of_mem_traceWithin hu htrace hmem).resolve_left List.not_mem_nil
      exact Fin.ext hy ▸ hreached
    · have hlonger : (back ++ [x.val]).Nodup := by
        rw [← List.concat_eq_append, List.nodup_concat]
        exact ⟨hmem, hnodup⟩
      have hfinite := (hback.extend hw).isFinite hweights hsums hlonger
      have hexplored := State.explored_run g.adjacency.records source ⟨u, hwalk.lt⟩ ⟨x, w⟩
        (State.finalized_of_reached hu) (hg.mem_records_iff.2 hw) not_false
      exact hexplored.resolve_right (not_not_intro (Weight.lt_infinity_of_isFinite hfinite))

/-- A search reaches only what the traversals visit, and all of that if all weights are finite and no sum along a walk
without repeated vertices overflows. -/
theorem shortestPaths_reaches (hg : g.Reachable) {s : Nat} (hs : s < n) :
    ∃ p breadth depth b, (g.shortestPaths s).result = .ok p ∧
      (g.breadthFirstOrder s).result = .ok (List.toArray breadth) ∧
      (g.depthFirstOrder s).result = .ok (List.toArray depth) ∧
      (g.isConnectedFrom s).result = .ok b ∧
      (∀ v, ((p.predecessor? v).isSome ∨ p.isReachable v = true ∨ ∃ t path, p.pathTo t = some path ∧ v ∈ path) →
        v ∈ breadth ∧ v ∈ depth) ∧
      ((∀ u v w, g.findEdgeWeight u v = some w → w.isFinite = true) →
        (∀ v path d, g.Walk s v path d → path.Nodup → d.isInf = false) →
        (∀ v < n, (p.isReachable v = true ↔ v ∈ breadth) ∧ (v ∈ breadth ↔ v ∈ depth) ∧
          (v ∈ depth ↔ (p.pathTo v).isSome)) ∧
        (b = true ↔ ∀ v < n, p.isReachable v = true)) := by
  lift s to Fin n using hs
  obtain ⟨b, hb, hconnected⟩ := isConnectedFrom_iff (g := g) s.isLt
  let p := (run g.adjacency.records s).result s
  have htree : p.IsTree g.adjacency.records := isTree_result (State.tree_run g.adjacency.records s)
  refine ⟨p, g.breadthFirstList s, g.depthFirstList s, b, g.shortestPaths_of_lt s.isLt, g.breadthFirstOrder_eq s,
    g.depthFirstOrder_eq s, hb, fun v hv => ?_, fun hweights hsums => ?_⟩
  · obtain ⟨x, rfl, hx⟩ := htree.exists_reached hv
    rw [mem_breadthFirstList_iff, mem_depthFirstList_iff]
    exact ⟨htree.exists_walk_of_reached hg hx, htree.exists_walk_of_reached hg hx⟩
  · have hreachable (v : Nat) (hv : v < n) : p.isReachable v = true ↔ ∃ path d, g.Walk s v path d := by
      lift v to Fin n using hv
      constructor
      · intro hfinite
        obtain ⟨x, hx, hreached⟩ := htree.exists_reached (.inr (.inl hfinite))
        exact hx ▸ htree.exists_walk_of_reached hg hreached
      · rintro ⟨path, d, hwalk⟩
        obtain ⟨path, -, hwalk, hnodup⟩ :=
          IsTree.exists_path hg htree (reached_of_walk hg hweights hsums hwalk rfl)
        rw [isReachable_val]
        exact hwalk.isFinite hweights hsums hnodup
    refine ⟨fun v hv => ⟨?_, ?_, ?_⟩, hconnected.trans (forall₂_congr fun v hv => (hreachable v hv).symm)⟩
    · rw [hreachable v hv, mem_breadthFirstList_iff]
    · rw [mem_breadthFirstList_iff, mem_depthFirstList_iff]
    · rw [mem_depthFirstList_iff, ← hreachable v hv]
      exact (htree.isSome_pathTo_iff hg ⟨v, hv⟩).symm

/-- An edge of negative weight can be walked back and forth for ever, but not without repeated vertices. -/
theorem shortestPaths_reaches_negative_cycle :
    let g : Graph 2 := ((⟨.undirected, .rows (.empty 2), 0⟩ : Graph 2).addEdge 0 1 (-1.0)).2
    ∃ p, (g.shortestPaths 0).result = .ok p ∧ p.isReachable 1 = true ∧ (p.pathTo 1).isSome := by
  intro g
  have hempty : (create 2 .undirected .adjacencyList).result = .ok ⟨.undirected, .rows (.empty 2), 0⟩ := rfl
  have hg : g.Reachable := (Reachable.create hempty).addEdge 0 1 (-1.0)
  have hstored : ∀ u v : Fin 2, ∀ w ∈ g.adjacency.weight? u v, u ≠ v ∧ w = -1.0 := by decide
  have hedge : ∀ u v w, g.findEdgeWeight u v = some w → (u = 0 ∧ v = 1 ∨ u = 1 ∧ v = 0) ∧ w = -1.0 := by
    intro u v w hw
    obtain ⟨hu, hv⟩ := lt_of_findEdgeWeight hw
    rw [findEdgeWeight_val g ⟨u, hu⟩ ⟨v, hv⟩] at hw
    obtain ⟨hne, hw⟩ := hstored _ _ w hw
    have hne : u ≠ v := fun huv => hne (Fin.ext huv)
    exact ⟨by omega, hw⟩
  have hwalks : ∀ v path d, g.Walk 0 v path d →
      v = 0 ∧ path = [0] ∧ d = 0.0 ∨ v = 1 ∧ path = [0, 1] ∧ d = 0.0 + -1.0 ∨ ¬ path.Nodup := by
    intro v path d hwalk
    induction hwalk with
    | start => exact .inl ⟨rfl, rfl, rfl⟩
    | @extend u v path d w _ hw ih =>
      obtain ⟨hends, rfl⟩ := hedge u v w hw
      rcases ih with ⟨rfl, rfl, rfl⟩ | ⟨rfl, rfl, rfl⟩ | hnodup
      · obtain rfl : v = 1 := by omega
        exact .inr (.inl ⟨rfl, rfl, rfl⟩)
      · obtain rfl : v = 0 := by omega
        exact .inr (.inr (by decide))
      · exact .inr (.inr fun h => hnodup (List.Nodup.of_append_left h))
  have hsums : ∀ v path d, g.Walk 0 v path d → path.Nodup → d.isInf = false := by
    intro v path d hwalk hnodup
    rcases hwalks v path d hwalk with ⟨-, -, rfl⟩ | ⟨-, -, rfl⟩ | hnot
    · decide
    · decide
    · exact absurd hnodup hnot
  have hfinite : ∀ u v w, g.findEdgeWeight u v = some w → w.isFinite = true := by
    intro u v w hw
    rw [(hedge u v w hw).2]
    decide
  obtain ⟨p, breadth, depth, b, hp, hbreadth, -, -, -, hreaches⟩ := shortestPaths_reaches hg (s := 0) (by decide)
  obtain ⟨hreach, hdepth, hpath⟩ := (hreaches hfinite hsums).1 1 (by decide)
  have hvisited : 1 ∈ breadth := by
    have hsame : breadth = g.breadthFirstList 0 := by simpa using hbreadth.symm.trans (g.breadthFirstOrder_eq 0)
    have hfirst : g.findEdgeWeight 0 1 = some (-1.0) := rfl
    rw [hsame, mem_breadthFirstList_iff]
    exact ⟨_, _, .extend (.start (by decide)) hfirst⟩
  exact ⟨p, hp, hreach.2 hvisited, hpath.1 (hdepth.1 hvisited)⟩

end Graph

end WeightedGraph
