import WeightedGraph.Graph.Search
import WeightedGraph.Proofs.Graph.Reachable
import WeightedGraph.Proofs.Graph.Walk
import WeightedGraph.Proofs.ShortestPaths.Tree

/-!
# Paths of the tree

The result of a search is a tree (`IsTree`), whatever the weights are.  Nothing but a vertex without a predecessor
stops going back (`traceBack_eq`).  From a vertex that has been reached it ends at the source, and the way there is
a walk without repeated vertices whose length is the distance of the vertex (`IsTree.exists_path`).
`Graph.shortestPaths_tree` collects what this says about the results of `Graph.shortestPaths`.
-/

namespace WeightedGraph

namespace ShortestPaths

variable {n : Nat} {records : Fin n → Row (Fin n)} {p : ShortestPaths n}

/-- The vertex that is `k` steps back from `v`. -/
def ancestor? (p : ShortestPaths n) (v : Fin n) : Nat → Option (Fin n)
  | 0 => some v
  | k + 1 => (p.ancestor? v k).bind fun u => p.predecessor? u

/-- The source has been reached, and so has what has a predecessor. -/
def Reached (p : ShortestPaths n) (v : Fin n) : Prop := v = p.source ∨ ∃ u, p.predecessors.get v = some u

/-- Predecessors have been reached before and lead along edges to the distances they have given. -/
structure IsTree (records : Fin n → Row (Fin n)) (p : ShortestPaths n) : Prop where
  edge : ∀ u v, p.predecessors.get v = some u → p.Reached u ∧ p.distances.get v < infinity ∧
    ∃ w, ⟨v, w⟩ ∈ records u ∧ p.distances.get v = p.distances.get u + w
  infinite : ∀ v, ¬ p.Reached v → p.distances.get v = infinity
  predecessor_source : p.predecessors.get p.source = none
  distance_source : p.distances.get p.source = 0.0
  ranked : ∃ rank : Fin n → Nat, ∀ u v, p.predecessors.get v = some u → rank u < rank v

theorem isTree_result {s : State n} {source : Fin n} (h : s.Tree records source) :
    (s.result source).IsTree records where
  edge u v hpred :=
    ⟨h.reached u (h.edge u v hpred).1, (h.edge u v hpred).2⟩
  infinite v hv := by
    rw [Reached, not_or, not_exists] at hv
    exact h.infinite v hv.1 (Option.eq_none_iff_forall_ne_some.2 hv.2)
  predecessor_source := h.predecessor_source
  distance_source := h.distance_source
  ranked := by
    obtain ⟨rank, hrank⟩ := h.ranked
    -- what is not finalized comes after what is
    refine ⟨fun v => if s.finalized.contains v = true then rank v else s.settled, fun u v hpred => ?_⟩
    have hu := (h.edge u v hpred).1
    simp only [hu, ↓reduceIte]
    split
    · rename_i hv
      exact (hrank v hv).2 u hpred
    · exact (hrank u hu).1

@[simp] theorem predecessor?_val (p : ShortestPaths n) (v : Fin n) : p.predecessor? v = p.predecessors.get v := by
  simp [predecessor?, Vector.get]

@[simp] theorem distance?_val (p : ShortestPaths n) (v : Fin n) : p.distance? v = some (p.distances.get v) := by
  simp [distance?, Vector.get]

theorem isReachable_val (p : ShortestPaths n) (v : Fin n) : p.isReachable v = (p.distances.get v).isFinite := by
  rw [isReachable, distance?_val, Option.any_some]

theorem ancestor?_add (v : Fin n) (i j : Nat) :
    p.ancestor? v (i + j) = (p.ancestor? v i).bind fun x => p.ancestor? x j := by
  induction j with
  | zero => simp [ancestor?]
  | succ j ih => rw [← Nat.add_assoc, ancestor?, ih, Option.bind_assoc]; rfl

theorem ancestor?_of_predecessor {u v : Fin n} (h : p.predecessors.get v = some u) (k : Nat) :
    p.ancestor? v (k + 1) = p.ancestor? u k := by
  rw [Nat.add_comm, ancestor?_add]
  simp [ancestor?, h]

theorem ancestor?_of_no_predecessor {v : Fin n} (h : p.predecessors.get v = none) (k : Nat) :
    p.ancestor? v (k + 1) = none := by
  rw [Nat.add_comm, ancestor?_add]
  simp [ancestor?, h]

theorem ancestor?_isSome_of_le {v : Fin n} {i j : Nat} (hij : i ≤ j) (hj : (p.ancestor? v j).isSome) :
    (p.ancestor? v i).isSome := by
  obtain ⟨k, rfl⟩ := Nat.exists_eq_add_of_le hij
  rw [ancestor?_add] at hj
  exact Option.isSome_of_isSome_bind hj

/-- Among more than `n` vertices going back one is met twice, and from there on they repeat for ever. -/
theorem ancestor?_isSome_succ {v : Fin n} (h : (p.ancestor? v n).isSome) : (p.ancestor? v (n + 1)).isSome := by
  have hback (i : Fin (n + 1)) : (p.ancestor? v i).isSome := ancestor?_isSome_of_le (Nat.le_of_lt_succ i.isLt) h
  obtain ⟨i, j, hne, heq⟩ := Fintype.exists_ne_map_eq_of_card_lt
    (fun i : Fin (n + 1) => (p.ancestor? v i).get (hback i)) (by simp)
  wlog hij : i < j generalizing i j
  · exact this j i hne.symm heq.symm (by omega)
  have hsame : p.ancestor? v i = p.ancestor? v j := Option.get_inj.1 heq
  have hj : n + 1 = j + (n + 1 - j) := by omega
  rw [hj, ancestor?_add, ← hsame, ← ancestor?_add]
  exact ancestor?_isSome_of_le (by omega) h

theorem traceWithin_isSome (count : Nat) (v : Fin n) (rest : List Nat) :
    (p.traceWithin count v rest).isSome ↔ p.ancestor? v count = none := by
  induction count generalizing v rest with
  | zero => simp [traceWithin, ancestor?]
  | succ count ih =>
    cases hv : p.predecessors.get v with
    | none => simp [traceWithin, hv, ancestor?_of_no_predecessor hv]
    | some u => simp only [traceWithin, hv, ih, ancestor?_of_predecessor hv]

theorem traceWithin_succ {count : Nat} {v : Fin n} {rest path : List Nat}
    (h : p.traceWithin count v rest = some path) : p.traceWithin (count + 1) v rest = some path := by
  induction count generalizing v rest with
  | zero => contradiction
  | succ count ih =>
    rw [traceWithin] at h ⊢
    cases hv : p.predecessors.get v with
    | none => simpa [hv] using h
    | some u =>
      simp only [hv] at h ⊢
      exact ih h

/-- Going back ends where there is no predecessor and goes on from the predecessor otherwise: nothing else stops
it. -/
theorem traceBack_eq (p : ShortestPaths n) (v : Fin n) (rest : List Nat) :
    p.traceBack v rest =
      match p.predecessors.get v with
      | none => some (v.val :: rest)
      | some u => p.traceBack u (v.val :: rest) := by
  show p.traceWithin n v rest = p.traceWithin (n + 1) v rest
  cases htrace : p.traceWithin n v rest with
  | some path => exact (traceWithin_succ htrace).symm
  | none =>
    have hn : (p.ancestor? v n).isSome := by
      rw [Option.isSome_iff_ne_none, Ne, ← traceWithin_isSome n v rest, htrace]
      simp
    have hsucc := ancestor?_isSome_succ hn
    rw [Option.isSome_iff_ne_none, Ne, ← traceWithin_isSome (n + 1) v rest] at hsucc
    exact (Option.not_isSome_iff_eq_none.1 hsucc).symm

/-- Vertices further back have a lower rank. -/
theorem rank_ancestor?_lt {rank : Fin n → Nat} (hrank : ∀ u v, p.predecessors.get v = some u → rank u < rank v)
    {v x y : Fin n} {i j : Nat} (hij : i < j) (hx : p.ancestor? v i = some x) (hy : p.ancestor? v j = some y) :
    rank y < rank x := by
  induction j generalizing y with
  | zero => omega
  | succ j ih =>
    obtain ⟨z, hz, hpred⟩ := Option.bind_eq_some_iff.1 hy
    have hlt := hrank y z (by simpa using hpred)
    rcases Nat.lt_or_eq_of_le (Nat.le_of_lt_succ hij) with hij | rfl
    · exact Nat.lt_trans hlt (ih hij hz)
    · obtain rfl : x = z := Option.some.inj (hx.symm.trans hz)
      exact hlt

namespace IsTree

variable (h : p.IsTree records)
include h

/-- Going back never leads to a vertex a second time. -/
theorem ancestor?_inj {v x : Fin n} {i j : Nat} (hi : p.ancestor? v i = some x) (hj : p.ancestor? v j = some x) :
    i = j := by
  obtain ⟨rank, hrank⟩ := h.ranked
  rcases Nat.lt_trichotomy i j with hij | rfl | hij
  · exact absurd (rank_ancestor?_lt hrank hij hi hj) (Nat.lt_irrefl _)
  · rfl
  · exact absurd (rank_ancestor?_lt hrank hij hj hi) (Nat.lt_irrefl _)

theorem ancestor?_eq_source {v : Fin n} (hv : p.Reached v) :
    ∃ k, p.ancestor? v k = some p.source ∧ p.ancestor? v (k + 1) = none := by
  obtain ⟨rank, hrank⟩ := h.ranked
  induction hr : rank v using Nat.strongRecOn generalizing v with
  | ind r ih =>
    rcases hv with rfl | ⟨u, hu⟩
    · exact ⟨0, rfl, by simpa [ancestor?] using h.predecessor_source⟩
    · obtain ⟨k, hk, hk'⟩ := ih (rank u) (hr ▸ hrank u v hu) (h.edge u v hu).1 rfl
      exact ⟨k + 1, by rw [ancestor?_of_predecessor hu, hk], by rw [ancestor?_of_predecessor hu, hk']⟩

omit h in
/-- The vertices on the way back from a vertex that has been reached form a walk as long as its distance. -/
theorem exists_path {g : Graph n} (hg : g.Reachable) (h : p.IsTree g.adjacency.records) {v : Fin n}
    (hv : p.Reached v) : ∃ path : List Nat, (∀ rest, p.traceBack v rest = some (path ++ rest)) ∧
      g.Walk p.source v path (p.distances.get v) ∧ path.Nodup := by
  obtain ⟨rank, hrank⟩ := h.ranked
  suffices ∃ path : List Nat, (∀ rest, p.traceBack v rest = some (path ++ rest)) ∧
      g.Walk p.source v path (p.distances.get v) ∧ path.Nodup ∧ ∀ x : Fin n, x.val ∈ path → rank x ≤ rank v by
    obtain ⟨path, htrace, hwalk, hnodup, -⟩ := this
    exact ⟨path, htrace, hwalk, hnodup⟩
  induction hr : rank v using Nat.strongRecOn generalizing v with
  | ind r ih =>
    rcases hv with rfl | ⟨u, hu⟩
    · refine ⟨[p.source.val], fun rest => ?_, ?_, List.nodup_singleton _, fun x hx => ?_⟩
      · rw [traceBack_eq, h.predecessor_source]
        rfl
      · rw [h.distance_source]
        exact .start p.source.isLt
      · rw [Fin.ext (List.mem_singleton.1 hx), hr]
    · obtain ⟨hreached, -, w, hw, hd⟩ := h.edge u v hu
      have hlt := hrank u v hu
      obtain ⟨path, htrace, hwalk, hnodup, hpath⟩ := ih (rank u) (hr ▸ hlt) hreached rfl
      refine ⟨path ++ [v.val], fun rest => ?_, ?_, ?_, fun x hx => ?_⟩
      · rw [traceBack_eq, hu]
        show p.traceBack u (v.val :: rest) = _
        rw [htrace, List.append_assoc]
        rfl
      · rw [hd]
        exact hwalk.extend (hg.mem_records_iff.1 hw)
      · -- every vertex on the way to `u` ranks below `v`
        rw [← List.concat_eq_append, List.nodup_concat]
        exact ⟨fun hmem => absurd (hpath v hmem) (by omega), hnodup⟩
      · rcases List.mem_append.1 hx with hx | hx
        · exact Nat.le_of_lt (Nat.lt_of_le_of_lt (hpath x hx) (hr ▸ hlt))
        · rw [Fin.ext (List.mem_singleton.1 hx), hr]

theorem predecessor_eq_none_iff {v : Fin n} (hv : v ≠ p.source) :
    p.predecessors.get v = none ↔ p.distances.get v = infinity := by
  constructor
  · intro hnone
    exact h.infinite v (not_or.2 ⟨hv, fun ⟨u, hu⟩ => by simp [hnone] at hu⟩)
  · intro hinf
    refine Option.eq_none_iff_forall_ne_some.2 fun u hu => ?_
    have hlt := (h.edge u v hu).2.1
    rw [hinf] at hlt
    exact Weight.lt_irrefl _ hlt

theorem predecessor_ne {u v : Fin n} (hu : p.predecessors.get v = some u) : u ≠ v := by
  obtain ⟨rank, hrank⟩ := h.ranked
  rintro rfl
  exact Nat.lt_irrefl _ (hrank u u hu)

theorem reached_of_isFinite {v : Fin n} (hv : (p.distances.get v).isFinite = true) : p.Reached v := by
  by_contra hnot
  rw [h.infinite v hnot] at hv
  exact absurd hv (by decide)

end IsTree

theorem lt_of_predecessor? {v : Nat} {u : Fin n} (h : p.predecessor? v = some u) : v < n := by
  by_contra hle
  simp [predecessor?, hle] at h

theorem pathTo_of_le {t : Nat} (ht : n ≤ t) : p.pathTo t = none := dif_neg (Nat.not_lt.2 ht)

theorem pathTo_val (p : ShortestPaths n) (t : Fin n) :
    p.pathTo t = if (p.distances.get t).isFinite = true then p.traceBack t [] else none := by
  simp [pathTo, isReachable]

/-- There is a path to exactly the vertices at a finite distance, and it is a walk of that length. -/
theorem IsTree.pathTo_cases {g : Graph n} (hg : g.Reachable) (h : p.IsTree g.adjacency.records) (t : Fin n) :
    (p.distances.get t).isFinite = false ∧ p.pathTo t = none ∨
      (p.distances.get t).isFinite = true ∧ ∃ path, p.pathTo t = some path ∧
        g.Walk p.source t path (p.distances.get t) ∧ path.Nodup := by
  rw [pathTo_val]
  cases hfinite : (p.distances.get t).isFinite with
  | false => exact .inl ⟨rfl, rfl⟩
  | true =>
    obtain ⟨path, htrace, hwalk, hnodup⟩ := exists_path hg h (h.reached_of_isFinite hfinite)
    refine .inr ⟨rfl, path, ?_, hwalk, hnodup⟩
    rw [if_pos rfl, htrace, List.append_nil]

theorem IsTree.pathTo_eq_none_iff {g : Graph n} (hg : g.Reachable) (h : p.IsTree g.adjacency.records) {t : Nat} :
    p.pathTo t = none ↔ n ≤ t ∨ ∃ d, p.distance? t = some d ∧ d.isFinite = false := by
  by_cases ht : n ≤ t
  · simp [pathTo_of_le ht, ht]
  · lift t to Fin n using Nat.not_le.1 ht
    rw [distance?_val]
    rcases h.pathTo_cases hg t with ⟨hfinite, hnone⟩ | ⟨hfinite, path, hpath, -⟩
    · simp [hnone, hfinite]
    · simp [hpath, hfinite]

theorem IsTree.walk_of_pathTo {g : Graph n} (hg : g.Reachable) (h : p.IsTree g.adjacency.records) {t : Nat}
    {path : List Nat} (hpath : p.pathTo t = some path) :
    path.Nodup ∧ ∃ d, p.distance? t = some d ∧ g.Walk p.source t path d := by
  by_cases ht : n ≤ t
  · rw [pathTo_of_le ht] at hpath
    contradiction
  · lift t to Fin n using Nat.not_le.1 ht
    rcases h.pathTo_cases hg t with ⟨-, hnone⟩ | ⟨-, path', hpath', hwalk, hnodup⟩
    · rw [hnone] at hpath
      contradiction
    · obtain rfl : path' = path := Option.some.inj (hpath'.symm.trans hpath)
      exact ⟨hnodup, _, p.distance?_val t, hwalk⟩

end ShortestPaths

namespace Graph

variable {n : Nat} {g : Graph n}

theorem shortestPaths_of_lt (g : Graph n) {s : Nat} (hs : s < n) :
    (g.shortestPaths s).result = .ok ((ShortestPaths.run g.adjacency.records ⟨s, hs⟩).result ⟨s, hs⟩) := by
  simp [shortestPaths, checkVertex_of_lt hs, Outcome.report]

open ShortestPaths in
/-- Whatever the weights are, a search leaves a tree of predecessors, and its paths are walks without repeated
vertices from the source along which the weights add up to the distance. -/
theorem shortestPaths_tree (hg : g.Reachable) {s : Nat} (hs : s < n) :
    ∃ p, (g.shortestPaths s).result = .ok p ∧ p.distances.toArray.size = n ∧
      p.predecessor? s = none ∧ p.distance? s = some 0.0 ∧
      (∀ v < n, v ≠ s → (p.predecessor? v = none ↔ p.distance? v = some infinity)) ∧
      (∀ v u, p.predecessor? v = some u → u.val ≠ v ∧ g.hasEdge u v = true ∧
        ∃ d w, p.distance? u = some d ∧ g.findEdgeWeight u v = some w ∧ p.distance? v = some (d + w)) ∧
      (∀ v x i j, p.ancestor? v i = some x → p.ancestor? v j = some x → i = j) ∧
      (∀ v : Fin n, (p.predecessor? v).isSome →
        ∃ k, p.ancestor? v k = some ⟨s, hs⟩ ∧ p.ancestor? v (k + 1) = none) ∧
      ∀ t, (p.pathTo t = none ↔ n ≤ t ∨ ∃ d, p.distance? t = some d ∧ d.isFinite = false) ∧
        ∀ path, p.pathTo t = some path → path.Nodup ∧ path.head? = some s ∧ path.getLast? = some t ∧
          path.IsChain (g.hasEdge · · = true) ∧ ∃ d, p.distance? t = some d ∧ g.Walk s t path d := by
  have h := isTree_result (State.tree_run g.adjacency.records ⟨s, hs⟩)
  let p := (run g.adjacency.records ⟨s, hs⟩).result ⟨s, hs⟩
  refine ⟨p, g.shortestPaths_of_lt hs, p.distances.size_toArray, ?_, ?_, ?_, ?_,
    fun v x i j => h.ancestor?_inj, ?_, ?_⟩
  · exact (p.predecessor?_val ⟨s, hs⟩).trans h.predecessor_source
  · exact (p.distance?_val ⟨s, hs⟩).trans (congrArg some h.distance_source)
  · intro v hv hne
    lift v to Fin n using hv
    rw [predecessor?_val, distance?_val, Option.some.injEq]
    exact h.predecessor_eq_none_iff fun heq => hne (congrArg Fin.val heq)
  · intro v u hu
    lift v to Fin n using lt_of_predecessor? hu
    rw [predecessor?_val] at hu
    obtain ⟨-, -, w, hw, hd⟩ := h.edge u v hu
    have hfind := hg.mem_records_iff.1 hw
    refine ⟨fun heq => h.predecessor_ne hu (Fin.ext heq), ?_, p.distances.get u, w, p.distance?_val u, hfind, ?_⟩
    · rw [hasEdge_eq, hfind]
      rfl
    · rw [distance?_val, hd]
  · intro v hv
    obtain ⟨u, hu⟩ := Option.isSome_iff_exists.1 hv
    exact h.ancestor?_eq_source (.inr ⟨u, by rwa [predecessor?_val] at hu⟩)
  · intro t
    refine ⟨h.pathTo_eq_none_iff hg, fun path hpath => ?_⟩
    obtain ⟨hnodup, d, hd, hwalk⟩ := h.walk_of_pathTo hg hpath
    exact ⟨hnodup, hwalk.head?_eq, hwalk.getLast?_eq, hwalk.isChain, d, hd, hwalk⟩

/-- An edge of negative weight that can be walked back and forth does not take the source from the root. -/
theorem shortestPaths_tree_negative_cycle :
    let g : Graph 2 := ((⟨.undirected, .rows (.empty 2), 0⟩ : Graph 2).addEdge 0 1 (-1.0)).2
    g.findEdgeWeight 1 0 = some (-1.0) ∧ ∃ p, (g.shortestPaths 0).result = .ok p ∧
      p.predecessor? 0 = none ∧ p.distance? 0 = some 0.0 := by
  intro g
  have hempty : (create 2 .undirected .adjacencyList).result = .ok ⟨.undirected, .rows (.empty 2), 0⟩ := rfl
  have hg : g.Reachable := (Reachable.create hempty).addEdge 0 1 (-1.0)
  obtain ⟨p, hp, -, hpred, hdist, -⟩ := shortestPaths_tree hg (s := 0) (by decide)
  exact ⟨rfl, p, hp, hpred, hdist⟩

end Graph

end WeightedGraph
