import WeightedGraph.Proofs.ShortestPaths.Frontier
import WeightedGraph.Proofs.ShortestPaths.Path

/-!
# Shortest paths are shortest

If no weight is negative, no final distance is above one that is not final, and no edge from a final vertex leads
to a shorter way (`State.Cut`).  Settling the least entry of the frontier and relaxing the edges from there keeps
this up, so at the end no walk is shorter than the distance of its last vertex (`State.Cut.le_of_walk`).  As the
tree of the search has a walk of that very length, the distance is the least of all
(`Graph.shortestPaths_optimal`).
-/

namespace WeightedGraph

namespace ShortestPaths

open PriorityQueue (Entry)
open Weight (IsNonneg)

variable {n : Nat} {records : Fin n → Row (Fin n)}

/-- The final distances are below the others, and no edge from a final vertex but the pending ones leads to a
shorter way. -/
structure State.Cut (records : Fin n → Row (Fin n)) (pending : Fin n → Record (Fin n) → Prop) (s : State n) :
    Prop where
  isNonneg : ∀ v : Fin n, IsNonneg (s.distances.get v)
  below : ∀ u v, s.finalized.contains u = true → s.finalized.contains v = false →
    s.distances.get u ≤ s.distances.get v
  relaxed : ∀ u r, s.finalized.contains u = true → r ∈ records u → ¬ pending u r →
    s.distances.get r.target ≤ s.distances.get u + r.weight

/-- The distance of a vertex that is final is the greatest of the final ones. -/
structure State.LastFinal (s : State n) (u : Fin n) : Prop where
  final : s.finalized.contains u = true
  le : ∀ v, s.finalized.contains v = true → s.distances.get v ≤ s.distances.get u

namespace State

theorem cut_initial (source : Fin n) : (initial source).Cut records fun _ _ => False where
  isNonneg v := by
    rw [distances_initial]
    split
    · exact Weight.isNonneg_zero
    · exact Weight.isNonneg_infinity
  below u v hu := by simp at hu
  relaxed u r hu := by simp at hu

/-- Shortening the way to a vertex that is not final changes no final distance and makes none larger. -/
theorem distances_shorten_le {s : State n} {u v : Fin n} {d : Weight} (hlt : d < s.distances.get v) {x : Fin n}
    (hx : (s.distances.get x).isNaN = false) : (s.shorten u v d).distances.get x ≤ s.distances.get x := by
  rw [distances_shorten]
  split
  · rename_i hv
    exact Weight.le_of_lt (hv ▸ hlt)
  · exact Weight.le_refl hx

namespace Cut

variable {s : State n} {u : Fin n} {r : Record (Fin n)} {rs : Row (Fin n)}

theorem relax (h : s.Cut records fun x r' => x = u ∧ r' ∈ r :: rs) (hlast : s.LastFinal u)
    (hweight : IsNonneg r.weight) :
    (s.relax u r).Cut records (fun x r' => x = u ∧ r' ∈ rs) ∧ (s.relax u r).LastFinal u := by
  have hcandidate := (h.isNonneg u).add hweight
  have hge := Weight.le_add_right (h.isNonneg u) hweight
  rcases s.relax_cases u r with ⟨heq, hcase⟩ | ⟨heq, hv, hlt⟩
  · rw [heq]
    have hrelaxed : s.distances.get r.target ≤ s.distances.get u + r.weight := by
      rcases hcase with hv | hlt
      · -- `u` became final last, so that no final vertex is further away
        exact Weight.le_trans (hlast.le r.target hv) hge
      · exact (Weight.not_lt_iff hcandidate.1 (h.isNonneg r.target).1).1 hlt
    refine ⟨{ isNonneg := h.isNonneg, below := h.below, relaxed := fun x r' hx hr hr' => ?_ }, hlast⟩
    rcases eq_or_not_pending_cons r hr' with ⟨rfl, rfl⟩ | hr'
    · exact hrelaxed
    · exact h.relaxed x r' hx hr hr'
  · rw [heq]
    have hfinal {x : Fin n} (hx : s.finalized.contains x = true) :
        (s.shorten u r.target (s.distances.get u + r.weight)).distances.get x = s.distances.get x := by
      rw [distances_shorten, if_neg (VertexSet.ne_of_contains hx hv).symm]
    refine ⟨{ isNonneg := ?isNonneg, below := ?below, relaxed := ?relaxed }, hlast.final, ?le⟩
    case isNonneg =>
      intro x
      rw [distances_shorten]
      split
      · exact hcandidate
      · exact h.isNonneg x
    case below =>
      intro x y hx hy
      rw [hfinal hx, distances_shorten]
      split
      · exact Weight.le_trans (hlast.le x hx) hge
      · exact h.below x y hx hy
    case relaxed =>
      intro x r' hx hr hr'
      rw [hfinal hx]
      rcases eq_or_not_pending_cons r hr' with ⟨rfl, rfl⟩ | hr'
      · rw [distances_shorten, if_pos rfl]
        exact Weight.le_refl hcandidate.1
      · exact Weight.le_trans (distances_shorten_le hlt (h.isNonneg _).1) (h.relaxed x r' hx hr hr')
    case le =>
      intro x hx
      rw [hfinal hx, hfinal hlast.final]
      exact hlast.le x hx

/-- When all its edges are relaxed, nothing is pending. -/
theorem foldl_relax (h : s.Cut records fun x r => x = u ∧ r ∈ rs) (hlast : s.LastFinal u)
    (hweights : ∀ r ∈ rs, IsNonneg r.weight) : (rs.foldl (State.relax u) s).Cut records fun _ _ => False := by
  induction rs generalizing s with
  | nil => exact ⟨h.isNonneg, h.below, fun x r hx hr _ => h.relaxed x r hx hr (by simp)⟩
  | cons r rs ih =>
    obtain ⟨hnext, hlast⟩ := h.relax hlast (hweights r List.mem_cons_self)
    exact ih hnext hlast fun r' hr' => hweights r' (List.mem_cons_of_mem _ hr')

/-- The vertex of the least entry becomes final, and the edges from there are pending. -/
theorem settle (h : s.Cut records fun _ _ => False) {held : List (Entry (Tentative n))}
    (hheld : s.FrontierHolds held) {t : Tentative n} (ht : s.finalized.contains t.vertex = false)
    (hle : s.distances.get t.vertex ≤ t.distance) (hleast : ∀ e ∈ held, t.distance ≤ e.item.distance)
    (frontier : PriorityQueue (Tentative n) Tentative.compare) :
    (s.settle t.vertex frontier).Cut records (fun x r => x = t.vertex ∧ r ∈ records t.vertex) ∧
      (s.settle t.vertex frontier).LastFinal t.vertex := by
  have hopen : ∀ v, s.finalized.contains v = false → s.distances.get t.vertex ≤ s.distances.get v := by
    intro v hv
    by_cases hlt : s.distances.get v < infinity
    · -- an open vertex within reach has an entry with its distance
      obtain ⟨e, he, heq⟩ := hheld.current v hv hlt
      have hte := hleast e he
      rw [heq] at hte
      exact Weight.le_trans hle hte
    · have hinf := (Weight.not_lt_iff (h.isNonneg v).1 Weight.isNonneg_infinity.1).1 hlt
      exact Weight.le_trans (Weight.le_infinity (h.isNonneg t.vertex).1) hinf
  refine ⟨{ isNonneg := h.isNonneg, below := ?below, relaxed := ?relaxed },
    VertexSet.contains_insert_iff.2 (.inl rfl), ?le⟩
  case below =>
    intro x y hx hy
    have hy := (VertexSet.not_contains_insert_iff.1 hy).2
    rcases VertexSet.contains_insert_iff.1 hx with rfl | hx
    · exact hopen y hy
    · exact h.below x y hx hy
  case relaxed =>
    intro x r hx hr hpending
    rcases VertexSet.contains_insert_iff.1 hx with rfl | hx
    · exact absurd ⟨rfl, hr⟩ hpending
    · exact h.relaxed x r hx hr not_false
  case le =>
    intro x hx
    rcases VertexSet.contains_insert_iff.1 hx with rfl | hx
    · exact Weight.le_refl (h.isNonneg _).1
    · exact h.below x t.vertex hx ht

theorem step (h : s.Cut records fun _ _ => False) {held : List (Entry (Tentative n))}
    (hheld : s.FrontierHolds held) (hweights : ∀ u, ∀ r ∈ records u, IsNonneg r.weight)
    (hdone : s.isDone = false) : (s.step records).Cut records fun _ _ => False := by
  obtain ⟨t, frontier, hx, hcases⟩ := step_cases records hdone
  obtain ⟨rest, -, -, -, hle, hleast⟩ := hheld.extractMin hx
  rcases hcases with ⟨hu, heq⟩ | ⟨hu, heq⟩
  · rw [heq]
    exact ⟨h.isNonneg, h.below, h.relaxed⟩
  · rw [heq]
    obtain ⟨hsettled, hlast⟩ := h.settle hheld hu hle hleast frontier
    exact hsettled.foldl_relax hlast (hweights t.vertex)

/-- No walk is shorter than the distance of its last vertex, once all vertices within reach are final. -/
theorem le_of_walk {g : Graph n} (hg : g.Reachable)
    (hweights : ∀ u v w, g.findEdgeWeight u v = some w → IsNonneg w)
    (h : s.Cut g.adjacency.records fun _ _ => False) {source : Fin n} (hsource : s.distances.get source = 0.0)
    (hopen : ∀ v, s.finalized.contains v = false → ¬ s.distances.get v < infinity) {v : Nat} {path : List Nat}
    {d : Weight} (hwalk : g.Walk source v path d) :
    IsNonneg d ∧ ∀ x : Fin n, x.val = v → s.distances.get x ≤ d := by
  induction hwalk with
  | start _ =>
    refine ⟨Weight.isNonneg_zero, fun x hx => ?_⟩
    rw [Fin.ext hx, hsource]
    exact Weight.le_refl Weight.isNonneg_zero.1
  | @extend u v path d w hwalk hw ih =>
    have hwn := hweights u v w hw
    refine ⟨ih.1.add hwn, fun y hy => ?_⟩
    obtain ⟨x, rfl⟩ : ∃ x : Fin n, x.val = u := ⟨⟨u, (Graph.lt_of_findEdgeWeight hw).1⟩, rfl⟩
    subst hy
    have hx := ih.2 x rfl
    cases hfinal : s.finalized.contains x with
    | true =>
      -- the last edge of the walk has been relaxed
      have hrelaxed := h.relaxed x ⟨y, w⟩ hfinal (hg.mem_records_iff.2 hw) not_false
      exact Weight.le_trans hrelaxed (Weight.add_le_add_right (h.isNonneg x) ih.1 hwn hx)
    | false =>
      -- the walk is infinitely long already
      have hinf := (Weight.not_lt_iff (h.isNonneg x).1 Weight.isNonneg_infinity.1).1 (hopen x hfinal)
      have hle := Weight.le_trans (Weight.le_trans hinf hx) (Weight.le_add_right ih.1 hwn)
      exact Weight.le_trans (Weight.le_infinity (h.isNonneg y).1) hle

end Cut

theorem cut_run (hweights : ∀ u, ∀ r ∈ records u, IsNonneg r.weight) (source : Fin n) :
    (∃ held, (run records source).FrontierHolds held) ∧ (run records source).Cut records fun _ _ => False := by
  refine repeatUntil_induction
    (P := fun s : State n => (∃ held, s.FrontierHolds held) ∧ s.Cut records fun _ _ => False)
    ⟨⟨_, frontierHolds_initial source⟩, cut_initial source⟩ ?_
  rintro s ⟨⟨held, hheld⟩, hcut⟩ hdone
  exact ⟨hheld.step records hdone, hcut.step hheld hweights hdone⟩

end State

end ShortestPaths

namespace Graph

open ShortestPaths

variable {n : Nat} {g : Graph n}

/-- If no weight is negative, the distance of a vertex is the length of a shortest walk from the source, and
infinite if there is no walk. -/
theorem shortestPaths_optimal (hg : g.Reachable)
    (hweights : ∀ u v w, g.findEdgeWeight u v = some w → w.isNaN = false ∧ ¬ w < 0.0) {s : Nat} (hs : s < n) :
    ∃ p, (g.shortestPaths s).result = .ok p ∧ (g.distancesFrom s).result = .ok p.distances ∧
      ∀ v, (hv : v < n) →
        ((∃ path d, g.Walk s v path d) → IsLeast {d | ∃ path, g.Walk s v path d} p.distances[v]) ∧
        ((¬ ∃ path d, g.Walk s v path d) → p.distances[v] = infinity) := by
  have htree := isTree_result (State.tree_run g.adjacency.records ⟨s, hs⟩)
  have hrecords : ∀ u, ∀ r ∈ g.adjacency.records u, Weight.IsNonneg r.weight :=
    fun u r hr => hweights u r.target r.weight (hg.mem_records_iff.1 hr)
  obtain ⟨⟨held, hheld⟩, hcut⟩ := State.cut_run hrecords ⟨s, hs⟩
  have hopen := fun v => hheld.infinite_of_isDone (done_repeatUntil _) (v := v)
  have hle {v : Fin n} {path : List Nat} {d : Weight} (hwalk : g.Walk s v path d) :=
    (hcut.le_of_walk hg hweights htree.distance_source hopen hwalk).2 v rfl
  refine ⟨_, g.shortestPaths_of_lt hs, ?_, fun v hv => ?_⟩
  · simp [distancesFrom, Outcome.result_bind, g.shortestPaths_of_lt hs, Except.bind, Outcome.ok]
  · lift v to Fin n using hv
    have hlower : ((run g.adjacency.records ⟨s, hs⟩).result ⟨s, hs⟩).distances[v.val] ∈
        lowerBounds {d | ∃ path, g.Walk s v path d} := by
      rintro d ⟨path, hwalk⟩
      exact hle hwalk
    by_cases hreached : ShortestPaths.Reached ((run g.adjacency.records ⟨s, hs⟩).result ⟨s, hs⟩) v
    · obtain ⟨path, -, hwalk, -⟩ := IsTree.exists_path hg htree hreached
      exact ⟨fun _ => ⟨⟨path, hwalk⟩, hlower⟩, fun hnone => absurd ⟨path, _, hwalk⟩ hnone⟩
    · have hinf : ((run g.adjacency.records ⟨s, hs⟩).result ⟨s, hs⟩).distances[v.val] = infinity :=
        htree.infinite v hreached
      refine ⟨?_, fun _ => hinf⟩
      rintro ⟨path, d, hwalk⟩
      refine ⟨⟨path, ?_⟩, hlower⟩
      -- a vertex that has not been reached has only walks of infinite length
      have hd : infinity ≤ d := hinf ▸ hle hwalk
      rw [Weight.eq_infinity_of_le hd] at hwalk
      rw [hinf]
      exact hwalk

/-- The distance along the only edge of a graph, which can be walked back and forth. -/
theorem shortestPaths_optimal_one_edge :
    let g : Graph 2 := ((⟨.undirected, .rows (.empty 2), 0⟩ : Graph 2).addEdge 0 1 2.5).2
    ∃ p, (g.shortestPaths 0).result = .ok p ∧ IsLeast {d | ∃ path, g.Walk 0 1 path d} p.distances[1] := by
  intro g
  have hempty : (create 2 .undirected .adjacencyList).result = .ok ⟨.undirected, .rows (.empty 2), 0⟩ := rfl
  have hg : g.Reachable := (Reachable.create hempty).addEdge 0 1 2.5
  have hstored : ∀ u v : Fin 2, g.adjacency.weight? u v = none ∨ g.adjacency.weight? u v = some 2.5 := by decide
  have hweights : ∀ u v w, g.findEdgeWeight u v = some w → w.isNaN = false ∧ ¬ w < 0.0 := by
    intro u v w h
    obtain ⟨hu, hv⟩ := lt_of_findEdgeWeight h
    rw [findEdgeWeight_val g ⟨u, hu⟩ ⟨v, hv⟩] at h
    obtain rfl : 2.5 = w := by
      rcases hstored ⟨u, hu⟩ ⟨v, hv⟩ with hnone | hsome
      · simp [hnone] at h
      · exact Option.some.inj (hsome.symm.trans h)
    decide
  obtain ⟨p, hp, -, hleast⟩ := shortestPaths_optimal hg hweights (s := 0) (by decide)
  have hedge : g.findEdgeWeight 0 1 = some 2.5 := rfl
  exact ⟨p, hp, (hleast 1 (by decide)).1 ⟨_, _, .extend (.start (by decide)) hedge⟩⟩

end Graph

end WeightedGraph
