import WeightedGraph.Proofs.PriorityQueue.Held
import WeightedGraph.Proofs.ShortestPaths.Step
import WeightedGraph.Proofs.Weight.Laws

/-!
# The tree of shortest paths

Whatever the weights are, the predecessors that a search leaves are the edges of a tree with the source at its
root, and distances are summed up along its branches.  This is kept up by every step (`State.Tree`), because a
vertex becomes a predecessor only when it is finalized, and its own predecessor does not change after that.  The
order in which vertices are finalized ranks them, so that going back from any vertex ends.
-/

namespace WeightedGraph.ShortestPaths

variable {n : Nat} {records : Fin n → Row (Fin n)} {source : Fin n}

/-- Predecessors are finalized and lead along edges to the distances they have given; nothing but the source and
what has a predecessor has been reached. -/
structure State.Tree (records : Fin n → Row (Fin n)) (source : Fin n) (s : State n) : Prop where
  edge : ∀ u v, s.predecessors.get v = some u → s.finalized.contains u = true ∧ s.distances.get v < infinity ∧
    ∃ w, ⟨v, w⟩ ∈ records u ∧ s.distances.get v = s.distances.get u + w
  infinite : ∀ v, v ≠ source → s.predecessors.get v = none → s.distances.get v = infinity
  predecessor_source : s.predecessors.get source = none
  distance_source : s.distances.get source = 0.0
  /-- The source is finalized first. -/
  first : s.finalized.contains source = true ∨ ∀ v, s.finalized.contains v = false
  entries : ∀ e ∈ s.frontier.heap, e.item.vertex = source ∨ ∃ u, s.predecessors.get e.item.vertex = some u
  reached : ∀ v, s.finalized.contains v = true → v = source ∨ ∃ u, s.predecessors.get v = some u
  /-- Vertices can be ranked in the order in which they were finalized. -/
  ranked : ∃ rank : Fin n → Nat, ∀ v, s.finalized.contains v = true →
    rank v < s.settled ∧ ∀ u, s.predecessors.get v = some u → rank u < rank v

namespace State

theorem tree_initial (records : Fin n → Row (Fin n)) (source : Fin n) : (initial source).Tree records source where
  edge u v h := by
    rw [predecessors_initial] at h
    contradiction
  infinite v hv _ := by rw [distances_initial, if_neg (Ne.symm hv)]
  predecessor_source := predecessors_initial ..
  distance_source := by rw [distances_initial, if_pos rfl]
  first := .inr fun v => VertexSet.contains_empty v
  entries e he := by
    rw [frontier_initial, PriorityQueue.mem_heap_insert] at he
    rcases he with he | rfl
    · exact absurd he (Array.not_mem_empty e)
    · exact .inl rfl
  reached v hv := by simp at hv
  ranked := ⟨fun _ => 0, fun v hv => by simp at hv⟩

namespace Tree

variable {s : State n} (h : s.Tree records source)
include h

/-- A shorter way is found from a finalized vertex to one that is not. -/
theorem shorten {u v : Fin n} {w : Weight} (hu : s.finalized.contains u = true)
    (hv : s.finalized.contains v = false) (hr : ⟨v, w⟩ ∈ records u)
    (hlt : s.distances.get u + w < s.distances.get v) :
    (s.shorten u v (s.distances.get u + w)).Tree records source := by
  have hvu : ∀ x, s.finalized.contains x = true → v ≠ x := fun x hx => (VertexSet.ne_of_contains hx hv).symm
  have hsource : s.finalized.contains source = true :=
    h.first.resolve_right fun hnone => VertexSet.ne_of_contains hu (hnone u) rfl
  constructor
  case edge =>
    intro u' v' hpred
    rw [predecessors_shorten] at hpred
    by_cases hv' : v = v'
    · subst hv'
      rw [if_pos rfl] at hpred
      obtain rfl : u = u' := Option.some.inj hpred
      rw [distances_shorten, if_pos rfl, distances_shorten, if_neg (hvu u hu)]
      refine ⟨hu, ?_, w, hr, rfl⟩
      -- the distance that was there was at most infinite
      cases hp : s.predecessors.get v with
      | none => exact h.infinite v (hvu source hsource) hp ▸ hlt
      | some x => exact Weight.lt_trans hlt (h.edge x v hp).2.1
    · rw [if_neg hv'] at hpred
      obtain ⟨hu', hinf, w', hr', hd⟩ := h.edge u' v' hpred
      rw [distances_shorten, if_neg hv', distances_shorten, if_neg (hvu u' hu')]
      exact ⟨hu', hinf, w', hr', hd⟩
  case infinite =>
    intro v' hv' hpred
    rw [predecessors_shorten] at hpred
    by_cases hvv : v = v'
    · simp [hvv] at hpred
    · rw [if_neg hvv] at hpred
      rw [distances_shorten, if_neg hvv]
      exact h.infinite v' hv' hpred
  case predecessor_source =>
    rw [predecessors_shorten, if_neg (hvu source hsource)]
    exact h.predecessor_source
  case distance_source =>
    rw [distances_shorten, if_neg (hvu source hsource)]
    exact h.distance_source
  case first => exact h.first
  case entries =>
    intro e he
    rw [frontier_shorten, PriorityQueue.mem_heap_insert] at he
    rw [predecessors_shorten]
    by_cases hve : v = e.item.vertex
    · exact .inr ⟨u, if_pos hve⟩
    · rw [if_neg hve]
      rcases he with he | rfl
      · exact h.entries e he
      · exact absurd rfl hve
  case reached =>
    intro x hx
    rw [predecessors_shorten, if_neg (hvu x hx)]
    exact h.reached x hx
  case ranked =>
    -- only finalized vertices are ranked, and `v` is not one of them
    obtain ⟨rank, hrank⟩ := h.ranked
    refine ⟨rank, fun x hx => ⟨(hrank x hx).1, fun y hy => ?_⟩⟩
    rw [predecessors_shorten, if_neg (hvu x hx)] at hy
    exact (hrank x hx).2 y hy

theorem relax {u : Fin n} (hu : s.finalized.contains u = true) {r : Record (Fin n)} (hr : r ∈ records u) :
    (s.relax u r).Tree records source := by
  rcases s.relax_cases u r with ⟨heq, -⟩ | ⟨heq, hv, hlt⟩
  · rw [heq]
    exact h
  · rw [heq]
    exact h.shorten hu hv hr hlt

/-- The vertex of an entry is finalized. -/
theorem settle {u : Fin n} {frontier : PriorityQueue (Tentative n) Tentative.compare}
    (hu : s.finalized.contains u = false) (hentry : u = source ∨ ∃ x, s.predecessors.get u = some x)
    (hsub : ∀ e ∈ frontier.heap, e ∈ s.frontier.heap) : (s.settle u frontier).Tree records source := by
  have hmono : ∀ x, s.finalized.contains x = true → (s.finalized.insert u).contains x = true :=
    fun x hx => VertexSet.contains_insert_iff.2 (.inr hx)
  constructor
  case edge =>
    intro x v hpred
    exact ⟨hmono x (h.edge x v hpred).1, (h.edge x v hpred).2⟩
  case infinite => exact h.infinite
  case predecessor_source => exact h.predecessor_source
  case distance_source => exact h.distance_source
  case first =>
    left
    rcases h.first with hsource | hnone
    · exact hmono source hsource
    · -- nothing has a predecessor yet, so the entry is that of the source
      rcases hentry with rfl | ⟨x, hx⟩
      · exact VertexSet.contains_insert_iff.2 (.inl rfl)
      · exact absurd rfl (VertexSet.ne_of_contains (h.edge x u hx).1 (hnone x))
  case entries => exact fun e he => h.entries e (hsub e he)
  case reached =>
    intro x hx
    rcases VertexSet.contains_insert_iff.1 hx with rfl | hx
    · exact hentry
    · exact h.reached x hx
  case ranked =>
    -- the number of vertices finalized before is a rank above all of theirs
    obtain ⟨rank, hrank⟩ := h.ranked
    have hold : ∀ x, s.finalized.contains x = true → u ≠ x :=
      fun x hx => (VertexSet.ne_of_contains hx hu).symm
    refine ⟨fun x => if u = x then s.settled else rank x, fun v hv => ?_⟩
    have hpred : ∀ x, s.predecessors.get v = some x → ¬ u = x := fun x hx => hold x (h.edge x v hx).1
    simp only [settled_settle, predecessors_settle]
    rcases VertexSet.contains_insert_iff.1 hv with rfl | hv
    · rw [if_pos rfl]
      refine ⟨Nat.lt_succ_self _, fun x hx => ?_⟩
      rw [if_neg (hpred x hx)]
      exact (hrank x (h.edge x u hx).1).1
    · rw [if_neg (hold v hv)]
      refine ⟨Nat.lt_succ_of_lt (hrank v hv).1, fun x hx => ?_⟩
      rw [if_neg (hpred x hx)]
      exact (hrank v hv).2 x hx

theorem step (hdone : s.isDone = false) : (s.step records).Tree records source := by
  obtain ⟨e, frontier, hx, hcases⟩ := step_cases records hdone
  obtain ⟨⟨entry, hentry, rfl⟩, hsub⟩ := PriorityQueue.mem_heap_of_extractMin hx
  rcases hcases with ⟨-, heq⟩ | ⟨hu, heq⟩
  · rw [heq]
    exact { h with entries := fun e he => h.entries e (hsub e he) }
  · rw [heq]
    have hsettled := h.settle hu (h.entries entry hentry) hsub
    refine (foldl_relax_induction
      (P := fun s => s.Tree records source ∧ s.finalized.contains entry.item.vertex = true)
      ⟨hsettled, VertexSet.contains_insert_iff.2 (.inl rfl)⟩ ?_).1
    rintro s r ⟨hs, hu⟩ hr
    exact ⟨hs.relax hu hr, by rw [finalized_relax, hu]⟩

end Tree

theorem tree_run (records : Fin n → Row (Fin n)) (source : Fin n) : (run records source).Tree records source :=
  repeatUntil_induction (tree_initial records source) fun _ hs hdone => hs.step hdone

end State

end WeightedGraph.ShortestPaths
