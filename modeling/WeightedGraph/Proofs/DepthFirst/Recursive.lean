import WeightedGraph.Proofs.DepthFirst.Order

/-!
# Depth-first search by recursion

`explore` passes over a vertex that has been visited before; any other one it puts at the end of the visited ones and
then visits each of its successors, the last one first.  The search with a stack visits the vertices in the same
order (`order_eq_recursive`): its stack holds the calls that are still to be made, without some of those that pass
over their vertex.
-/

namespace WeightedGraph.DepthFirst

variable {n : Nat}

/-- The number of vertices that have not been visited. -/
def unvisited (visited : List (Fin n)) : Nat := (Finset.univ.filter (· ∉ visited)).card

theorem unvisited_le {visited visited' : List (Fin n)} (h : visited ⊆ visited') :
    unvisited visited' ≤ unvisited visited := by
  refine Finset.card_le_card fun v hv => ?_
  simp only [Finset.mem_filter, Finset.mem_univ, true_and] at hv ⊢
  exact fun hmem => hv (h hmem)

theorem unvisited_lt {visited : List (Fin n)} {u : Fin n} (h : u ∉ visited) :
    unvisited (visited ++ [u]) < unvisited visited := by
  refine Finset.card_lt_card (Finset.ssubset_iff_of_subset ?_ |>.2 ⟨u, ?_, ?_⟩)
  · intro v hv
    simp only [Finset.mem_filter, Finset.mem_univ, true_and] at hv ⊢
    exact fun hmem => hv (List.mem_append_left _ hmem)
  · simpa using h
  · simp

mutual

/-- Visits a vertex and what can be reached from it through vertices that have not been visited, unless the vertex
itself has been. -/
def explore (successors : Fin n → List (Fin n)) (visited : List (Fin n)) (u : Fin n) :
    { visited' : List (Fin n) // visited ⊆ visited' } :=
  if _ : u ∈ visited then ⟨visited, List.Subset.refl _⟩
  else
    let ⟨visited', h'⟩ := exploreAll successors (visited ++ [u]) (successors u).reverse
    ⟨visited', List.Subset.trans (List.subset_append_left ..) h'⟩
termination_by (unvisited visited, 0)
decreasing_by
  rename_i h
  exact .left _ _ (unvisited_lt h)

/-- Visits vertices one after the other. -/
def exploreAll (successors : Fin n → List (Fin n)) (visited : List (Fin n)) (us : List (Fin n)) :
    { visited' : List (Fin n) // visited ⊆ visited' } :=
  match us with
  | [] => ⟨visited, List.Subset.refl _⟩
  | u :: us =>
    let ⟨visited', h'⟩ := explore successors visited u
    let ⟨visited'', h''⟩ := exploreAll successors visited' us
    ⟨visited'', List.Subset.trans h' h''⟩
termination_by (unvisited visited, us.length)
decreasing_by
  · exact .right _ (Nat.succ_pos _)
  · have hle := unvisited_le h'
    rcases Nat.lt_or_eq_of_le hle with hlt | heq
    · exact .left _ _ hlt
    · rw [heq]
      exact .right _ (Nat.lt_succ_self _)

end

/-- The vertices that are visited if nothing has been visited before, in their order. -/
def recursive (successors : Fin n → List (Fin n)) (start : Fin n) : List (Fin n) := explore successors [] start

variable {successors : Fin n → List (Fin n)} {visited : List (Fin n)} {u : Fin n}

theorem explore_of_mem (h : u ∈ visited) : (explore successors visited u).1 = visited := by
  rw [explore, dif_pos h]

theorem explore_of_not_mem (h : u ∉ visited) :
    (explore successors visited u).1 = (exploreAll successors (visited ++ [u]) (successors u).reverse).1 := by
  rw [explore, dif_neg h]

@[simp] theorem exploreAll_nil : (exploreAll successors visited []).1 = visited := by rw [exploreAll]

theorem exploreAll_cons (us : List (Fin n)) :
    (exploreAll successors visited (u :: us)).1 = (exploreAll successors (explore successors visited u).1 us).1 := by
  rw [exploreAll]

theorem exploreAll_append (us vs : List (Fin n)) :
    (exploreAll successors visited (us ++ vs)).1 =
      (exploreAll successors (exploreAll successors visited us).1 vs).1 := by
  induction us generalizing visited with
  | nil => rw [List.nil_append, exploreAll_nil]
  | cons u us ih => rw [List.cons_append, exploreAll_cons, ih, exploreAll_cons]

/-- Vertices that have been visited can be left out, because they stay visited until it is their turn. -/
theorem exploreAll_filter {p : Fin n → Bool} (h : ∀ v, p v = false → v ∈ visited) (us : List (Fin n)) :
    (exploreAll successors visited (us.filter p)).1 = (exploreAll successors visited us).1 := by
  induction us generalizing visited with
  | nil => rfl
  | cons u us ih =>
    have hkeep : ∀ v, p v = false → v ∈ (explore successors visited u).1 :=
      fun v hv => (explore successors visited u).2 (h v hv)
    cases hu : p u with
    | true => rw [List.filter_cons_of_pos hu, exploreAll_cons, exploreAll_cons, ih hkeep]
    | false =>
      rw [List.filter_cons_of_neg (by simp [hu]), ih h, exploreAll_cons, explore_of_mem (h u hu)]

/-- A step leaves the order unchanged in which the calls on the stack visit the rest. -/
theorem exploreAll_step {s : State n (List (Fin n))} {start : Fin n} (h : s.Finds successors start)
    (hdone : s.isDone = false) :
    (exploreAll successors (s.step successors fun visited v => visited ++ [v]).value
      (s.step successors fun visited v => visited ++ [v]).stack.toList).1 =
        (exploreAll successors s.value s.stack.toList).1 := by
  obtain ⟨u, rest, hstack, ⟨hu, hstep⟩ | ⟨hu, -, hvalue, -, hstack'⟩⟩ :=
    State.step_cases successors (fun visited v => visited ++ [v]) hdone
  · rw [hstep, hstack, exploreAll_cons, explore_of_mem ((h.seen_iff u).1 hu)]
  · have hnew : u ∉ s.value := by
      rw [← h.seen_iff, hu]
      exact Bool.false_ne_true
    have hfiltered : ∀ v, (!(s.seen.insert u).contains v) = false → v ∈ s.value ++ [u] := by
      intro v hv
      rw [Bool.not_eq_false', VertexSet.contains_insert_iff, h.seen_iff] at hv
      rcases hv with rfl | hv
      · exact List.mem_append_right _ (List.mem_singleton_self _)
      · exact List.mem_append_left _ hv
    rw [hvalue, hstack', hstack, exploreAll_append, exploreAll_cons, explore_of_not_mem hnew, ← List.filter_reverse,
      exploreAll_filter hfiltered]

/-- The search with a stack visits vertices in the order in which recursion visits them. -/
theorem order_eq_recursive (successors : Fin n → List (Fin n)) (start : Fin n) :
    order successors start = recursive successors start := by
  have hinitial : (exploreAll successors [] [start]).1 = recursive successors start := by
    rw [exploreAll_cons, exploreAll_nil]
    rfl
  have hrun : (run successors (fun visited v => visited ++ [v]) start []).Finds successors start ∧
      (exploreAll successors (order successors start)
        (run successors (fun visited v => visited ++ [v]) start []).stack.toList).1 = recursive successors start :=
    repeatUntil_induction
      (P := fun s : State n (List (Fin n)) => s.Finds successors start ∧
        (exploreAll successors s.value s.stack.toList).1 = recursive successors start)
      ⟨State.finds_initial successors start, hinitial⟩
      fun s hs hdone => ⟨hs.1.step hdone, (exploreAll_step hs.1 hdone).trans hs.2⟩
  have hstack := (finds_run successors start).2
  rw [hstack, exploreAll_nil] at hrun
  exact hrun.2

end WeightedGraph.DepthFirst
