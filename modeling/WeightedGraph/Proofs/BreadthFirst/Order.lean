import WeightedGraph.Proofs.BreadthFirst.Step

/-!
# The order of breadth-first search

A search finds vertices in an order in which the number of edges that lead to them never falls: the vertices that
wait are at most one edge further away than the one that was visited last (`State.Levels`).  What has been visited
has only successors that have been found, so that at the end nothing within reach is missing (`mem_order_iff`), and
no vertex is further away than any way to it is long (`exists_hop`).
-/

namespace WeightedGraph.BreadthFirst

variable {n : Nat} {β : Type} {successors : Fin n → List (Fin n)} {start : Fin n}

/-- The vertices that have been visited and those that wait, in the order in which they were found. -/
def State.found (s : State n (List (Fin n))) : List (Fin n) := s.value ++ s.queue.toList

/-- No vertex is found twice, the start is found first, and so are the successors of what has been visited. -/
structure State.Finds (successors : Fin n → List (Fin n)) (start : Fin n) (s : State n (List (Fin n))) : Prop where
  seen_iff : ∀ v, s.seen.contains v = true ↔ v ∈ s.found
  nodup : s.found.Nodup
  head?_eq : s.found.head? = some start
  visited_eq : s.visited = s.value.length
  closed : ∀ u ∈ s.value, ∀ v ∈ successors u, v ∈ s.found

/-- Vertices are found in the order of their distance from the start; the successors of a vertex that has been visited
are at most one edge further away than it is, and nothing is more than one edge beyond what is visited next. -/
structure State.Levels (successors : Fin n → List (Fin n)) (start : Fin n) (hop : Fin n → Nat)
    (s : State n (List (Fin n))) : Prop where
  hop_start : hop start = 0
  hops : ∀ v ∈ s.found, Hops successors start (hop v) v
  sorted : s.found.Pairwise fun u v => hop u ≤ hop v
  near : ∀ u ∈ s.value, ∀ v ∈ successors u, hop v ≤ hop u + 1
  waiting : ∀ u ∈ s.queue.toList.head?, ∀ v ∈ s.found, hop v ≤ hop u + 1

namespace State

theorem finds_initial (successors : Fin n → List (Fin n)) (start : Fin n) :
    (initial start []).Finds successors start where
  seen_iff v := by
    have hfound : (initial start ([] : List (Fin n))).found = [start] := rfl
    rw [hfound, List.mem_singleton]
    simp [initial, VertexSet.contains_insert, eq_comm (a := v)]
  nodup := by simp [initial, found]
  head?_eq := rfl
  visited_eq := rfl
  closed u hu := by simp [initial] at hu

theorem levels_initial (successors : Fin n → List (Fin n)) (start : Fin n) :
    (initial start []).Levels successors start (fun _ => 0) where
  hop_start := rfl
  hops v hv := by
    obtain rfl : v = start := by simpa [initial, found] using hv
    exact .start
  sorted := by simp [initial, found]
  near u hu := by simp [initial] at hu
  waiting _ _ _ _ := Nat.zero_le _

/-- A step adds the fresh successors of the vertex that it visits to what has been found. -/
theorem found_step (successors : Fin n → List (Fin n)) {s : State n (List (Fin n))} (h : s.isDone = false) :
    ∃ u rest, s.queue.toList = u :: rest ∧
      (s.step successors fun visited v => visited ++ [v]).value = s.value ++ [u] ∧
      (s.step successors fun visited v => visited ++ [v]).visited = s.visited + 1 ∧
      (s.step successors fun visited v => visited ++ [v]).queue.toList = rest ++ s.fresh (successors u) ∧
      (s.step successors fun visited v => visited ++ [v]).found = s.found ++ s.fresh (successors u) ∧
      ∀ v, (s.step successors fun visited v => visited ++ [v]).seen.contains v = true ↔
        s.seen.contains v = true ∨ v ∈ successors u := by
  obtain ⟨u, rest, hqueue, hvalue, hvisited, hqueue', hseen⟩ := step_cases successors
    (fun visited v => visited ++ [v]) h
  refine ⟨u, rest, hqueue, hvalue, hvisited, hqueue', ?_, hseen⟩
  unfold found
  rw [hvalue, hqueue', hqueue]
  simp

theorem Finds.step {s : State n (List (Fin n))} (h : s.Finds successors start) (hdone : s.isDone = false) :
    (s.step successors fun visited v => visited ++ [v]).Finds successors start := by
  obtain ⟨u, rest, -, hvalue, hvisited, -, hfound, hseen⟩ := found_step successors hdone
  have hfresh {v : Fin n} : v ∈ s.fresh (successors u) ↔ v ∈ successors u ∧ v ∉ s.found := by
    rw [mem_fresh, ← h.seen_iff, Bool.not_eq_true]
  have hmem {v : Fin n} : v ∈ s.found ++ s.fresh (successors u) ↔ v ∈ s.found ∨ v ∈ successors u := by
    rw [List.mem_append, hfresh]
    tauto
  constructor
  case seen_iff =>
    intro v
    rw [hseen, hfound, hmem, h.seen_iff]
  case nodup =>
    rw [hfound, List.nodup_append']
    refine ⟨h.nodup, s.nodup_fresh _, ?_⟩
    intro v hv hv'
    exact (hfresh.1 hv').2 hv
  case head?_eq =>
    rw [hfound, List.head?_append, h.head?_eq, Option.some_or]
  case visited_eq =>
    rw [hvisited, hvalue, h.visited_eq, List.length_append, List.length_singleton]
  case closed =>
    intro x hx v hv
    rw [hfound, hmem]
    rw [hvalue, List.mem_append, List.mem_singleton] at hx
    rcases hx with hx | rfl
    · exact .inl (h.closed x hx v hv)
    · exact .inr hv

theorem mem_found_of_head? {s : State n (List (Fin n))} {u : Fin n} {rest : List (Fin n)}
    (h : s.queue.toList = u :: rest) : u ∈ s.found := by
  unfold found
  rw [h]
  exact List.mem_append_right _ List.mem_cons_self

/-- The distances after a visit of `u`: what is found only then is one edge further away than `u`. -/
def hopAfter (s : State n (List (Fin n))) (hop : Fin n → Nat) (u v : Fin n) : Nat :=
  if s.seen.contains v then hop v else hop u + 1

section

variable {s : State n (List (Fin n))} {hop : Fin n → Nat} {u v : Fin n}

theorem Finds.hopAfter_of_mem (h : s.Finds successors start) (hv : v ∈ s.found) : s.hopAfter hop u v = hop v :=
  if_pos ((h.seen_iff v).2 hv)

theorem Finds.hopAfter_of_notMem (h : s.Finds successors start) (hv : v ∉ s.found) :
    s.hopAfter hop u v = hop u + 1 := if_neg (mt (h.seen_iff v).1 hv)

theorem Levels.hopAfter_le (hfinds : s.Finds successors start) (h : s.Levels successors start hop)
    (hu : u ∈ s.queue.toList.head?) (v : Fin n) : s.hopAfter hop u v ≤ hop u + 1 := by
  by_cases hv : v ∈ s.found
  · rw [hfinds.hopAfter_of_mem hv]
    exact h.waiting u hu v hv
  · rw [hfinds.hopAfter_of_notMem hv]

/-- What waits is not nearer than what is visited next. -/
theorem Levels.le_of_waiting (h : s.Levels successors start hop) {rest : List (Fin n)}
    (hqueue : s.queue.toList = u :: rest) (hv : v ∈ rest) : hop u ≤ hop v := by
  have hsorted := h.sorted
  rw [found, hqueue, List.pairwise_append, List.pairwise_cons] at hsorted
  exact hsorted.2.1.1 v hv

end

theorem Levels.step {s : State n (List (Fin n))} {hop : Fin n → Nat} (hfinds : s.Finds successors start)
    (h : s.Levels successors start hop) (hdone : s.isDone = false) :
    ∃ hop', (s.step successors fun visited v => visited ++ [v]).Levels successors start hop' := by
  obtain ⟨u, rest, hqueue, hvalue, -, hqueue', hfound, -⟩ := found_step successors hdone
  have hfront : u ∈ s.queue.toList.head? := by
    rw [hqueue]
    rfl
  have hu : u ∈ s.found := mem_found_of_head? hqueue
  have hfresh : ∀ v ∈ s.fresh (successors u), v ∈ successors u ∧ v ∉ s.found := by
    intro v hv
    rw [mem_fresh, ← Bool.not_eq_true, hfinds.seen_iff] at hv
    exact hv
  refine ⟨s.hopAfter hop u, ?_⟩
  constructor
  case hop_start =>
    have hstart : start ∈ s.found := List.mem_of_mem_head? (by rw [hfinds.head?_eq]; rfl)
    rw [hfinds.hopAfter_of_mem hstart, h.hop_start]
  case hops =>
    intro v hv
    rw [hfound, List.mem_append] at hv
    rcases hv with hv | hv
    · rw [hfinds.hopAfter_of_mem hv]
      exact h.hops v hv
    · obtain ⟨hsuccessor, hv⟩ := hfresh v hv
      rw [hfinds.hopAfter_of_notMem hv]
      exact .hop (h.hops u hu) hsuccessor
  case sorted =>
    rw [hfound, List.pairwise_append]
    refine ⟨h.sorted.imp_of_mem ?_, ?_, ?_⟩
    · intro v w hv hw hle
      rw [hfinds.hopAfter_of_mem hv, hfinds.hopAfter_of_mem hw]
      exact hle
    · refine List.pairwise_of_forall_mem_list fun v hv w hw => ?_
      rw [hfinds.hopAfter_of_notMem (hfresh v hv).2, hfinds.hopAfter_of_notMem (hfresh w hw).2]
    · intro v hv w hw
      rw [hfinds.hopAfter_of_mem hv, hfinds.hopAfter_of_notMem (hfresh w hw).2]
      exact h.waiting u hfront v hv
  case near =>
    intro x hx v hv
    rw [hvalue, List.mem_append, List.mem_singleton] at hx
    rcases hx with hx | rfl
    · have hxfound : x ∈ s.found := List.mem_append_left _ hx
      rw [hfinds.hopAfter_of_mem hxfound, hfinds.hopAfter_of_mem (hfinds.closed x hx v hv)]
      exact h.near x hx v hv
    · rw [hfinds.hopAfter_of_mem hu]
      exact h.hopAfter_le hfinds hfront v
  case waiting =>
    intro x hx v _
    rw [hqueue'] at hx
    have hux : hop u ≤ s.hopAfter hop u x := by
      rcases List.mem_append.1 (List.mem_of_mem_head? hx) with hx | hx
      · have hxfound : x ∈ s.found := by
          rw [found, hqueue]
          exact List.mem_append_right _ (List.mem_cons_of_mem _ hx)
        rw [hfinds.hopAfter_of_mem hxfound]
        exact h.le_of_waiting hqueue hx
      · rw [hfinds.hopAfter_of_notMem (hfresh x hx).2]
        exact Nat.le_succ _
    have hv := h.hopAfter_le hfinds hfront v
    omega

end State

theorem finds_run (successors : Fin n → List (Fin n)) (start : Fin n) :
    (run successors (fun visited v => visited ++ [v]) start []).Finds successors start ∧
      ∃ hop, (run successors (fun visited v => visited ++ [v]) start []).Levels successors start hop := by
  refine repeatUntil_induction
    (P := fun s : State n (List (Fin n)) => s.Finds successors start ∧ ∃ hop, s.Levels successors start hop)
    ⟨State.finds_initial successors start, _, State.levels_initial successors start⟩ ?_
  rintro s ⟨hfinds, hop, hlevels⟩ hdone
  exact ⟨hfinds.step hdone, hlevels.step hfinds hdone⟩

/-- At the end nothing waits. -/
theorem found_run (successors : Fin n → List (Fin n)) (start : Fin n) :
    (run successors (fun visited v => visited ++ [v]) start []).found = order successors start := by
  have hdone : (run successors (fun visited v => visited ++ [v]) start []).isDone = true := done_repeatUntil _
  rw [State.isDone, Queue.isEmpty_eq, List.isEmpty_iff] at hdone
  rw [State.found, hdone, List.append_nil, order]

theorem nodup_order (successors : Fin n → List (Fin n)) (start : Fin n) : (order successors start).Nodup :=
  found_run successors start ▸ (finds_run successors start).1.nodup

theorem head?_order (successors : Fin n → List (Fin n)) (start : Fin n) :
    (order successors start).head? = some start :=
  found_run successors start ▸ (finds_run successors start).1.head?_eq

theorem visited_run (visit : β → Fin n → β) (start : Fin n) (value : β) :
    (run successors visit start value).visited = (order successors start).length := by
  rw [run_eq_mapValue]
  exact (finds_run successors start).1.visited_eq

/-- The vertices that are visited are sorted by the number of edges that are needed to reach them. -/
theorem exists_hop (successors : Fin n → List (Fin n)) (start : Fin n) :
    ∃ hop : Fin n → Nat, (order successors start).Pairwise (fun u v => hop u ≤ hop v) ∧
      (∀ v ∈ order successors start, IsLeast {k | Hops successors start k v} (hop v)) ∧
      ∀ k v, Hops successors start k v → v ∈ order successors start := by
  obtain ⟨hfinds, hop, hlevels⟩ := finds_run successors start
  have hfound := found_run successors start
  have hvalue : (run successors (fun visited v => visited ++ [v]) start []).value = order successors start := rfl
  -- what has been visited is closed under successors, so that no way leads out of it
  have hle : ∀ k v, Hops successors start k v → v ∈ order successors start ∧ hop v ≤ k := by
    intro k v hk
    induction hk with
    | start => exact ⟨List.mem_of_mem_head? (head?_order successors start), by rw [hlevels.hop_start]⟩
    | @hop k u v _ hv ih =>
      have hmem := hfinds.closed u (hvalue ▸ ih.1) v hv
      have hnear := hlevels.near u (hvalue ▸ ih.1) v hv
      exact ⟨hfound ▸ hmem, by omega⟩
  refine ⟨hop, hfound ▸ hlevels.sorted, ?_, fun k v hk => (hle k v hk).1⟩
  intro v hv
  exact ⟨hlevels.hops v (hfound ▸ hv), fun k hk => (hle k v hk).2⟩

/-- Exactly the vertices within reach are visited. -/
theorem mem_order_iff {v : Fin n} : v ∈ order successors start ↔ ∃ k, Hops successors start k v := by
  obtain ⟨hop, -, hleast, hreach⟩ := exists_hop successors start
  constructor
  · intro hv
    exact ⟨hop v, (hleast v hv).1⟩
  · rintro ⟨k, hk⟩
    exact hreach k v hk

end WeightedGraph.BreadthFirst
