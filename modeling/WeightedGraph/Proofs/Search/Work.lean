import WeightedGraph.Proofs.BreadthFirst.Order
import WeightedGraph.Proofs.DepthFirst.Order
import WeightedGraph.Proofs.Search.Trace

/-!
# The work of the traversals

What is put into the queue of a breadth-first search is what the search visits, so nothing is put there twice
(`BreadthFirst.enqueued_perm_order`).  The stack of a depth-first search may hold a vertex many times.  Every push
belongs to an edge from a vertex that has just been visited, and a vertex is visited once: what has left the stack
and what waits on it are no more than the start and the edges from the vertices that have been visited
(`DepthFirst.State.Accounted`).
-/

namespace WeightedGraph

variable {n : Nat} {β : Type} {successors : Fin n → List (Fin n)} {visit : β → Fin n → β} {start : Fin n} {value : β}

/-- A new vertex adds its summand. -/
theorem sum_contains_insert {seen : VertexSet n} {u : Fin n} (h : seen.contains u = false) (f : Fin n → Nat) :
    ∑ v with (seen.insert u).contains v = true, f v = f u + ∑ v with seen.contains v = true, f v := by
  have hinsert : Finset.univ.filter (fun v => (seen.insert u).contains v = true) =
      insert u (Finset.univ.filter fun v => seen.contains v = true) := by
    ext v
    rw [Finset.mem_insert, Finset.mem_filter_univ, Finset.mem_filter_univ, VertexSet.contains_insert_iff, eq_comm]
  rw [hinsert, Finset.sum_insert]
  rw [Finset.mem_filter_univ, h]
  exact Bool.false_ne_true

namespace BreadthFirst

/-- The states of a search, from the first to the last. -/
def trace (successors : Fin n → List (Fin n)) (visit : β → Fin n → β) (start : Fin n) (value : β) : List (State n β) :=
  traceUntil State.isDone (State.step successors visit) State.rank (State.smallerRank_step successors visit)
    (.initial start value)

/-- What a step puts into the queue, behind all that has waited there before but the vertex at the front. -/
def State.enqueued (successors : Fin n → List (Fin n)) (visit : β → Fin n → β) (s : State n β) : List (Fin n) :=
  (s.step successors visit).queue.toList.drop (s.queue.size - 1)

namespace State

theorem enqueued_of_isDone {s : State n β} (h : s.isDone = true) : s.enqueued successors visit = [] := by
  rw [isDone, Queue.isEmpty_eq, List.isEmpty_iff] at h
  have hfront := Queue.dequeue_fst s.queue
  rw [h] at hfront
  have hstep : s.step successors visit = s := by
    unfold step
    rcases hd : s.queue.dequeue with ⟨_ | u, queue⟩
    · rfl
    · rw [hd] at hfront
      contradiction
  rw [enqueued, hstep, h, List.drop_nil]

/-- A step puts the fresh successors of the vertex at the front into the queue. -/
theorem enqueued_cases (successors : Fin n → List (Fin n)) (visit : β → Fin n → β) {s : State n β}
    (h : s.isDone = false) : ∃ u, s.enqueued successors visit = s.fresh (successors u) ∧
      ∀ v, (s.step successors visit).seen.contains v = true ↔ s.seen.contains v = true ∨ v ∈ successors u := by
  obtain ⟨u, rest, hqueue, -, -, hqueue', hseen⟩ := step_cases successors visit h
  refine ⟨u, ?_, hseen⟩
  rw [enqueued, Queue.size_eq, hqueue, hqueue', List.length_cons, Nat.add_sub_cancel, List.drop_left]

/-- What has been put into the queue has been seen, and was put there once. -/
structure Enqueues (successors : Fin n → List (Fin n)) (visit : β → Fin n → β) (start : Fin n)
    (past : List (State n β)) (s : State n β) : Prop where
  nodup : (start :: past.flatMap (enqueued successors visit)).Nodup
  seen_iff : ∀ v, s.seen.contains v = true ↔ v ∈ start :: past.flatMap (enqueued successors visit)

theorem enqueues_initial : (initial start value).Enqueues successors visit start [] where
  nodup := List.nodup_singleton start
  seen_iff v := by
    rw [initial, VertexSet.contains_insert_iff]
    simp [eq_comm]

theorem Enqueues.step {past : List (State n β)} {s : State n β} (h : s.Enqueues successors visit start past)
    (hdone : s.isDone = false) : (s.step successors visit).Enqueues successors visit start (past ++ [s]) := by
  obtain ⟨u, henqueued, hseen⟩ := enqueued_cases successors visit hdone
  have hlist : start :: (past ++ [s]).flatMap (enqueued successors visit) =
      start :: past.flatMap (enqueued successors visit) ++ s.fresh (successors u) := by
    rw [List.flatMap_append, List.flatMap_singleton, henqueued]
    rfl
  constructor
  case nodup =>
    rw [hlist, List.nodup_append']
    refine ⟨h.nodup, s.nodup_fresh _, ?_⟩
    intro v hv hfresh
    rw [← h.seen_iff, (mem_fresh.1 hfresh).2] at hv
    contradiction
  case seen_iff =>
    intro v
    rw [hlist, List.mem_append, ← h.seen_iff, hseen, mem_fresh]
    cases s.seen.contains v <;> simp

end State

/-- At the end the vertices that have been seen are those that have been visited. -/
theorem seen_run {v : Fin n} :
    (run successors visit start value).seen.contains v = true ↔ v ∈ order successors start := by
  rw [run_eq_mapValue, ← found_run]
  exact (finds_run successors start).1.seen_iff v

/-- The vertices that are put into the queue are those that are visited, each once. -/
theorem enqueued_perm_order (successors : Fin n → List (Fin n)) (visit : β → Fin n → β) (start : Fin n) (value : β) :
    let enqueued := start :: (trace successors visit start value).flatMap (State.enqueued successors visit)
    enqueued.Nodup ∧ enqueued.Perm (order successors start) := by
  intro enqueued
  obtain ⟨past, hpast, hfinal⟩ : ∃ past,
      trace successors visit start value = past ++ [run successors visit start value] ∧
        (run successors visit start value).Enqueues successors visit start past :=
    exists_repeatUntil State.enqueues_initial fun _ _ hs hdone => hs.step hdone
  have henqueued : enqueued = start :: past.flatMap (State.enqueued successors visit) := by
    have hdone : (run successors visit start value).isDone = true := done_repeatUntil _
    show start :: (trace successors visit start value).flatMap _ = _
    rw [hpast, List.flatMap_append, List.flatMap_singleton, State.enqueued_of_isDone hdone, List.append_nil]
  rw [henqueued]
  refine ⟨hfinal.nodup, ?_⟩
  rw [List.perm_ext_iff_of_nodup hfinal.nodup (nodup_order successors start)]
  intro v
  rw [← hfinal.seen_iff, seen_run]

end BreadthFirst

namespace DepthFirst

/-- The states of a search, from the first to the last. -/
def trace (successors : Fin n → List (Fin n)) (visit : β → Fin n → β) (start : Fin n) (value : β) : List (State n β) :=
  traceUntil State.isDone (State.step successors visit) State.rank (State.smallerRank_step successors visit)
    (.initial start value)

/-- The vertices that leave the stack, one with every step. -/
def popped (states : List (State n β)) : List (Fin n) := states.filterMap (·.stack.pop.1)

theorem popped_concat (past : List (State n β)) (s : State n β) :
    popped (past ++ [s]) = popped past ++ s.stack.toList.head?.toList := by
  rw [popped, filterMap_concat, Stack.pop_fst]
  rfl

namespace State

/-- Each vertex that has left the stack or waits there belongs to an edge from a vertex that has been visited, but for
the start. -/
def Accounted (successors : Fin n → List (Fin n)) (past : List (State n β)) (s : State n β) : Prop :=
  (popped past).length + s.stack.toList.length ≤ 1 + ∑ u with s.seen.contains u = true, (successors u).length

theorem accounted_initial : (initial start value).Accounted successors [] := by
  simp [Accounted, initial, popped, Stack.push, Stack.empty]

theorem Accounted.step {past : List (State n β)} {s : State n β} (h : s.Accounted successors past)
    (hdone : s.isDone = false) : (s.step successors visit).Accounted successors (past ++ [s]) := by
  obtain ⟨u, rest, hstack, hcases⟩ := step_cases successors visit hdone
  have hpopped : (popped (past ++ [s])).length = (popped past).length + 1 := by
    rw [popped_concat, hstack, List.length_append]
    rfl
  rw [Accounted, hstack, List.length_cons] at h
  rw [Accounted, hpopped]
  rcases hcases with ⟨-, hstep⟩ | ⟨hu, hseen, -, -, hstack'⟩
  · rw [hstep]
    show (popped past).length + 1 + rest.length ≤ 1 + ∑ u with s.seen.contains u = true, (successors u).length
    omega
  · have hpushed := (successors u).length_filter_le fun v => !(s.seen.insert u).contains v
    rw [hseen, hstack', sum_contains_insert hu, List.length_append, List.length_reverse]
    omega

end State

/-- At the end the vertices that have been seen are those that have been visited. -/
theorem seen_run {v : Fin n} :
    (run successors visit start value).seen.contains v = true ↔ v ∈ order successors start := by
  rw [run_eq_mapValue]
  exact (finds_run successors start).1.seen_iff v

theorem length_popped_le (successors : Fin n → List (Fin n)) (visit : β → Fin n → β) (start : Fin n) (value : β) :
    (popped (trace successors visit start value)).length ≤
      1 + ∑ u with u ∈ order successors start, (successors u).length := by
  obtain ⟨past, hpast, hle⟩ : ∃ past,
      trace successors visit start value = past ++ [run successors visit start value] ∧
        (run successors visit start value).Accounted successors past :=
    exists_repeatUntil State.accounted_initial fun _ _ hs hdone => hs.step hdone
  have hdone : (run successors visit start value).isDone = true := done_repeatUntil _
  rw [State.isDone, Stack.isEmpty, List.isEmpty_iff] at hdone
  rw [hpast, popped_concat, hdone, List.head?_nil, Option.toList_none, List.append_nil]
  simp only [State.Accounted, seen_run] at hle
  omega

end DepthFirst

end WeightedGraph
