import WeightedGraph.Proofs.Search.Hops
import WeightedGraph.Search.BreadthFirst

/-!
# What a step of breadth-first search does

A step visits the vertex at the front of the queue and puts those of its successors that have not been seen at the
end of it, each once and in their order (`State.step_cases`).  The visits do not influence the search, so visiting
is a fold over the vertices in the order in which they leave the queue (`value_run`).
-/

namespace WeightedGraph.BreadthFirst

variable {n : Nat} {β γ : Type} {successors : Fin n → List (Fin n)}

private theorem nodup_eraseDups (vs : List (Fin n)) : vs.eraseDups.Nodup := by
  induction hlength : vs.length using Nat.strongRecOn generalizing vs with
  | ind k ih =>
    cases vs with
    | nil => simp
    | cons v vs =>
      rw [List.eraseDups_cons, List.nodup_cons]
      constructor
      · simp
      · have hle := List.length_filter_le (fun u => !u == v) vs
        exact ih _ (by rw [← hlength, List.length_cons]; omega) _ rfl

namespace State

/-- The vertices of a list that have not been seen, without repetitions. -/
def fresh (s : State n β) (vs : List (Fin n)) : List (Fin n) :=
  (vs.filter fun v => !s.seen.contains v).eraseDups

theorem mem_fresh {s : State n β} {vs : List (Fin n)} {v : Fin n} :
    v ∈ s.fresh vs ↔ v ∈ vs ∧ s.seen.contains v = false := by
  simp [fresh]

theorem nodup_fresh (s : State n β) (vs : List (Fin n)) : (s.fresh vs).Nodup := nodup_eraseDups _

/-- A vertex is put into the queue. -/
def await (s : State n β) (v : Fin n) : State n β :=
  { s with seen := s.seen.insert v, queue := s.queue.enqueue v }

theorem fresh_cons_of_seen {s : State n β} {v : Fin n} (h : s.seen.contains v = true) (vs : List (Fin n)) :
    s.fresh (v :: vs) = s.fresh vs := by
  simp [fresh, h]

theorem fresh_cons_of_unseen {s : State n β} {v : Fin n} (h : s.seen.contains v = false) (vs : List (Fin n)) :
    s.fresh (v :: vs) = v :: (s.await v).fresh vs := by
  have hfilter : (vs.filter fun u => !(s.seen.insert v).contains u) =
      (vs.filter fun u => !s.seen.contains u).filter fun u => !u == v := by
    rw [List.filter_filter]
    refine List.filter_congr fun u _ => ?_
    rw [VertexSet.contains_insert]
    by_cases huv : v = u
    · simp [huv]
    · simp [huv, Ne.symm huv]
  unfold fresh await
  rw [hfilter, List.filter_cons_of_pos (by simp [h]), List.eraseDups_cons]

/-- Discovering vertices puts those into the queue that have not been seen. -/
theorem foldl_discover (s : State n β) (vs : List (Fin n)) :
    (vs.foldl discover s).value = s.value ∧ (vs.foldl discover s).visited = s.visited ∧
      (vs.foldl discover s).queue.toList = s.queue.toList ++ s.fresh vs ∧
      ∀ v, (vs.foldl discover s).seen.contains v = true ↔ s.seen.contains v = true ∨ v ∈ vs := by
  induction vs generalizing s with
  | nil => simp [fresh]
  | cons u vs ih =>
    rw [List.foldl_cons]
    obtain ⟨hvalue, hvisited, hqueue, hseen⟩ := ih (s.discover u)
    cases hu : s.seen.contains u with
    | true =>
      have heq : s.discover u = s := by simp [discover, hu]
      rw [heq] at hvalue hvisited hqueue hseen ⊢
      refine ⟨hvalue, hvisited, ?_, fun v => ?_⟩
      · rw [hqueue, fresh_cons_of_seen hu]
      · rw [hseen, List.mem_cons]
        constructor
        · tauto
        · rintro (h | rfl | h)
          · exact .inl h
          · exact .inl hu
          · exact .inr h
    | false =>
      have heq : s.discover u = s.await u := by simp [discover, await, hu]
      rw [heq] at hvalue hvisited hqueue hseen ⊢
      refine ⟨hvalue, hvisited, ?_, fun v => ?_⟩
      · rw [hqueue, fresh_cons_of_unseen hu]
        simp [await]
      · rw [hseen, await, VertexSet.contains_insert_iff, List.mem_cons]
        tauto

/-- A step visits the vertex at the front of the queue and lets its fresh successors wait. -/
theorem step_cases (successors : Fin n → List (Fin n)) (visit : β → Fin n → β) {s : State n β}
    (h : s.isDone = false) :
    ∃ u rest, s.queue.toList = u :: rest ∧ (s.step successors visit).value = visit s.value u ∧
      (s.step successors visit).visited = s.visited + 1 ∧
      (s.step successors visit).queue.toList = rest ++ s.fresh (successors u) ∧
      ∀ v, (s.step successors visit).seen.contains v = true ↔
        s.seen.contains v = true ∨ v ∈ successors u := by
  rw [isDone, Queue.isEmpty_eq] at h
  have hfront := Queue.dequeue_fst s.queue
  have hrest := Queue.toList_dequeue s.queue
  cases hqueue : s.queue.toList with
  | nil => simp [hqueue] at h
  | cons u rest =>
    obtain ⟨queue, hd⟩ : ∃ queue, s.queue.dequeue = (some u, queue) :=
      ⟨_, Prod.ext (hfront.trans (by rw [hqueue]; rfl)) rfl⟩
    obtain rfl : queue.toList = rest := by simpa [hd, hqueue] using hrest
    have hstep : s.step successors visit = (successors u).foldl discover
        { s with queue, visited := s.visited + 1, value := visit s.value u } := by
      simp [step, hd]
    rw [hstep]
    exact ⟨u, queue.toList, rfl, foldl_discover _ _⟩

/-- The same search with another value. -/
def mapValue (f : β → γ) (s : State n β) : State n γ := ⟨s.seen, s.queue, s.visited, f s.value⟩

theorem mapValue_foldl_discover (f : β → γ) (s : State n β) (vs : List (Fin n)) :
    vs.foldl discover (s.mapValue f) = (vs.foldl discover s).mapValue f := by
  induction vs generalizing s with
  | nil => rfl
  | cons v vs ih =>
    have hdiscover : (s.mapValue f).discover v = (s.discover v).mapValue f := by
      unfold discover
      by_cases hv : s.seen.contains v = true <;> simp [mapValue, hv]
    rw [List.foldl_cons, List.foldl_cons, hdiscover, ih]

theorem mapValue_step {f : β → γ} {visit : β → Fin n → β} {visit' : γ → Fin n → γ}
    (hf : ∀ b v, visit' (f b) v = f (visit b v)) (s : State n β) :
    (s.mapValue f).step successors visit' = (s.step successors visit).mapValue f := by
  have hqueue : (s.mapValue f).queue = s.queue := rfl
  unfold step
  rw [hqueue]
  rcases s.queue.dequeue with ⟨_ | u, queue⟩
  · rfl
  · simp only [mapValue, hf]
    exact mapValue_foldl_discover f ⟨s.seen, queue, s.visited + 1, visit s.value u⟩ (successors u)

end State

/-- The vertices in the order in which they are visited. -/
def order (successors : Fin n → List (Fin n)) (start : Fin n) : List (Fin n) :=
  (run successors (fun visited v => visited ++ [v]) start []).value

/-- Whatever a visit does, it is done to the vertices in their order. -/
theorem run_eq_mapValue (visit : β → Fin n → β) (start : Fin n) (value : β) :
    run successors visit start value =
      (run successors (fun visited v => visited ++ [v]) start []).mapValue (·.foldl visit value) := by
  have hvisit (visited : List (Fin n)) (v : Fin n) :
      visit (visited.foldl visit value) v = (visited ++ [v]).foldl visit value := by
    rw [List.foldl_append]
    rfl
  exact repeatUntil_map (State.mapValue (·.foldl visit value)) (fun _ => rfl) (State.mapValue_step hvisit)
    (.initial start [])

theorem value_run (visit : β → Fin n → β) (start : Fin n) (value : β) :
    (run successors visit start value).value = (order successors start).foldl visit value := by
  rw [run_eq_mapValue]
  rfl

end WeightedGraph.BreadthFirst
