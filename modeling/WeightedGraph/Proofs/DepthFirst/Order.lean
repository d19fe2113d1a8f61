import WeightedGraph.Proofs.DepthFirst.Step

/-!
# The order of depth-first search

A search visits no vertex twice, and every successor of a vertex that has been visited has been visited too or waits
on the stack (`State.Finds`).  At the end nothing waits, so that exactly the vertices within reach have been visited
(`mem_order_iff`).
-/

namespace WeightedGraph.DepthFirst

variable {n : Nat} {β : Type} {successors : Fin n → List (Fin n)} {start : Fin n}

/-- What has been visited is closed under successors but for those that wait, and all of it can be reached from the
start, which is visited first. -/
structure State.Finds (successors : Fin n → List (Fin n)) (start : Fin n) (s : State n (List (Fin n))) : Prop where
  seen_iff : ∀ v, s.seen.contains v = true ↔ v ∈ s.value
  nodup : s.value.Nodup
  visited_eq : s.visited = s.value.length
  first : s.value = [] ∧ s.stack.toList = [start] ∨ s.value.head? = some start
  closed : ∀ u ∈ s.value, ∀ v ∈ successors u, v ∈ s.value ∨ v ∈ s.stack.toList
  reached : ∀ v, v ∈ s.value ∨ v ∈ s.stack.toList → ∃ k, Hops successors start k v

namespace State

theorem finds_initial (successors : Fin n → List (Fin n)) (start : Fin n) :
    (initial start []).Finds successors start where
  seen_iff v := by simp [initial]
  nodup := List.nodup_nil
  visited_eq := rfl
  first := .inl ⟨rfl, rfl⟩
  closed u hu := absurd hu List.not_mem_nil
  reached v hv := by
    obtain rfl : v = start := by simpa [initial, Stack.push, Stack.empty] using hv
    exact ⟨0, .start⟩

/-- Nothing is lost with an entry of the stack whose vertex has been visited. -/
theorem Finds.pass {s : State n (List (Fin n))} {u : Fin n} {rest : List (Fin n)} (h : s.Finds successors start)
    (hstack : s.stack.toList = u :: rest) (hu : u ∈ s.value) :
    State.Finds successors start { s with stack := ⟨rest⟩ } where
  seen_iff := h.seen_iff
  nodup := h.nodup
  visited_eq := h.visited_eq
  first := by
    rcases h.first with ⟨hnil, -⟩ | hhead
    · rw [hnil] at hu
      exact absurd hu List.not_mem_nil
    · exact .inr hhead
  closed x hx v hv := by
    rcases h.closed x hx v hv with hvisited | hwaits
    · exact .inl hvisited
    · rw [hstack, List.mem_cons] at hwaits
      rcases hwaits with rfl | hwaits
      · exact .inl hu
      · exact .inr hwaits
  reached v hv := by
    apply h.reached v
    rw [hstack]
    exact hv.imp_right (List.mem_cons_of_mem _)

/-- A visit puts those successors on the stack that have not been visited, so that nothing is lost either. -/
theorem Finds.visit {s s' : State n (List (Fin n))} {u : Fin n} {rest : List (Fin n)} (h : s.Finds successors start)
    (hstack : s.stack.toList = u :: rest) (hu : s.seen.contains u = false) (hseen : s'.seen = s.seen.insert u)
    (hvalue : s'.value = s.value ++ [u]) (hvisited : s'.visited = s.visited + 1)
    (hstack' : s'.stack.toList = ((successors u).filter fun v => !(s.seen.insert u).contains v).reverse ++ rest) :
    s'.Finds successors start := by
  have hsee (v : Fin n) : (s.seen.insert u).contains v = true ↔ v ∈ s.value ++ [u] := by
    rw [VertexSet.contains_insert_iff, h.seen_iff, List.mem_append, List.mem_singleton]
    tauto
  have hpush {v : Fin n} : v ∈ ((successors u).filter fun v => !(s.seen.insert u).contains v).reverse ↔
      v ∈ successors u ∧ v ∉ s.value ++ [u] := by
    rw [List.mem_reverse, List.mem_filter, Bool.not_eq_true', ← Bool.not_eq_true, hsee]
  constructor
  case seen_iff =>
    intro v
    rw [hseen, hvalue, hsee]
  case nodup =>
    have hnew : u ∉ s.value := by
      rw [← h.seen_iff, hu]
      exact Bool.false_ne_true
    rw [hvalue, ← List.concat_eq_append, List.nodup_concat]
    exact ⟨hnew, h.nodup⟩
  case visited_eq =>
    rw [hvisited, hvalue, h.visited_eq, List.length_append, List.length_singleton]
  case first =>
    right
    rw [hvalue]
    rcases h.first with ⟨hnil, hstart⟩ | hhead
    · obtain rfl : u = start := by
        rw [hstack] at hstart
        exact (List.cons.inj hstart).1
      rw [hnil]
      rfl
    · rw [List.head?_append, hhead, Option.some_or]
  case closed =>
    intro x hx v hv
    rw [hvalue] at hx ⊢
    rw [hstack']
    by_cases hvisited : v ∈ s.value ++ [u]
    · exact .inl hvisited
    · right
      rcases List.mem_append.1 hx with hx | hx
      · have hwaits : v ∈ u :: rest := by
          rw [← hstack]
          exact (h.closed x hx v hv).resolve_left fun h => hvisited (List.mem_append_left _ h)
        rcases List.mem_cons.1 hwaits with rfl | hwaits
        · exact absurd (List.mem_append_right _ (List.mem_singleton_self _)) hvisited
        · exact List.mem_append_right _ hwaits
      · obtain rfl : x = u := List.mem_singleton.1 hx
        exact List.mem_append_left _ (hpush.2 ⟨hv, hvisited⟩)
  case reached =>
    have hu : ∃ k, Hops successors start k u := h.reached u (.inr (by rw [hstack]; exact List.mem_cons_self))
    intro v hv
    rw [hvalue, hstack', List.mem_append, List.mem_append, List.mem_singleton] at hv
    rcases hv with (hv | rfl) | hv | hv
    · exact h.reached v (.inl hv)
    · exact hu
    · obtain ⟨k, hk⟩ := hu
      exact ⟨k + 1, .hop hk (hpush.1 hv).1⟩
    · exact h.reached v (.inr (by rw [hstack]; exact List.mem_cons_of_mem _ hv))

theorem Finds.step {s : State n (List (Fin n))} (h : s.Finds successors start) (hdone : s.isDone = false) :
    (s.step successors fun visited v => visited ++ [v]).Finds successors start := by
  obtain ⟨u, rest, hstack, ⟨hu, hstep⟩ | ⟨hu, hseen, hvalue, hvisited, hstack'⟩⟩ :=
    step_cases successors (fun visited v => visited ++ [v]) hdone
  · rw [hstep]
    exact h.pass hstack ((h.seen_iff u).1 hu)
  · exact h.visit hstack hu hseen hvalue hvisited hstack'

end State

/-- At the end nothing waits. -/
theorem finds_run (successors : Fin n → List (Fin n)) (start : Fin n) :
    (run successors (fun visited v => visited ++ [v]) start []).Finds successors start ∧
      (run successors (fun visited v => visited ++ [v]) start []).stack.toList = [] := by
  constructor
  · exact repeatUntil_induction (State.finds_initial successors start) fun s hs hdone => hs.step hdone
  · have hdone : (run successors (fun visited v => visited ++ [v]) start []).isDone = true := done_repeatUntil _
    rwa [State.isDone, Stack.isEmpty, List.isEmpty_iff] at hdone

theorem nodup_order (successors : Fin n → List (Fin n)) (start : Fin n) : (order successors start).Nodup :=
  (finds_run successors start).1.nodup

theorem head?_order (successors : Fin n → List (Fin n)) (start : Fin n) :
    (order successors start).head? = some start := by
  obtain ⟨hfinds, hstack⟩ := finds_run successors start
  rcases hfinds.first with ⟨-, hwaits⟩ | hhead
  · rw [hstack] at hwaits
    contradiction
  · exact hhead

theorem visited_run (visit : β → Fin n → β) (start : Fin n) (value : β) :
    (run successors visit start value).visited = (order successors start).length := by
  rw [run_eq_mapValue]
  exact (finds_run successors start).1.visited_eq

/-- Exactly the vertices within reach are visited. -/
theorem mem_order_iff {v : Fin n} : v ∈ order successors start ↔ ∃ k, Hops successors start k v := by
  obtain ⟨hfinds, hstack⟩ := finds_run successors start
  constructor
  · intro hv
    exact hfinds.reached v (.inl hv)
  · rintro ⟨k, hk⟩
    induction hk with
    | start => exact List.mem_of_mem_head? (head?_order successors start)
    | @hop k u v _ hv ih =>
      refine (hfinds.closed u ih v hv).resolve_right fun hwaits => ?_
      rw [hstack] at hwaits
      exact List.not_mem_nil hwaits

end WeightedGraph.DepthFirst
