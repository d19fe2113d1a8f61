import WeightedGraph.Proofs.Search.Hops
import WeightedGraph.Search.DepthFirst

/-!
# What a step of depth-first search does

A step takes the vertex on top of the stack.  If it has been seen nothing else happens; otherwise it is visited,
and those of its successors that have not been seen come on top of the stack, the last one first
(`State.step_cases`).  The visits do not influence the search, so visiting is a fold over the vertices in the order
in which they are visited (`value_run`).
-/

namespace WeightedGraph.DepthFirst

variable {n : Nat} {β γ : Type} {successors : Fin n → List (Fin n)}

theorem toList_pushUnseen (seen : VertexSet n) (stack : Stack (Fin n)) (vs : List (Fin n)) :
    (pushUnseen seen stack vs).toList = (vs.filter fun v => !seen.contains v).reverse ++ stack.toList := by
  unfold pushUnseen
  induction vs generalizing stack with
  | nil => rfl
  | cons v vs ih =>
    rw [List.foldl_cons]
    by_cases hv : seen.contains v = true
    · rw [if_pos hv, ih, List.filter_cons_of_neg (by simp [hv])]
    · rw [if_neg hv, ih, List.filter_cons_of_pos (by simp [hv]), Stack.push]
      simp

namespace State

/-- A step passes over the vertex on top of the stack or visits it. -/
theorem step_cases (successors : Fin n → List (Fin n)) (visit : β → Fin n → β) {s : State n β}
    (h : s.isDone = false) :
    ∃ u rest, s.stack.toList = u :: rest ∧
      (s.seen.contains u = true ∧ s.step successors visit = { s with stack := ⟨rest⟩ } ∨
        s.seen.contains u = false ∧ (s.step successors visit).seen = s.seen.insert u ∧
          (s.step successors visit).value = visit s.value u ∧
          (s.step successors visit).visited = s.visited + 1 ∧
          (s.step successors visit).stack.toList =
            ((successors u).filter fun v => !(s.seen.insert u).contains v).reverse ++ rest) := by
  cases hstack : s.stack.toList with
  | nil => simp [isDone, Stack.isEmpty, hstack] at h
  | cons u rest =>
    refine ⟨u, rest, rfl, ?_⟩
    have hpop : s.stack.pop = (some u, ⟨rest⟩) := by
      unfold Stack.pop
      rw [hstack]
    unfold step
    simp only [hpop]
    cases hu : s.seen.contains u with
    | true => exact .inl ⟨rfl, rfl⟩
    | false => exact .inr ⟨rfl, rfl, rfl, rfl, toList_pushUnseen ..⟩

/-- The same search with another value. -/
def mapValue (f : β → γ) (s : State n β) : State n γ := ⟨s.seen, s.stack, s.visited, f s.value⟩

theorem mapValue_step {f : β → γ} {visit : β → Fin n → β} {visit' : γ → Fin n → γ}
    (hf : ∀ b v, visit' (f b) v = f (visit b v)) (s : State n β) :
    (s.mapValue f).step successors visit' = (s.step successors visit).mapValue f := by
  have hstack : (s.mapValue f).stack = s.stack := rfl
  have hseen : (s.mapValue f).seen = s.seen := rfl
  unfold step
  rw [hstack, hseen]
  rcases s.stack.pop with ⟨_ | u, stack⟩
  · rfl
  · by_cases hu : s.seen.contains u = true
    · simp [mapValue, hu]
    · simp [mapValue, hu, hf]

end State

/-- The vertices in the order in which they are visited. -/
def order (successors : Fin n → List (Fin n)) (start : Fin n) : List (Fin n) :=
  (run successors (fun visited v => visited ++ [v]) start []).value

/-- Whatever a visit does, it is done to the vertices in their order. -/
theorem run_eq_mapValue (visit : β → Fin n → β) (start : Fin n) (value : β) :
    run successors visit start value =
      (run successors (fun visited v => visited ++ [v]) start []).mapValue (·.foldl visit value) := by
  have hvisit (visited : List (Fin n)) (v : Fin n) :
      visit (visited.foldl visit value) v = (visited ++ [v]).foldl visit value := by
    rw [List.foldl_append]
    rfl
  exact repeatUntil_map (State.mapValue (·.foldl visit value)) (fun _ => rfl) (State.mapValue_step hvisit)
    (.initial start [])

theorem value_run (visit : β → Fin n → β) (start : Fin n) (value : β) :
    (run successors visit start value).value = (order successors start).foldl visit value := by
  rw [run_eq_mapValue]
  rfl

end WeightedGraph.DepthFirst
