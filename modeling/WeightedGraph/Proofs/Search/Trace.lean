import WeightedGraph.Search.Repeat

/-!
# The states that a loop goes through

`traceUntil` lists the states in which a loop tests for its end, from the first one to the one in which it ends.
What relates a state to those before it holds all along if it holds at the start and every step keeps it up
(`traceUntil_induction`).  From each of its states a trace goes on as the trace of that state
(`traceUntil_of_append`), so the same induction says what comes after a state.
-/

namespace WeightedGraph

variable {σ : Type}

/-- The states that `repeatUntil` goes through, the last one included. -/
def traceUntil (done : σ → Bool) (step : σ → σ) (rank : σ → Nat × Nat)
    (smaller : ∀ s, done s = false → SmallerRank (rank (step s)) (rank s)) (s : σ) : List σ :=
  if _ : done s then [s] else s :: traceUntil done step rank smaller (step s)
termination_by rank s
decreasing_by
  rename_i h
  exact smaller s (by simpa using h)

variable {done : σ → Bool} {step : σ → σ} {rank : σ → Nat × Nat}
  {smaller : ∀ s, done s = false → SmallerRank (rank (step s)) (rank s)} {s t : σ} {past later : List σ}

theorem traceUntil_of_done (h : done s = true) : traceUntil done step rank smaller s = [s] := by
  rw [traceUntil]
  simp [h]

theorem traceUntil_of_not_done (h : done s = false) :
    traceUntil done step rank smaller s = s :: traceUntil done step rank smaller (step s) := by
  rw [traceUntil]
  simp [h]

/-- A state of a trace is the first one, or a step comes first. -/
theorem traceUntil_cases (h : traceUntil done step rank smaller s = past ++ t :: later) :
    past = [] ∧ s = t ∨
      ∃ past', past = s :: past' ∧ done s = false ∧
        traceUntil done step rank smaller (step s) = past' ++ t :: later := by
  cases hdone : done s with
  | true =>
    rw [traceUntil_of_done hdone] at h
    cases past with
    | nil => exact .inl ⟨rfl, (List.cons.inj h).1⟩
    | cons x past => simp at h
  | false =>
    rw [traceUntil_of_not_done hdone] at h
    cases past with
    | nil => exact .inl ⟨rfl, (List.cons.inj h).1⟩
    | cons x past =>
      obtain ⟨rfl, htail⟩ := List.cons.inj h
      exact .inr ⟨past, rfl, rfl, htail⟩

theorem traceUntil_of_append (h : traceUntil done step rank smaller s = past ++ t :: later) :
    traceUntil done step rank smaller t = t :: later := by
  induction past generalizing s with
  | nil =>
    rcases traceUntil_cases h with ⟨-, rfl⟩ | ⟨past', hpast, -⟩
    · exact h
    · contradiction
  | cons x past ih =>
    rcases traceUntil_cases h with ⟨hpast, -⟩ | ⟨past', hpast, -, hnext⟩
    · contradiction
    · obtain rfl : past = past' := (List.cons.inj hpast).2
      exact ih hnext

/-- What holds at the start and is kept up by every step holds of every state and those before it. -/
theorem traceUntil_induction {P : List σ → σ → Prop} (start : P [] s)
    (keep : ∀ past s, P past s → done s = false → P (past ++ [s]) (step s))
    (h : traceUntil done step rank smaller s = past ++ t :: later) : P past t := by
  -- the states before `s` are kept apart from those between `s` and `t`
  suffices hmore : ∀ before, P before s → P (before ++ past) t from hmore [] start
  clear start
  induction past generalizing s with
  | nil =>
    intro before hs
    rcases traceUntil_cases h with ⟨-, rfl⟩ | ⟨past', hpast, -⟩
    · rwa [List.append_nil]
    · contradiction
  | cons x past ih =>
    intro before hs
    rcases traceUntil_cases h with ⟨hpast, -⟩ | ⟨past', hpast, hdone, hnext⟩
    · contradiction
    · obtain ⟨rfl, rfl⟩ := List.cons.inj hpast
      have hafter := ih hnext (before ++ [x]) (keep before x hs hdone)
      rwa [List.append_assoc] at hafter

/-- The last state is the one in which the loop ends. -/
theorem exists_traceUntil_eq (s : σ) :
    ∃ past, traceUntil done step rank smaller s = past ++ [repeatUntil done step rank smaller s] := by
  fun_induction repeatUntil done step rank smaller s with
  | case1 s h => exact ⟨[], traceUntil_of_done h⟩
  | case2 s h ih =>
    obtain ⟨past, hpast⟩ := ih
    exact ⟨s :: past, by rw [traceUntil_of_not_done (by simpa using h), hpast]; rfl⟩

/-- What holds at the start and is kept up by every step holds in the end. -/
theorem exists_repeatUntil {P : List σ → σ → Prop} (start : P [] s)
    (keep : ∀ past s, P past s → done s = false → P (past ++ [s]) (step s)) :
    ∃ past, traceUntil done step rank smaller s = past ++ [repeatUntil done step rank smaller s] ∧
      P past (repeatUntil done step rank smaller s) := by
  obtain ⟨past, hpast⟩ := exists_traceUntil_eq s
  exact ⟨past, hpast, traceUntil_induction start keep hpast⟩

/-- What is taken from one state after others. -/
theorem filterMap_concat {α : Type} (f : σ → Option α) (past : List σ) (s : σ) :
    (past ++ [s]).filterMap f = past.filterMap f ++ (f s).toList := by
  rw [List.filterMap_append]
  cases h : f s <;> simp [h]

theorem forall_mem_traceUntil {P : σ → Prop} (start : P s) (keep : ∀ s, P s → done s = false → P (step s)) :
    ∀ t ∈ traceUntil done step rank smaller s, P t := by
  intro t ht
  obtain ⟨past, later, hsplit⟩ := List.append_of_mem ht
  exact traceUntil_induction (P := fun _ s => P s) start (fun _ s => keep s) hsplit

end WeightedGraph
