/-!
# Repeating a step

A search is a state, a step and a test for its end.  `repeatUntil` takes steps until the test holds; that it
ends is shown by a pair of numbers which every step makes smaller.  What holds at the start and is kept by
every step holds at the end (`repeatUntil_induction`), and so does the test (`done_repeatUntil`).
-/

namespace WeightedGraph

/-- Whether a pair of numbers is smaller than another one, the first number deciding before the second. -/
abbrev SmallerRank (a b : Nat × Nat) : Prop := Prod.Lex (· < ·) (· < ·) a b

variable {σ : Type}

/-- Takes steps until `done` holds. -/
@[specialize]
def repeatUntil (done : σ → Bool) (step : σ → σ) (rank : σ → Nat × Nat)
    (smaller : ∀ s, done s = false → SmallerRank (rank (step s)) (rank s)) (s : σ) : σ :=
  if _ : done s then s else repeatUntil done step rank smaller (step s)
termination_by rank s
decreasing_by
  rename_i h
  exact smaller s (by simpa using h)

variable {done : σ → Bool} {step : σ → σ} {rank : σ → Nat × Nat}
  {smaller : ∀ s, done s = false → SmallerRank (rank (step s)) (rank s)}

theorem repeatUntil_of_done {s : σ} (h : done s = true) : repeatUntil done step rank smaller s = s := by
  rw [repeatUntil]
  simp [h]

theorem repeatUntil_of_not_done {s : σ} (h : done s = false) :
    repeatUntil done step rank smaller s = repeatUntil done step rank smaller (step s) := by
  rw [repeatUntil]
  simp [h]

theorem done_repeatUntil (s : σ) : done (repeatUntil done step rank smaller s) = true := by
  fun_induction repeatUntil done step rank smaller s with
  | case1 s h => exact h
  | case2 s h ih => exact ih

theorem repeatUntil_induction {P : σ → Prop} {s : σ} (start : P s)
    (keep : ∀ s, P s → done s = false → P (step s)) : P (repeatUntil done step rank smaller s) := by
  fun_induction repeatUntil done step rank smaller s with
  | case1 s h => exact start
  | case2 s h ih => exact ih (keep s start (by simpa using h))

end WeightedGraph
