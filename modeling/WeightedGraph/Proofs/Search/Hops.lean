import Mathlib
import WeightedGraph.Search.Repeat
import WeightedGraph.Search.VertexSet

/-!
# What a search can reach

A search sees a graph only through the successors of its vertices.  `Hops successors start k v` says that `k`
edges lead from `start` to `v`.  Two searches whose states correspond step by step end in states that correspond
(`repeatUntil_map`), which is how a search that visits vertices in some way is reduced to the one that lists them.
-/

namespace WeightedGraph

/-- There is a way of `k` edges from `start` to a vertex. -/
inductive Hops {n : Nat} (successors : Fin n → List (Fin n)) (start : Fin n) : Nat → Fin n → Prop
  | start : Hops successors start 0 start
  | hop {k : Nat} {u v : Fin n} (h : Hops successors start k u) (hv : v ∈ successors u) :
    Hops successors start (k + 1) v

/-- A map between states that agrees with the steps and with the tests for the end agrees with the whole runs. -/
theorem repeatUntil_map {σ τ : Type} {done : σ → Bool} {step : σ → σ} {rank : σ → Nat × Nat}
    {smaller : ∀ s, done s = false → SmallerRank (rank (step s)) (rank s)} {done' : τ → Bool} {step' : τ → τ}
    {rank' : τ → Nat × Nat} {smaller' : ∀ t, done' t = false → SmallerRank (rank' (step' t)) (rank' t)}
    (f : σ → τ) (hdone : ∀ s, done' (f s) = done s) (hstep : ∀ s, step' (f s) = f (step s)) (s : σ) :
    repeatUntil done' step' rank' smaller' (f s) = f (repeatUntil done step rank smaller s) := by
  fun_induction repeatUntil done step rank smaller s with
  | case1 s h => exact repeatUntil_of_done ((hdone s).trans h)
  | case2 s h ih =>
    have hnot : done' (f s) = false := by
      rw [hdone]
      simpa using h
    rw [repeatUntil_of_not_done hnot, hstep, ih]

end WeightedGraph
