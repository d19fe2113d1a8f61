import Mathlib
import WeightedGraph.Search.ShortestPaths

/-!
# What a step of the search does

A step either passes over a stale entry or settles the vertex of the entry it took and relaxes the edges from
there (`State.step_cases`); relaxing an edge either does nothing or shortens the way to its target
(`State.relax_cases`).  All that is proved of a search goes through these two.
-/

namespace WeightedGraph

variable {n : Nat}

namespace ShortestPaths

namespace State

/-- A way of length `d` to `v` with `u` as the last vertex before is the shortest one found. -/
def shorten (s : State n) (u v : Fin n) (d : Weight) : State n :=
  { s with
    distances := s.distances.set v d v.isLt
    predecessors := s.predecessors.set v (some u) v.isLt
    frontier := s.frontier.insert ⟨v, d⟩ }

/-- The distance of `u` will not change any more. -/
def settle (s : State n) (u : Fin n) (frontier : PriorityQueue (Tentative n) Tentative.compare) : State n :=
  { s with finalized := s.finalized.insert u, frontier, settled := s.settled + 1 }

/-- The first entry of the frontier is stale. -/
def pass (s : State n) (frontier : PriorityQueue (Tentative n) Tentative.compare) : State n :=
  { s with frontier, stale := s.stale + 1 }

section

variable (s : State n) (u v w : Fin n) (d : Weight)
  (frontier : PriorityQueue (Tentative n) Tentative.compare)

theorem distances_shorten : (s.shorten u v d).distances.get w = if v = w then d else s.distances.get w :=
  get_set ..

theorem predecessors_shorten :
    (s.shorten u v d).predecessors.get w = if v = w then some u else s.predecessors.get w :=
  get_set ..

@[simp] theorem finalized_shorten : (s.shorten u v d).finalized = s.finalized := rfl

@[simp] theorem settled_shorten : (s.shorten u v d).settled = s.settled := rfl

@[simp] theorem frontier_shorten : (s.shorten u v d).frontier = s.frontier.insert ⟨v, d⟩ := rfl

@[simp] theorem distances_settle : (s.settle u frontier).distances = s.distances := rfl

@[simp] theorem predecessors_settle : (s.settle u frontier).predecessors = s.predecessors := rfl

@[simp] theorem finalized_settle : (s.settle u frontier).finalized = s.finalized.insert u := rfl

@[simp] theorem settled_settle : (s.settle u frontier).settled = s.settled + 1 := rfl

@[simp] theorem frontier_settle : (s.settle u frontier).frontier = frontier := rfl

@[simp] theorem distances_pass : (s.pass frontier).distances = s.distances := rfl

@[simp] theorem predecessors_pass : (s.pass frontier).predecessors = s.predecessors := rfl

@[simp] theorem finalized_pass : (s.pass frontier).finalized = s.finalized := rfl

@[simp] theorem settled_pass : (s.pass frontier).settled = s.settled := rfl

@[simp] theorem frontier_pass : (s.pass frontier).frontier = frontier := rfl

theorem distances_initial (source : Fin n) :
    (initial source).distances.get w = if source = w then 0.0 else infinity := by
  simp only [initial, get_set]
  simp [Vector.get]

@[simp] theorem predecessors_initial (source : Fin n) : (initial source).predecessors.get w = none := by
  simp [initial, Vector.get]

@[simp] theorem finalized_initial (source : Fin n) : (initial source).finalized = .empty n := rfl

@[simp] theorem frontier_initial (source : Fin n) :
    (initial source).frontier = PriorityQueue.empty.insert ⟨source, 0.0⟩ := rfl

end

/-- Relaxing an edge does nothing if its target is finalized or the way along it is not shorter; otherwise it
shortens the way to the target. -/
theorem relax_cases (u : Fin n) (s : State n) (r : Record (Fin n)) :
    s.relax u r = s ∧
        (s.finalized.contains r.target = true ∨ ¬ s.distances.get u + r.weight < s.distances.get r.target) ∨
      s.relax u r = s.shorten u r.target (s.distances.get u + r.weight) ∧
        s.finalized.contains r.target = false ∧ s.distances.get u + r.weight < s.distances.get r.target := by
  unfold relax
  simp only
  split
  · rename_i hv
    exact .inl ⟨rfl, .inl hv⟩
  · rename_i hv
    split
    · rename_i hlt
      exact .inr ⟨rfl, by simpa using hv, hlt⟩
    · rename_i hlt
      exact .inl ⟨rfl, .inr hlt⟩

/-- A step takes the first entry of the frontier, which is stale or whose vertex it settles. -/
theorem step_cases (records : Fin n → Row (Fin n)) {s : State n} (h : s.isDone = false) :
    ∃ e frontier, s.frontier.extractMin = (some e, frontier) ∧
      (s.finalized.contains e.vertex = true ∧ s.step records = s.pass frontier ∨
        s.finalized.contains e.vertex = false ∧
          s.step records = (records e.vertex).foldl (relax e.vertex) (s.settle e.vertex frontier)) := by
  have hsize : s.frontier.heap.size ≠ 0 := by simpa [isDone, PriorityQueue.isEmpty] using h
  cases hx : s.frontier.extractMin with
  | mk first frontier =>
    cases first with
    | none =>
      have hpeek : s.frontier.peek? = none := by rw [← PriorityQueue.extractMin_fst, hx]
      rw [PriorityQueue.peek?, Option.map_eq_none_iff, Array.getElem?_eq_none_iff] at hpeek
      omega
    | some e =>
      refine ⟨e, frontier, rfl, ?_⟩
      unfold step
      simp only [hx]
      split
      · rename_i hu
        exact .inl ⟨hu, rfl⟩
      · rename_i hu
        exact .inr ⟨by simpa using hu, rfl⟩

/-- An edge that is not pending any more, once that to `r` has been relaxed, is that one or was not pending before. -/
theorem eq_or_not_pending_cons {u x : Fin n} (r : Record (Fin n)) {r' : Record (Fin n)} {rs : Row (Fin n)}
    (h : ¬ (x = u ∧ r' ∈ rs)) : (x = u ∧ r' = r) ∨ ¬ (x = u ∧ r' ∈ r :: rs) := by
  rw [List.mem_cons]
  tauto

/-- What relaxing one edge keeps up, relaxing the edges from `u` keeps up. -/
theorem foldl_relax_induction {P : State n → Prop} {u : Fin n} {rs : Row (Fin n)} {s : State n} (start : P s)
    (keep : ∀ s r, P s → r ∈ rs → P (s.relax u r)) : P (rs.foldl (relax u) s) := by
  induction rs generalizing s with
  | nil => exact start
  | cons r rs ih =>
    exact ih (keep s r start List.mem_cons_self) fun s r' hs hr' => keep s r' hs (List.mem_cons_of_mem _ hr')

end State

end ShortestPaths

end WeightedGraph
