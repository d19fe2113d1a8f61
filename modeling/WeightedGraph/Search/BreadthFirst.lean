import WeightedGraph.Search.Repeat
import WeightedGraph.Search.VertexSet
import WeightedGraph.Worklist.Queue

/-!
# Breadth-first search

Vertices wait in a queue and are visited when they leave it.  A vertex is marked as seen when it is put into
the queue, so it is put there at most once.  A search knows of a graph only the successors of a vertex, and
visiting is a fold: each visited vertex changes a value of any type.
-/

namespace WeightedGraph.BreadthFirst

variable {n : Nat} {β : Type}

structure State (n : Nat) (β : Type) where
  /-- The vertices that have been put into the queue. -/
  seen : VertexSet n
  queue : Queue (Fin n)
  visited : Nat
  value : β

def State.initial (start : Fin n) (value : β) : State n β :=
  ⟨(VertexSet.empty n).insert start, Queue.empty.enqueue start, 0, value⟩

/-- Puts a vertex into the queue unless it has been there. -/
def State.discover (s : State n β) (v : Fin n) : State n β :=
  if s.seen.contains v then s else { s with seen := s.seen.insert v, queue := s.queue.enqueue v }

def State.isDone (s : State n β) : Bool := s.queue.isEmpty

/-- The number of unseen vertices, and the number of waiting ones. -/
def State.rank (s : State n β) : Nat × Nat := (s.seen.missing, s.queue.size)

variable (successors : Fin n → List (Fin n)) (visit : β → Fin n → β)

/-- Visits the vertex at the front of the queue and discovers its successors. -/
@[specialize]
def State.step (s : State n β) : State n β :=
  match s.queue.dequeue with
  | (none, _) => s
  | (some u, queue) =>
    (successors u).foldl State.discover
      { s with queue, visited := s.visited + 1, value := visit s.value u }

omit successors visit in
theorem State.rank_foldl_discover (s : State n β) (vs : List (Fin n)) :
    (vs.foldl State.discover s).rank = s.rank ∨ (vs.foldl State.discover s).rank.1 < s.rank.1 := by
  induction vs generalizing s with
  | nil => exact .inl rfl
  | cons v vs ih =>
    have head : (s.discover v).rank = s.rank ∨ (s.discover v).rank.1 < s.rank.1 := by
      unfold State.discover
      split
      · exact .inl rfl
      · rename_i h
        exact .inr (VertexSet.missing_insert_lt (by simpa using h))
    rw [List.foldl_cons]
    rcases ih (s.discover v) with h | h <;> rcases head with h' | h'
    · exact .inl (h.trans h')
    · exact .inr (h ▸ h')
    · exact .inr (h' ▸ h)
    · exact .inr (Nat.lt_trans h h')

theorem State.smallerRank_step (s : State n β) (h : s.isDone = false) :
    SmallerRank (s.step successors visit).rank s.rank := by
  rw [State.isDone, Queue.isEmpty_eq] at h
  unfold State.step
  cases hq : s.queue.toList with
  | nil => simp [hq] at h
  | cons a l =>
    have h1 := Queue.dequeue_fst s.queue
    have h2 := Queue.toList_dequeue s.queue
    rcases hd : s.queue.dequeue with ⟨_ | u, queue⟩
    · simp [hd, hq] at h1
    · simp only
      have size : queue.size + 1 = s.queue.size := by
        simp [Queue.size_eq, hq, hd] at h2 ⊢
        simp [h2]
      rcases State.rank_foldl_discover
        { s with queue, visited := s.visited + 1, value := visit s.value u } (successors u) with h | h
      · rw [h]
        exact .right _ (by simp only; omega)
      · exact Prod.lex_def.2 (.inl h)

def run (start : Fin n) (value : β) : State n β :=
  repeatUntil State.isDone (State.step successors visit) State.rank
    (State.smallerRank_step successors visit) (.initial start value)

end WeightedGraph.BreadthFirst
