import WeightedGraph.Search.Repeat
import WeightedGraph.Search.VertexSet
import WeightedGraph.Worklist.Stack

/-!
# Depth-first search

Vertices wait on a stack and are visited when they leave it.  A vertex is marked as seen when it leaves the
stack, so it may wait there several times; all but the first time it leaves are passed over.  Of the
successors of a vertex the last one is on top, and so it is explored first.
-/

namespace WeightedGraph.DepthFirst

variable {n : Nat} {β : Type}

structure State (n : Nat) (β : Type) where
  /-- The vertices that have been visited. -/
  seen : VertexSet n
  stack : Stack (Fin n)
  visited : Nat
  value : β

def State.initial (start : Fin n) (value : β) : State n β :=
  ⟨VertexSet.empty n, Stack.empty.push start, 0, value⟩

def State.isDone (s : State n β) : Bool := s.stack.isEmpty

/-- The number of unseen vertices, and the number of waiting ones. -/
def State.rank (s : State n β) : Nat × Nat := (s.seen.missing, s.stack.size)

/-- Puts the vertices that have not been seen on the stack, one after the other. -/
def pushUnseen (seen : VertexSet n) (stack : Stack (Fin n)) (vs : List (Fin n)) : Stack (Fin n) :=
  vs.foldl (fun stack v => if seen.contains v then stack else stack.push v) stack

variable (successors : Fin n → List (Fin n)) (visit : β → Fin n → β)

/-- Takes the vertex on top of the stack; unless it has been seen, visits it and pushes its successors. -/
@[specialize]
def State.step (s : State n β) : State n β :=
  match s.stack.pop with
  | (none, _) => s
  | (some u, stack) =>
    if s.seen.contains u then { s with stack }
    else
      let seen := s.seen.insert u
      ⟨seen, pushUnseen seen stack (successors u), s.visited + 1, visit s.value u⟩

theorem State.smallerRank_step (s : State n β) (h : s.isDone = false) :
    SmallerRank (s.step successors visit).rank s.rank := by
  unfold State.step Stack.pop
  cases hs : s.stack.toList with
  | nil => simp [State.isDone, Stack.isEmpty, hs] at h
  | cons u stack =>
    simp only
    split
    · exact .right _ (by simp [Stack.size, hs])
    · rename_i hu
      exact .left _ _ (VertexSet.missing_insert_lt (by simpa using hu))

def run (start : Fin n) (value : β) : State n β :=
  repeatUntil State.isDone (State.step successors visit) State.rank
    (State.smallerRank_step successors visit) (.initial start value)

end WeightedGraph.DepthFirst
