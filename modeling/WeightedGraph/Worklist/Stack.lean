import WeightedGraph.Allocation

/-!
# Stacks

The item that came last leaves first.  A stack is the list of its items from the top down.
-/

namespace WeightedGraph

/-- A stack, given by its items from the top down. -/
structure Stack (α : Type) where
  toList : List α

namespace Stack

variable {α : Type}

def empty : Stack α := ⟨[]⟩

instance : Inhabited (Stack α) := ⟨empty⟩

/-- No items, once there is memory for `capacity` of them. -/
def withCapacity (capacity itemBytes : Nat) : Except GraphError (Stack α) := do
  Allocation.reserve capacity itemBytes
  return empty

def size (s : Stack α) : Nat := s.toList.length

def isEmpty (s : Stack α) : Bool := s.toList.isEmpty

def push (s : Stack α) (a : α) : Stack α := ⟨a :: s.toList⟩

def pop (s : Stack α) : Option α × Stack α :=
  match s.toList with
  | [] => (none, s)
  | a :: rest => (some a, ⟨rest⟩)

def peek? (s : Stack α) : Option α := s.toList.head?

def clear (_ : Stack α) : Stack α := empty

def labelled (s : Stack α) : Text.Labelled := ⟨"LifoStack", [("len", toString s.size)]⟩

theorem pop_fst (s : Stack α) : s.pop.1 = s.peek? := by
  unfold pop peek?
  split <;> simp_all

end Stack

end WeightedGraph
