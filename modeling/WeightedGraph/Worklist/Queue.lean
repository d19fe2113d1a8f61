import WeightedGraph.Allocation

/-!
# Queues

Items leave in the order in which they came.  Items arrive on one list and leave from another, which is
refilled by reversing the first when it has run out; `Queue.toList` is the queue from front to back, and the
key facts say what each operation does to it.
-/

namespace WeightedGraph

/-- A queue whose items are those of `front`, followed by those of `back` in reverse. -/
structure Queue (α : Type) where
  front : List α
  back : List α

namespace Queue

variable {α : Type}

def empty : Queue α := ⟨[], []⟩

instance : Inhabited (Queue α) := ⟨empty⟩

/-- No items, once there is memory for `capacity` of them. -/
def withCapacity (capacity itemBytes : Nat) : Except GraphError (Queue α) := do
  Allocation.reserve capacity itemBytes
  return empty

/-- The items from front to back. -/
def toList (q : Queue α) : List α := q.front ++ q.back.reverse

def size (q : Queue α) : Nat := q.front.length + q.back.length

def isEmpty (q : Queue α) : Bool := q.front.isEmpty && q.back.isEmpty

def enqueue (q : Queue α) (a : α) : Queue α := ⟨q.front, a :: q.back⟩

def dequeue (q : Queue α) : Option α × Queue α :=
  match q.front with
  | a :: front => (some a, ⟨front, q.back⟩)
  | [] =>
    match q.back.reverse with
    | a :: front => (some a, ⟨front, []⟩)
    | [] => (none, empty)

def peek? (q : Queue α) : Option α := q.front.head? <|> q.back.getLast?

def clear (_ : Queue α) : Queue α := empty

def labelled (q : Queue α) : Text.Labelled := ⟨"FifoQueue", [("len", toString q.size)]⟩

@[simp] theorem toList_empty : (empty : Queue α).toList = [] := rfl

@[simp] theorem toList_enqueue (q : Queue α) (a : α) : (q.enqueue a).toList = q.toList ++ [a] := by
  simp [toList, enqueue]

theorem dequeue_fst (q : Queue α) : q.dequeue.1 = q.toList.head? := by
  unfold dequeue toList
  split
  · simp_all
  · split <;> simp_all

theorem toList_dequeue (q : Queue α) : q.dequeue.2.toList = q.toList.tail := by
  unfold dequeue toList
  split
  · simp_all
  · split <;> simp_all [empty]

theorem size_eq (q : Queue α) : q.size = q.toList.length := by simp [size, toList]

theorem isEmpty_eq (q : Queue α) : q.isEmpty = q.toList.isEmpty := by
  unfold isEmpty toList
  cases q.front <;> cases q.back <;> simp

end Queue

end WeightedGraph
