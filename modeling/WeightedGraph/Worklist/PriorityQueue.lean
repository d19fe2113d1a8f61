import WeightedGraph.Allocation

/-!
# Priority queues

A binary heap in an array: the children of position `i` are at `2 * i + 1` and `2 * i + 2`, and an entry that
has to leave its place is swapped along one path up or down.  Entries carry a serial number, and of two items
that compare equal the one that came first leaves first.  The comparator is part of the type.  It need not be
an order: whatever it answers, no item is lost and every sift ends.
-/

namespace WeightedGraph

namespace PriorityQueue

/-- An item and the serial number of its insertion. -/
structure Entry (α : Type) where
  serial : Nat
  item : α

/-- Whether an entry leaves before another one: by the comparator, and by age if it does not decide. -/
def Entry.precedes {α : Type} (cmp : α → α → Ordering) (a b : Entry α) : Bool :=
  match cmp a.item b.item with
  | .lt => true
  | .gt => false
  | .eq => a.serial < b.serial

variable {α : Type} {m : Nat} (cmp : α → α → Ordering)

/-- Swaps the entry at `i` with its parent as long as it precedes it. -/
def siftUp (heap : Vector (Entry α) m) (i : Nat) (hi : i < m) : Vector (Entry α) m :=
  if 0 < i then
    let parent := (i - 1) / 2
    if heap[i].precedes cmp heap[parent] then siftUp (heap.swap parent i) parent (by omega) else heap
  else heap
termination_by i

/-- The child of `i` that precedes the other one, if `i` has a child; the left one unless the right one precedes
it. -/
def firstChild? (heap : Vector (Entry α) m) (i : Nat) : Option (Fin m) :=
  let left := 2 * i + 1
  let right := left + 1
  if hl : left < m then
    if hr : right < m then
      if heap[right].precedes cmp heap[left] then some ⟨right, hr⟩ else some ⟨left, hl⟩
    else some ⟨left, hl⟩
  else none

theorem lt_of_firstChild? {heap : Vector (Entry α) m} {i : Nat} {c : Fin m}
    (h : firstChild? cmp heap i = some c) : i < c := by
  simp only [firstChild?] at h
  split at h
  · split at h
    · split at h <;> cases h <;> simp only <;> omega
    · cases h
      simp only
      omega
  · contradiction

/-- Swaps the entry at `i` with the first of its children as long as that one precedes it. -/
def siftDown (heap : Vector (Entry α) m) (i : Nat) (hi : i < m) : Vector (Entry α) m :=
  match h : firstChild? cmp heap i with
  | none => heap
  | some child =>
    if heap[child].precedes cmp heap[i] then siftDown (heap.swap i child) child child.isLt else heap
termination_by m - i
decreasing_by
  have := lt_of_firstChild? cmp h
  omega

/-- Restores the order of a heap whose first entry is out of place. -/
def siftRoot (heap : Array (Entry α)) : Array (Entry α) :=
  if h : 0 < heap.size then (siftDown cmp ⟨heap, rfl⟩ 0 h).toArray else heap

@[simp] theorem size_siftRoot (heap : Array (Entry α)) : (siftRoot cmp heap).size = heap.size := by
  unfold siftRoot
  split <;> simp

end PriorityQueue

/-- A heap whose entries leave in the order of `cmp`. -/
structure PriorityQueue (α : Type) (cmp : α → α → Ordering) where
  heap : Array (PriorityQueue.Entry α)
  /-- The serial number of the next insertion. -/
  nextSerial : Nat

namespace PriorityQueue

variable {α : Type} {cmp : α → α → Ordering}

def empty : PriorityQueue α cmp := ⟨#[], 0⟩

instance : Inhabited (PriorityQueue α cmp) := ⟨empty⟩

def serialBytes : Nat := 8

/-- No items, once there is memory for `capacity` of them with their serial numbers. -/
def withCapacity (capacity itemBytes : Nat) : Except GraphError (PriorityQueue α cmp) := do
  Allocation.reserve capacity (itemBytes + serialBytes)
  return empty

def size (q : PriorityQueue α cmp) : Nat := q.heap.size

def isEmpty (q : PriorityQueue α cmp) : Bool := q.heap.isEmpty

/-- Puts an item in: at the end of the heap, and from there up. -/
def insert (q : PriorityQueue α cmp) (a : α) : PriorityQueue α cmp :=
  let ⟨heap, serial⟩ := q
  let last := heap.size
  let pushed : Vector (Entry α) (last + 1) := ⟨heap.push ⟨serial, a⟩, Array.size_push ..⟩
  ⟨(siftUp cmp pushed last (Nat.lt_succ_self _)).toArray, serial + 1⟩

/-- Takes the first item, if there is one: the last entry takes its place and goes down from there. -/
def extractMin (q : PriorityQueue α cmp) : Option α × PriorityQueue α cmp :=
  let ⟨heap, serial⟩ := q
  if h : 0 < heap.size then
    let first := heap[0].item
    (some first, ⟨siftRoot cmp (heap.swap 0 (heap.size - 1)).pop, serial⟩)
  else (none, ⟨heap, serial⟩)

def peek? (q : PriorityQueue α cmp) : Option α := q.heap[0]?.map (·.item)

/-- Takes all items out; serial numbers go on from where they are. -/
def clear (q : PriorityQueue α cmp) : PriorityQueue α cmp := ⟨#[], q.nextSerial⟩

def labelled (q : PriorityQueue α cmp) : Text.Labelled := ⟨"MinPriorityQueue", [("len", toString q.size)]⟩

@[simp] theorem size_insert (q : PriorityQueue α cmp) (a : α) : (q.insert a).size = q.size + 1 := by
  simp [insert, size]

theorem size_extractMin (q : PriorityQueue α cmp) : q.extractMin.2.size = q.size - 1 := by
  by_cases h : 0 < q.heap.size
  · simp [extractMin, size, h]
  · simp [extractMin, size, Nat.le_zero.1 (Nat.not_lt.1 h)]

theorem extractMin_fst (q : PriorityQueue α cmp) : q.extractMin.1 = q.peek? := by
  by_cases h : 0 < q.heap.size
  · simp [extractMin, peek?, h]
  · simp [extractMin, peek?, Nat.le_zero.1 (Nat.not_lt.1 h)]

theorem size_extractMin_lt {q : PriorityQueue α cmp} (h : q.extractMin.1.isSome) :
    q.extractMin.2.size < q.size := by
  have hs : 0 < q.size := by
    rw [extractMin_fst] at h
    unfold peek? at h
    unfold size
    cases hq : q.heap.size with
    | zero => simp_all
    | succ k => omega
  rw [size_extractMin]
  omega

def drain (q : PriorityQueue α cmp) : List α × PriorityQueue α cmp :=
  match _ : q.extractMin with
  | (none, rest) => ([], rest)
  | (some a, rest) =>
    let (as, last) := rest.drain
    (a :: as, last)
termination_by q.size
decreasing_by
  rename_i h
  have := size_extractMin_lt (q := q) (by simp [h])
  simpa [h] using this

end PriorityQueue

end WeightedGraph
