import WeightedGraph.Proofs.Plain.Arrays
import WeightedGraph.Worklist.PriorityQueue

/-!
# Plain heaps

The operations of a priority queue on an array and the numbers of places in it.  No place is looked for that the
array does not have, and every sift ends (`insert?_map`, `extractMin?_map`).  The items may be mapped to others as
long as those compare in the same way.
-/

namespace WeightedGraph.PriorityQueue

open Plain

variable {α : Type} (cmp : α → α → Ordering)

/-- Swaps the entry of a node with its parent as long as it precedes it. -/
def siftUp? (heap : Array (Entry α)) (node : Nat) : Option (Array (Entry α)) :=
  if 0 < node then do
    let parent := (node - 1) / 2
    let entry ← heap[node]?
    let above ← heap[parent]?
    if entry.precedes cmp above then
      let heap ← swap? heap parent node
      siftUp? heap parent
    else return heap
  else return heap
termination_by node

/-- The child of a node that precedes the other one, if it has one. -/
def smallerChild? (heap : Array (Entry α)) (node : Nat) : Option (Option Nat) := do
  let left := 2 * node + 1
  let right := left + 1
  if left < heap.size then
    if right < heap.size then
      let second ← heap[right]?
      let first ← heap[left]?
      return some (if second.precedes cmp first then right else left)
    else return some left
  else return none

/-- A heap while an entry goes down, and whether it has come to its place. -/
structure Sift (α : Type) where
  heap : Array (Entry α)
  node : Nat
  ended : Bool

/-- Swaps the entry with the first of its children, unless it precedes both. -/
def Sift.turn? (s : Sift α) : Option (Sift α) := do
  match ← smallerChild? cmp s.heap s.node with
  | none => return { s with ended := true }
  | some child =>
    let below ← s.heap[child]?
    let entry ← s.heap[s.node]?
    if below.precedes cmp entry then
      let heap ← swap? s.heap s.node child
      return ⟨heap, child, false⟩
    else return { s with ended := true }

noncomputable def siftDown? (heap : Array (Entry α)) (node : Nat) : Option (Array (Entry α)) := do
  let last ← repeatUntil? Sift.ended (Sift.turn? cmp) ⟨heap, node, false⟩
  return last.heap

noncomputable def siftRoot? (heap : Array (Entry α)) : Option (Array (Entry α)) :=
  if heap.isEmpty then some heap else siftDown? cmp heap 0

variable {cmp}

def insert? (q : PriorityQueue α cmp) (a : α) : Option (PriorityQueue α cmp) := do
  let heap := q.heap.push ⟨q.nextSerial, a⟩
  let last ← decrement? heap.size
  let heap ← siftUp? cmp heap last
  return ⟨heap, q.nextSerial + 1⟩

noncomputable def extractMin? (q : PriorityQueue α cmp) : Option (Option α × PriorityQueue α cmp) := do
  if q.heap.isEmpty then return (none, q)
  else
    let last ← decrement? q.heap.size
    let heap ← swap? q.heap 0 last
    let entry ← heap.back?
    let heap ← siftRoot? cmp heap.pop
    return (some entry.item, ⟨heap, q.nextSerial⟩)

/-! ### Mapped items -/

variable {δ : Type} {cmp' : δ → δ → Ordering} {f : α → δ} {m : Nat}

def Entry.map (f : α → δ) (e : Entry α) : Entry δ := ⟨e.serial, f e.item⟩

/-- A queue with other items in the place of its own. -/
def map (f : α → δ) (q : PriorityQueue α cmp) : PriorityQueue δ cmp' := ⟨q.heap.map (Entry.map f), q.nextSerial⟩

@[simp] theorem map_empty (f : α → δ) : (map f (empty : PriorityQueue α cmp) : PriorityQueue δ cmp') = empty := by
  simp [map, empty]

theorem isEmpty_map (f : α → δ) (q : PriorityQueue α cmp) : (map f q : PriorityQueue δ cmp').isEmpty = q.isEmpty := by
  simp only [isEmpty, map, Array.isEmpty, Array.size_map]

section

variable (hf : ∀ a b, cmp' (f a) (f b) = cmp a b)
include hf

theorem precedes_map (a b : Entry α) : (a.map f).precedes cmp' (b.map f) = a.precedes cmp b := by
  unfold Entry.precedes Entry.map
  rw [hf]

omit hf in
theorem getElem?_map (heap : Vector (Entry α) m) {i : Nat} (hi : i < m) :
    (heap.map (Entry.map f)).toArray[i]? = some (heap[i].map f) := by
  simp [hi]

omit hf in
theorem swap?_map (heap : Vector (Entry α) m) {i j : Nat} (hi : i < m) (hj : j < m) :
    swap? (heap.map (Entry.map f)).toArray i j = some ((heap.swap i j).map (Entry.map f)).toArray := by
  rw [swap?_of_lt (by simpa using hi) (by simpa using hj), Option.some.injEq]
  apply Array.ext
  · simp
  · intro k hk hk'
    simp only [Vector.toArray_map, Vector.toArray_swap, Array.getElem_swap, Array.getElem_map]
    split_ifs <;> rfl

theorem siftUp?_map (heap : Vector (Entry α) m) (i : Nat) (hi : i < m) :
    siftUp? cmp' (heap.map (Entry.map f)).toArray i = some ((siftUp cmp heap i hi).map (Entry.map f)).toArray := by
  fun_induction siftUp cmp heap i hi with
  | case1 heap i hi hpos parent hprecedes ih =>
    have hparent : (i - 1) / 2 < m := by omega
    rw [siftUp?, if_pos hpos]
    simp only [getElem?_map heap hi, getElem?_map heap hparent, precedes_map hf, swap?_map heap hparent hi,
      Option.bind_eq_bind, Option.bind_some]
    rw [if_pos hprecedes]
    exact ih
  | case2 heap i hi hpos parent hprecedes =>
    have hparent : (i - 1) / 2 < m := by omega
    rw [siftUp?, if_pos hpos]
    simp only [getElem?_map heap hi, getElem?_map heap hparent, precedes_map hf,
      Option.bind_eq_bind, Option.bind_some]
    rw [if_neg hprecedes]
    rfl
  | case3 heap i hi hpos =>
    rw [siftUp?, if_neg hpos]
    rfl

theorem smallerChild?_map (heap : Vector (Entry α) m) (i : Nat) :
    smallerChild? cmp' (heap.map (Entry.map f)).toArray i = some ((firstChild? cmp heap i).map Fin.val) := by
  have hsize : (heap.map (Entry.map f)).toArray.size = m := Vector.size_toArray _
  unfold smallerChild? firstChild?
  simp only [hsize]
  by_cases hleft : 2 * i + 1 < m
  · by_cases hright : 2 * i + 1 + 1 < m
    · simp only [hleft, hright, if_true, dif_pos, getElem?_map heap hleft, getElem?_map heap hright, precedes_map hf,
        Option.bind_eq_bind, Option.bind_some]
      split <;> rfl
    · simp only [hleft, hright, if_true, if_false, dif_pos, dif_neg, not_false_eq_true]
      rfl
  · simp only [hleft, if_false, dif_neg, not_false_eq_true]
    rfl

theorem Sift.turn?_map (heap : Vector (Entry α) m) (i : Nat) (hi : i < m) :
    turn? cmp' ⟨(heap.map (Entry.map f)).toArray, i, false⟩ = some
      (match firstChild? cmp heap i with
      | none => ⟨(heap.map (Entry.map f)).toArray, i, true⟩
      | some child =>
        if (getElem heap child child.isLt).precedes cmp heap[i] then
          ⟨((heap.swap i child hi child.isLt).map (Entry.map f)).toArray, child, false⟩
        else ⟨(heap.map (Entry.map f)).toArray, i, true⟩) := by
  rw [turn?, smallerChild?_map hf]
  cases firstChild? cmp heap i with
  | none => rfl
  | some child =>
    simp only [Option.map_some, getElem?_map heap hi, getElem?_map heap child.isLt, precedes_map hf,
      swap?_map heap hi child.isLt, Option.bind_eq_bind, Option.bind_some, Fin.getElem_fin]
    split <;> rfl

theorem siftDown?_map (heap : Vector (Entry α) m) (i : Nat) (hi : i < m) :
    siftDown? cmp' (heap.map (Entry.map f)).toArray i =
      some ((siftDown cmp heap i hi).map (Entry.map f)).toArray := by
  fun_induction siftDown cmp heap i hi with
  | case1 heap i hi hchild =>
    have hturn := Sift.turn?_map hf heap i hi
    simp only [hchild] at hturn
    rw [siftDown?, repeatUntil?_of_step rfl hturn, repeatUntil?_of_done rfl]
    rfl
  | case2 heap i hi child hchild hprecedes ih =>
    have hturn := Sift.turn?_map hf heap i hi
    simp only [hchild, hprecedes, if_true] at hturn
    rw [siftDown?, repeatUntil?_of_step rfl hturn]
    exact ih
  | case3 heap i hi child hchild hprecedes =>
    have hturn := Sift.turn?_map hf heap i hi
    simp only [hchild, hprecedes] at hturn
    rw [siftDown?, repeatUntil?_of_step rfl hturn, repeatUntil?_of_done rfl]
    rfl

theorem siftRoot?_map (heap : Array (Entry α)) :
    siftRoot? cmp' (heap.map (Entry.map f)) = some ((siftRoot cmp heap).map (Entry.map f)) := by
  unfold siftRoot? siftRoot
  by_cases hpos : 0 < heap.size
  · have hne : ¬ (heap.map (Entry.map f)).isEmpty = true := by
      rw [Array.isEmpty_iff_size_eq_zero, Array.size_map]
      omega
    rw [if_neg hne, dif_pos hpos]
    exact siftDown?_map hf ⟨heap, rfl⟩ 0 hpos
  · have hempty : (heap.map (Entry.map f)).isEmpty = true := by
      rw [Array.isEmpty_iff_size_eq_zero, Array.size_map]
      omega
    rw [if_pos hempty, dif_neg hpos]

/-- An insertion keeps within the array. -/
theorem insert?_map (q : PriorityQueue α cmp) (a : α) :
    (map f q : PriorityQueue δ cmp').insert? (f a) = some (map f (q.insert a)) := by
  obtain ⟨heap, serial⟩ := q
  let pushed : Vector (Entry α) (heap.size + 1) := ⟨heap.push ⟨serial, a⟩, Array.size_push ..⟩
  have hpushed : (heap.map (Entry.map f)).push ⟨serial, f a⟩ = (pushed.map (Entry.map f)).toArray := by
    simp [pushed, Entry.map]
  have hsize : (pushed.map (Entry.map f)).toArray.size = heap.size + 1 := Vector.size_toArray _
  simp only [insert?, map, hpushed, hsize, decrement?, siftUp?_map hf pushed heap.size (Nat.lt_succ_self _),
    Option.bind_eq_bind, Option.bind_some]
  rfl

/-- A removal keeps within the array. -/
theorem extractMin?_map (q : PriorityQueue α cmp) :
    (map f q : PriorityQueue δ cmp').extractMin? = some (q.extractMin.map (Option.map f) (map f)) := by
  obtain ⟨heap, serial⟩ := q
  by_cases hpos : 0 < heap.size
  · have hlast : heap.size - 1 < heap.size := by omega
    have hne : ¬ (heap.map (Entry.map f)).isEmpty = true := by
      rw [Array.isEmpty_iff_size_eq_zero, Array.size_map]
      omega
    have hdecrement : decrement? (heap.map (Entry.map f)).size = some (heap.size - 1) := by
      rw [Array.size_map, ← Nat.sub_add_cancel hpos]
      rfl
    have hswap : swap? (heap.map (Entry.map f)) 0 (heap.size - 1) =
        some ((heap.swap 0 (heap.size - 1)).map (Entry.map f)) := swap?_map ⟨heap, rfl⟩ hpos hlast
    have hback : ((heap.swap 0 (heap.size - 1)).map (Entry.map f)).back? = some (heap[0].map f) := by
      rw [Array.back?_eq_getElem?]
      simp [hpos]
    have hroot := siftRoot?_map hf (heap.swap 0 (heap.size - 1)).pop
    rw [Array.map_pop] at hroot
    simp only [extractMin?, map, hne, hdecrement, hswap, hback, hroot, Option.bind_eq_bind, Option.bind_some]
    simp [extractMin, hpos, Entry.map, map]
  · have hnil : heap = #[] := Array.eq_empty_of_size_eq_zero (by omega)
    subst hnil
    simp [extractMin?, extractMin, map]

end

end WeightedGraph.PriorityQueue
