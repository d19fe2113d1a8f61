import WeightedGraph.Proofs.PriorityQueue.HeapOrder

/-!
# The entries of a priority queue

What the operations of a priority queue do to its entries.  Inserting adds one entry and extracting takes the
first one out, whatever the comparator answers (`toList_insert_perm`, `toList_extractMin_perm`).  A queue that
is used with a total preorder `Holds` its entries in the order of their insertion; the key facts say what each
operation does to them, in particular that extracting takes out the first of the least (`Holds.extractMin`).
-/

namespace WeightedGraph.PriorityQueue

variable {α : Type} {cmp : α → α → Ordering}

/-! ### Entries under any comparator -/

theorem toList_insert_perm (q : PriorityQueue α cmp) (a : α) :
    (q.insert a).heap.toList.Perm (q.heap.toList ++ [⟨q.nextSerial, a⟩]) := by
  have h := (@siftUp_perm α _ cmp ⟨q.heap.push ⟨q.nextSerial, a⟩, Array.size_push ..⟩ q.heap.size
    (Nat.lt_succ_self _)).toArray.toList
  simpa [insert] using h

theorem toList_siftRoot_perm (heap : Array (Entry α)) : (siftRoot cmp heap).toList.Perm heap.toList := by
  unfold siftRoot
  split
  · exact (siftDown_perm ⟨heap, rfl⟩ 0 _).toArray.toList
  · exact .rfl

private theorem toList_pop_swap_perm (heap : Array (Entry α)) (h : 0 < heap.size) {last : Nat}
    (hlast : last < heap.size) (heq : last = heap.size - 1) :
    heap.toList.Perm (heap[0] :: (heap.swap 0 last h hlast).pop.toList) := by
  subst heq
  have hswap := (Array.swap_perm h hlast).toList
  have hsplit : (heap.swap 0 (heap.size - 1)).toList =
      (heap.swap 0 (heap.size - 1)).pop.toList ++ [heap[0]] := by
    have hne : (heap.swap 0 (heap.size - 1)).toList ≠ [] := by simp [Array.size_pos_iff.1 h]
    rw [Array.toList_pop, ← List.dropLast_concat_getLast hne]
    simp [List.getLast_eq_getElem]
  rw [hsplit] at hswap
  exact hswap.symm.trans (List.perm_append_singleton ..)

theorem toList_extractMin_perm {q : PriorityQueue α cmp} (h : 0 < q.heap.size) :
    q.heap.toList.Perm (q.heap[0] :: q.extractMin.2.heap.toList) := by
  have hx : q.extractMin.2.heap = siftRoot cmp (q.heap.swap 0 (q.heap.size - 1)).pop := by
    simp [extractMin, h]
  rw [hx]
  exact (toList_pop_swap_perm q.heap h _ rfl).trans ((toList_siftRoot_perm _).symm.cons _)

theorem mem_heap_insert {q : PriorityQueue α cmp} {a : α} {e : Entry α} :
    e ∈ (q.insert a).heap ↔ e ∈ q.heap ∨ e = ⟨q.nextSerial, a⟩ := by
  rw [← Array.mem_toList_iff, (toList_insert_perm q a).mem_iff]
  simp

/-- The item that is extracted was there, and so was all that remains. -/
theorem mem_heap_of_extractMin {q rest : PriorityQueue α cmp} {a : α} (h : q.extractMin = (some a, rest)) :
    (∃ e ∈ q.heap, e.item = a) ∧ ∀ e ∈ rest.heap, e ∈ q.heap := by
  have h0 : 0 < q.heap.size := Nat.pos_of_ne_zero fun h0 => by simp [extractMin, h0] at h
  have hperm := toList_extractMin_perm h0
  have hfirst : q.extractMin.1 = some q.heap[0].item := by simp [extractMin, h0]
  rw [h] at hperm hfirst
  refine ⟨⟨q.heap[0], Array.getElem_mem h0, (Option.some.inj hfirst).symm⟩, fun e he => ?_⟩
  rw [← Array.mem_toList_iff, hperm.mem_iff]
  exact List.mem_cons_of_mem _ (Array.mem_toList_iff.2 he)

/-! ### The order of entries under a total preorder -/

section

variable {S : α → Prop} (hS : OrdersOn cmp S)
include hS

private theorem siftRoot_heapOrder {heap : Array (Entry α)} (hheap : ∀ e ∈ heap, S e.item)
    (h : ∀ h0, OrderBelow cmp heap.toVector 0 h0) : HeapOrder cmp (siftRoot cmp heap) := by
  unfold siftRoot
  split
  · rename_i h0
    have hitems : ∀ e ∈ (⟨heap, rfl⟩ : Vector (Entry α) heap.size), S e.item :=
      fun e he => hheap e ((Vector.mem_toArray_iff ..).2 he)
    exact siftDown_heapOrder hS hitems (h h0)
  · rename_i h0
    exact fun j hj => absurd (Nat.lt_of_le_of_lt (Nat.zero_le j) hj) h0

theorem HeapOrder.insert {q : PriorityQueue α cmp} (h : HeapOrder cmp q.heap) (hheap : ∀ e ∈ q.heap, S e.item)
    {a : α} (ha : S a) : HeapOrder cmp (q.insert a).heap := by
  have hitems : ∀ e ∈ (⟨q.heap.push ⟨q.nextSerial, a⟩, Array.size_push ..⟩ :
      Vector (Entry α) (q.heap.size + 1)), S e.item := by
    intro e he
    have he : e ∈ q.heap.push ⟨q.nextSerial, a⟩ := (Vector.mem_toArray_iff ..).2 he
    rcases Array.mem_push.1 he with he | rfl
    · exact hheap e he
    · exact ha
  -- before it is sifted up, only the new entry can be out of order, and it has no children
  have habove : OrderAbove cmp (⟨q.heap.push ⟨q.nextSerial, a⟩, Array.size_push ..⟩ :
      Vector (Entry α) (q.heap.size + 1)) q.heap.size (Nat.lt_succ_self _) := by
    constructor
    · intro j hj hj0 hjlast
      have hj' : j < q.heap.size := by omega
      have := h j hj' hj0
      simpa [Array.getElem_push_lt, hj', show (j - 1) / 2 < q.heap.size by omega] using this
    · intro _ j hj hj0 hjlast
      omega
  exact siftUp_heapOrder hS hitems habove

theorem HeapOrder.extractMin {q : PriorityQueue α cmp} (h : HeapOrder cmp q.heap) (hheap : ∀ e ∈ q.heap, S e.item)
    (h0 : 0 < q.heap.size) : HeapOrder cmp q.extractMin.2.heap := by
  have hx : q.extractMin.2.heap = siftRoot cmp (q.heap.swap 0 (q.heap.size - 1)).pop := by
    simp [PriorityQueue.extractMin, h0]
  rw [hx]
  refine siftRoot_heapOrder hS ?_ fun _ => ⟨?_, fun h0 => absurd h0 (Nat.lt_irrefl 0)⟩
  · intro e he
    rw [← Array.mem_toList_iff, Array.toList_pop] at he
    exact hheap e ((Array.swap_perm h0 (by omega)).mem_iff.1 (Array.mem_toList_iff.1 (List.dropLast_subset _ he)))
  · intro j hj hj0 hj1
    -- the swap and the removal touch the first and the last place only
    have hj' : j < q.heap.size - 1 := by simpa using hj
    have horder := h j (show j < q.heap.size by omega) hj0
    simp only [Array.toVector, Vector.getElem_mk, Array.getElem_pop, Array.getElem_swap]
    rw [if_neg (show ¬ j = 0 by omega), if_neg (show ¬ j = q.heap.size - 1 by omega), if_neg hj1,
      if_neg (show ¬ (j - 1) / 2 = q.heap.size - 1 by omega)]
    exact horder

end

/-! ### The entries held -/

/-- The queue holds the given entries, which are listed in the order of their insertion. -/
structure Holds (q : PriorityQueue α cmp) (held : List (Entry α)) : Prop where
  perm : q.heap.toList.Perm held
  heapOrder : HeapOrder cmp q.heap
  serials : held.Pairwise fun a b => a.serial < b.serial
  lt_nextSerial : ∀ e ∈ held, e.serial < q.nextSerial

theorem holds_empty : Holds (empty : PriorityQueue α cmp) [] :=
  ⟨.rfl, fun _ hj => absurd hj (Nat.not_lt_zero _), .nil, fun _ he => absurd he List.not_mem_nil⟩

namespace Holds

variable {q : PriorityQueue α cmp} {held : List (Entry α)}

theorem clear (q : PriorityQueue α cmp) : Holds q.clear [] :=
  ⟨.rfl, fun _ hj => absurd hj (Nat.not_lt_zero _), .nil, fun _ he => absurd he List.not_mem_nil⟩

theorem extractMin_nil (h : Holds q []) : q.extractMin = (none, q) := by
  have hsize : q.heap.size = 0 := by simpa using h.perm.length_eq
  simp [PriorityQueue.extractMin, hsize]

variable (h : Holds q held)
include h

theorem size_eq : q.size = held.length := by
  have := h.perm.length_eq
  simpa [size] using this

theorem mem_iff {e : Entry α} : e ∈ q.heap ↔ e ∈ held := by
  rw [← Array.mem_toList_iff, h.perm.mem_iff]

variable {S : α → Prop} (hS : OrdersOn cmp S)
include hS

/-- An inserted item becomes the last entry. -/
theorem insert {a : α} (hheld : ∀ e ∈ held, S e.item) (ha : S a) :
    Holds (q.insert a) (held ++ [⟨q.nextSerial, a⟩]) where
  perm := (toList_insert_perm q a).trans (h.perm.append_right _)
  heapOrder := h.heapOrder.insert hS (fun e he => hheld e (h.mem_iff.1 he)) ha
  serials := by
    rw [List.pairwise_append]
    refine ⟨h.serials, List.pairwise_singleton .., ?_⟩
    intro e he b hb
    rw [List.mem_singleton.1 hb]
    exact h.lt_nextSerial e he
  lt_nextSerial := by
    intro e he
    show e.serial < q.nextSerial + 1
    rcases List.mem_append.1 he with he | he
    · exact Nat.lt_succ_of_lt (h.lt_nextSerial e he)
    · rw [List.mem_singleton.1 he]
      exact Nat.lt_succ_self _

/-- Extracting takes out the first of the least entries. -/
theorem extractMin (hheld : ∀ e ∈ held, S e.item) (hne : held ≠ []) :
    ∃ pre e post, held = pre ++ e :: post ∧ q.extractMin.1 = some e.item ∧ Holds q.extractMin.2 (pre ++ post) ∧
      (∀ b ∈ pre, cmp e.item b.item = .lt) ∧ ∀ b ∈ post, cmp e.item b.item ≠ .gt := by
  have h0 : 0 < q.heap.size := by
    have := h.size_eq
    have := List.length_pos_iff.2 hne
    unfold size at *
    omega
  have hitem (e : Entry α) (he : e ∈ q.heap) : S e.item := hheld e (h.mem_iff.1 he)
  have hfirst : q.heap[0] ∈ held := h.mem_iff.1 (Array.getElem_mem h0)
  obtain ⟨pre, post, hsplit⟩ := List.append_of_mem hfirst
  have hleast {e : Entry α} (he : e ∈ held) : ¬ e.precedes cmp q.heap[0] = true := by
    obtain ⟨j, hj, rfl⟩ := Array.mem_iff_getElem.1 (h.mem_iff.2 he)
    exact h.heapOrder.not_precedes_first hS hitem h0 j hj
  have hperm := (toList_extractMin_perm h0).symm.trans (hsplit ▸ h.perm)
  have hrest : (pre ++ post).Sublist held := hsplit ▸ (List.sublist_cons_self ..).append_left pre
  have hserials := h.serials
  rw [hsplit, List.pairwise_append] at hserials
  refine ⟨pre, q.heap[0], post, hsplit, by simp [PriorityQueue.extractMin, h0], ⟨?_, ?_, ?_, ?_⟩, ?_, ?_⟩
  · exact (hperm.trans List.perm_middle).cons_inv
  · exact h.heapOrder.extractMin hS hitem h0
  · exact h.serials.sublist hrest
  · intro e he
    have hx : q.extractMin.2.nextSerial = q.nextSerial := by simp [PriorityQueue.extractMin, h0]
    rw [hx]
    exact h.lt_nextSerial e (hrest.subset he)
  · -- an earlier entry has the smaller serial number, so it would precede the first one if they were equal
    intro b hb
    have hlt := hserials.2.2 b hb q.heap[0] List.mem_cons_self
    have hb : b ∈ held := by
      rw [hsplit]
      exact List.mem_append_left _ hb
    have hnot := hleast hb
    rw [Entry.precedes_iff, not_or] at hnot
    rw [hS.oriented _ _ (hheld _ hfirst) (hheld _ hb)]
    cases hc : cmp b.item q.heap[0].item <;> simp_all
  · intro b hb
    have hb : b ∈ held := by
      rw [hsplit]
      exact List.mem_append_right _ (List.mem_cons_of_mem _ hb)
    have hnot := hleast hb
    rw [Entry.precedes_iff, not_or] at hnot
    exact (hS.ne_gt_iff (hheld _ hfirst) (hheld _ hb)).2 hnot.1

end Holds

end WeightedGraph.PriorityQueue
