import Mathlib
import WeightedGraph.Worklist.PriorityQueue

/-!
# The order of a heap

The two sifts permute a heap, whatever the comparator answers (`siftUp_perm`, `siftDown_perm`).  If the
comparator is a total preorder on the items (`OrdersOn`), they also restore the heap order, in which no entry
precedes its parent (`siftUp_heapOrder`, `siftDown_heapOrder`), so that no entry precedes the first one
(`HeapOrder.not_precedes_first`).
-/

namespace WeightedGraph.PriorityQueue

variable {α : Type} {m : Nat} {cmp : α → α → Ordering}

/-- The comparator is a total preorder on the items of a set. -/
structure OrdersOn (cmp : α → α → Ordering) (S : α → Prop) : Prop where
  oriented : ∀ a b, S a → S b → (cmp a b = .lt ↔ cmp b a = .gt)
  trans : ∀ a b c, S a → S b → S c → cmp a b ≠ .gt → cmp b c ≠ .gt → cmp a c ≠ .gt

theorem OrdersOn.ne_gt_iff {S : α → Prop} (h : OrdersOn cmp S) {a b : α} (ha : S a) (hb : S b) :
    cmp a b ≠ .gt ↔ cmp b a ≠ .lt :=
  not_congr (h.oriented b a hb ha).symm

/-! ### The order of entries -/

theorem Entry.precedes_iff {a b : Entry α} :
    a.precedes cmp b = true ↔ cmp a.item b.item = .lt ∨ cmp a.item b.item = .eq ∧ a.serial < b.serial := by
  unfold precedes
  cases cmp a.item b.item <;> simp

section

variable {S : α → Prop} (hS : OrdersOn cmp S) {a b c : Entry α}
include hS

theorem OrdersOn.precedes_asymm (ha : S a.item) (hb : S b.item) (h : a.precedes cmp b = true) :
    ¬ b.precedes cmp a = true := by
  have hab := hS.oriented a.item b.item ha hb
  have hba := hS.oriented b.item a.item hb ha
  rw [Entry.precedes_iff] at h ⊢
  rintro (h' | ⟨h', hs⟩) <;> rcases h with h | ⟨h, hs'⟩ <;> simp_all
  omega

/-- An entry that does not precede a second one does not precede anything that the second one does not
precede. -/
theorem OrdersOn.not_precedes_trans (ha : S a.item) (hb : S b.item) (hc : S c.item)
    (hab : ¬ b.precedes cmp a = true) (hbc : ¬ c.precedes cmp b = true) : ¬ c.precedes cmp a = true := by
  rw [Entry.precedes_iff, not_or] at hab hbc
  have hab' := (hS.ne_gt_iff ha hb).2 hab.1
  have hbc' := (hS.ne_gt_iff hb hc).2 hbc.1
  have hac' := hS.trans _ _ _ ha hb hc hab' hbc'
  rw [Entry.precedes_iff]
  rintro (h | ⟨h, hs⟩)
  · exact (hS.ne_gt_iff ha hc).1 hac' h
  · -- all three items are equal, so the serial numbers decide
    have hca : cmp c.item a.item ≠ .gt := by simp [h]
    have hba := hS.trans _ _ _ hb hc ha hbc' hca
    have hcb := hS.trans _ _ _ hc ha hb hca hab'
    have hab'' : cmp b.item a.item = .eq := by
      cases hx : cmp b.item a.item <;> simp_all
    have hbc'' : cmp c.item b.item = .eq := by
      cases hx : cmp c.item b.item <;> simp_all
    have h1 := hab.2
    have h2 := hbc.2
    simp only [hab'', hbc'', true_and] at h1 h2
    omega

end

/-! ### Sifting permutes -/

theorem siftUp_perm (heap : Vector (Entry α) m) (i : Nat) (hi : i < m) :
    (siftUp cmp heap i hi).Perm heap := by
  fun_induction siftUp cmp heap i hi with
  | case1 heap i hi h parent hlt ih => exact ih.trans (Vector.swap_perm _ _)
  | case2 | case3 => exact .rfl

theorem siftDown_perm (heap : Vector (Entry α) m) (i : Nat) (hi : i < m) :
    (siftDown cmp heap i hi).Perm heap := by
  fun_induction siftDown cmp heap i hi with
  | case1 => exact .rfl
  | case2 heap i hi child h hlt ih => exact ih.trans (Vector.swap_perm _ _)
  | case3 => exact .rfl

/-! ### Sifting restores the order -/

/-- No entry precedes its parent. -/
def HeapOrder (cmp : α → α → Ordering) (heap : Array (Entry α)) : Prop :=
  ∀ j, (hj : j < heap.size) → 0 < j → ¬ heap[j].precedes cmp heap[(j - 1) / 2] = true

theorem heapOrder_toArray {heap : Vector (Entry α) m}
    (h : ∀ i j, (hi : i < m) → (hj : j < m) → 0 < j → (j - 1) / 2 = i → ¬ heap[j].precedes cmp heap[i] = true) :
    HeapOrder cmp heap.toArray := by
  intro j hj hj0
  have hj' : j < m := by simpa using hj
  exact h ((j - 1) / 2) j (by omega) hj' hj0 rfl

/-- No child of `i` precedes the parent of `i`. -/
def ChildrenInOrder (cmp : α → α → Ordering) (heap : Vector (Entry α) m) (i : Nat) (hi : i < m) : Prop :=
  0 < i → ∀ j, (hj : j < m) → 0 < j → (j - 1) / 2 = i → ¬ heap[j].precedes cmp heap[(i - 1) / 2] = true

/-- The heap order, where the entry at `i` may precede its ancestors. -/
structure OrderAbove (cmp : α → α → Ordering) (heap : Vector (Entry α) m) (i : Nat) (hi : i < m) : Prop where
  others : ∀ j, (hj : j < m) → 0 < j → j ≠ i → ¬ heap[j].precedes cmp heap[(j - 1) / 2] = true
  children : ChildrenInOrder cmp heap i hi

/-- The heap order, where the descendants of `i` may precede the entry there. -/
structure OrderBelow (cmp : α → α → Ordering) (heap : Vector (Entry α) m) (i : Nat) (hi : i < m) : Prop where
  others : ∀ j, (hj : j < m) → 0 < j → (j - 1) / 2 ≠ i → ¬ heap[j].precedes cmp heap[(j - 1) / 2] = true
  children : ChildrenInOrder cmp heap i hi

section

variable {S : α → Prop} (hS : OrdersOn cmp S) {heap : Vector (Entry α) m} (hheap : ∀ e ∈ heap, S e.item)
  {i : Nat} {hi : i < m}
include hS hheap

private theorem OrderAbove.swap (h : OrderAbove cmp heap i hi) (h0 : 0 < i)
    (hlt : heap[i].precedes cmp heap[(i - 1) / 2] = true) :
    OrderAbove cmp (heap.swap ((i - 1) / 2) i) ((i - 1) / 2) (by omega) := by
  have item (k : Nat) (hk : k < m) : S heap[k].item := hheap _ (Vector.getElem_mem hk)
  have hpar (k : Nat) (hk : k < m) : S heap[(k - 1) / 2].item := item _ (by omega)
  constructor
  · intro j hj hj0 hjp
    simp only [Vector.getElem_swap]
    rw [if_neg hjp]
    by_cases hji : j = i
    · subst hji
      rw [if_pos rfl, if_pos rfl]
      exact hS.precedes_asymm (item j hj) (hpar j hj) hlt
    · rw [if_neg hji]
      split
      · rename_i hjp'
        -- a sibling of `i` now has the entry from `i` above it
        have hsib := h.others j hj hj0 hji
        simp only [hjp'] at hsib
        exact hS.not_precedes_trans (item i hi) (hpar i hi) (item j hj)
          (hS.precedes_asymm (item i hi) (hpar i hi) hlt) hsib
      · split
        · rename_i hji'
          exact h.children h0 j hj hj0 hji'
        · exact h.others j hj hj0 hji
  · intro hp0 j hj hj0 hjp
    have hgrand := h.others ((i - 1) / 2) (by omega) hp0 (by omega)
    simp only [Vector.getElem_swap]
    rw [if_neg (show ¬ j = (i - 1) / 2 by omega), if_neg (show ¬ ((i - 1) / 2 - 1) / 2 = (i - 1) / 2 by omega),
      if_neg (show ¬ ((i - 1) / 2 - 1) / 2 = i by omega)]
    split
    · exact hgrand
    · rename_i hji
      have hsib := h.others j hj hj0 hji
      simp only [hjp] at hsib
      exact hS.not_precedes_trans (item _ (by omega)) (hpar i hi) (item j hj) hgrand hsib

/-- An entry that may precede its ancestors finds its place on the way up. -/
theorem siftUp_heapOrder (h : OrderAbove cmp heap i hi) : HeapOrder cmp (siftUp cmp heap i hi).toArray := by
  fun_induction siftUp cmp heap i hi with
  | case1 heap i hi h0 parent hlt ih =>
    refine ih (fun e he => hheap e ((Vector.swap_perm _ _).mem_iff.1 he)) ?_
    exact h.swap hS hheap h0 hlt
  | case2 heap i hi h0 parent hlt =>
    refine heapOrder_toArray ?_
    rintro _ j - hj hj0 rfl
    by_cases hji : j = i
    · subst hji
      exact hlt
    · exact h.others j hj hj0 hji
  | case3 heap i hi h0 =>
    refine heapOrder_toArray ?_
    rintro _ j - hj hj0 rfl
    exact h.others j hj hj0 (by omega)

omit hS hheap in
private theorem le_of_firstChild?_eq_none (h : firstChild? cmp heap i = none) : m ≤ 2 * i + 1 := by
  unfold firstChild? at h
  simp only at h
  split at h
  · split at h
    · split at h <;> contradiction
    · contradiction
  · omega

/-- No child precedes the first one. -/
private theorem firstChild?_eq_some {c : Fin m} (h : firstChild? cmp heap i = some c) :
    0 < c.val ∧ (c.val - 1) / 2 = i ∧
      ∀ j, (hj : j < m) → 0 < j → (j - 1) / 2 = i → ¬ heap[j].precedes cmp heap[c] = true := by
  have item (k : Nat) (hk : k < m) : S heap[k].item := hheap _ (Vector.getElem_mem hk)
  have irrefl (k : Nat) (hk : k < m) : ¬ heap[k].precedes cmp heap[k] = true :=
    fun h => hS.precedes_asymm (item k hk) (item k hk) h h
  unfold firstChild? at h
  simp only at h
  split at h
  · rename_i hl
    split at h
    · rename_i hr
      split at h
      · rename_i hlt
        cases h
        refine ⟨Nat.succ_pos _, by simp only; omega, fun j hj hj0 hji => ?_⟩
        rcases (show j = 2 * i + 1 ∨ j = 2 * i + 1 + 1 by omega) with rfl | rfl
        · exact hS.precedes_asymm (item _ hr) (item _ hl) hlt
        · exact irrefl _ hr
      · rename_i hlt
        cases h
        refine ⟨Nat.succ_pos _, by simp only; omega, fun j hj hj0 hji => ?_⟩
        rcases (show j = 2 * i + 1 ∨ j = 2 * i + 1 + 1 by omega) with rfl | rfl
        · exact irrefl _ hl
        · exact hlt
    · cases h
      refine ⟨Nat.succ_pos _, by simp only; omega, fun j hj hj0 hji => ?_⟩
      obtain rfl : j = 2 * i + 1 := by omega
      exact irrefl _ hl
  · contradiction

private theorem OrderBelow.swap (h : OrderBelow cmp heap i hi) {c : Fin m} (hc : firstChild? cmp heap i = some c)
    (hlt : (heap.get c).precedes cmp heap[i] = true) : OrderBelow cmp (heap.swap i c hi c.isLt) c c.isLt := by
  have item (k : Nat) (hk : k < m) : S heap[k].item := hheap _ (Vector.getElem_mem hk)
  obtain ⟨hc0, hci, hmin⟩ := firstChild?_eq_some hS hheap hc
  constructor
  · intro j hj hj0 hjc
    simp only [Vector.getElem_swap]
    rw [if_neg hjc]
    by_cases hji : (j - 1) / 2 = i
    · rw [if_pos hji, if_neg (show ¬ j = i by omega)]
      split
      · exact hS.precedes_asymm (item c c.isLt) (item i hi) hlt
      · exact hmin j hj hj0 hji
    · rw [if_neg hji, if_neg (show ¬ j = c.val by omega)]
      split
      · rename_i hji'
        subst hji'
        exact h.children hj0 c c.isLt hc0 hci
      · exact h.others j hj hj0 hji
  · intro _ j hj hj0 hjc
    have hbelow := h.others j hj hj0 (by omega)
    simp only [hjc] at hbelow
    simp only [Vector.getElem_swap]
    rw [if_neg (show ¬ j = i by omega), if_neg (show ¬ j = c.val by omega), if_pos hci]
    exact hbelow

/-- An entry that its descendants may precede finds its place on the way down. -/
theorem siftDown_heapOrder (h : OrderBelow cmp heap i hi) : HeapOrder cmp (siftDown cmp heap i hi).toArray := by
  have item (heap : Vector (Entry α) m) (hheap : ∀ e ∈ heap, S e.item) (k : Nat) (hk : k < m) : S heap[k].item :=
    hheap _ (Vector.getElem_mem hk)
  fun_induction siftDown cmp heap i hi with
  | case1 heap i hi hc =>
    refine heapOrder_toArray ?_
    rintro _ j - hj hj0 rfl
    have := le_of_firstChild?_eq_none hc
    exact h.others j hj hj0 (by omega)
  | case2 heap i hi c hc hlt ih =>
    refine ih (fun e he => hheap e ((Vector.swap_perm _ _).mem_iff.1 he)) ?_
    exact h.swap hS hheap hc hlt
  | case3 heap i hi c hc hlt =>
    obtain ⟨hc0, hci, hmin⟩ := firstChild?_eq_some hS hheap hc
    refine heapOrder_toArray ?_
    rintro _ j - hj hj0 rfl
    by_cases hji : (j - 1) / 2 = i
    · subst hji
      exact hS.not_precedes_trans (item heap hheap _ hi) (item heap hheap c c.isLt) (item heap hheap j hj) hlt
        (hmin j hj hj0 rfl)
    · exact h.others j hj hj0 hji

end

/-- No entry of a heap precedes the first one. -/
theorem HeapOrder.not_precedes_first {S : α → Prop} (hS : OrdersOn cmp S) {heap : Array (Entry α)}
    (hheap : ∀ e ∈ heap, S e.item) (h : HeapOrder cmp heap) (h0 : 0 < heap.size) (j : Nat) (hj : j < heap.size) :
    ¬ heap[j].precedes cmp heap[0] = true := by
  have item (k : Nat) (hk : k < heap.size) : S heap[k].item := hheap _ (Array.getElem_mem hk)
  induction j using Nat.strongRecOn with
  | ind j ih =>
    by_cases hj0 : j = 0
    · subst hj0
      exact fun h => hS.precedes_asymm (item 0 hj) (item 0 hj) h h
    · exact hS.not_precedes_trans (item 0 h0) (item _ (by omega)) (item j hj)
        (ih ((j - 1) / 2) (by omega) (by omega)) (h j hj (by omega))

end WeightedGraph.PriorityQueue
