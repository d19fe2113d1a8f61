import WeightedGraph.Proofs.Plain.Heap
import WeightedGraph.Proofs.PriorityQueue.Stable

/-!
# Priority queues lose no items

Whatever the comparator answers, the items that have been extracted since a queue was last cleared and the items that
it holds are together the items inserted since then (`Accounts`).  Each call keeps this up (`Accounts.perform`), so it
holds over whole runs (`performAll_conserves`): no order of the items is used, only that the sifts permute the heap.
They do so within its bounds and come to an end, from every place and under every comparator (`exists_siftUp?_perm`,
`exists_siftDown?_perm`).  The size of a queue is the number of items that it holds; it extracts something unless it
holds none, namely what peeking shows (`extractMin_cases`), and draining it gives what it holds (`drain_perm`).
-/

namespace WeightedGraph.PriorityQueue

variable {α : Type} {cmp : α → α → Ordering}

/-! ### Sifting on the array -/

@[simp] theorem Entry.map_id : (Entry.map id : Entry α → Entry α) = id := rfl

@[simp] theorem map_id (q : PriorityQueue α cmp) : (map id q : PriorityQueue α cmp) = q := by
  rw [map, Entry.map_id, Array.map_id]

private theorem compare_id (cmp : α → α → Ordering) : ∀ a b, cmp (id a) (id b) = cmp a b := fun _ _ => rfl

theorem exists_siftUp?_perm {heap : Array (Entry α)} {node : Nat} (h : node < heap.size) :
    ∃ sifted, siftUp? cmp heap node = some sifted ∧ sifted.Perm heap := by
  have hsifted := siftUp?_map (compare_id cmp) ⟨heap, rfl⟩ node h
  simp only [Entry.map_id, Vector.map_id] at hsifted
  exact ⟨_, hsifted, (siftUp_perm ⟨heap, rfl⟩ node h).toArray⟩

theorem exists_siftDown?_perm {heap : Array (Entry α)} {node : Nat} (h : node < heap.size) :
    ∃ sifted, siftDown? cmp heap node = some sifted ∧ sifted.Perm heap := by
  have hsifted := siftDown?_map (compare_id cmp) ⟨heap, rfl⟩ node h
  simp only [Entry.map_id, Vector.map_id] at hsifted
  exact ⟨_, hsifted, (siftDown_perm ⟨heap, rfl⟩ node h).toArray⟩

theorem insert?_eq (q : PriorityQueue α cmp) (a : α) : q.insert? a = some (q.insert a) := by
  have hinsert := insert?_map (compare_id cmp) q a
  rwa [map_id, map_id] at hinsert

theorem extractMin?_eq (q : PriorityQueue α cmp) : q.extractMin? = some q.extractMin := by
  have hextract := extractMin?_map (compare_id cmp) q
  have hsame : (map id : PriorityQueue α cmp → PriorityQueue α cmp) = id := funext map_id
  rwa [hsame, Option.map_id, Prod.map_id, id_eq, id_eq] at hextract

/-! ### The items held -/

/-- The items of a queue, in the order in which they lie in the heap. -/
def items (q : PriorityQueue α cmp) : List α := q.heap.toList.map (·.item)

theorem length_items (q : PriorityQueue α cmp) : q.items.length = q.size := by
  rw [items, List.length_map, Array.length_toList, size]

theorem items_insert_perm (q : PriorityQueue α cmp) (a : α) : (q.insert a).items.Perm (q.items ++ [a]) := by
  have hperm := (toList_insert_perm q a).map (·.item)
  rwa [List.map_append, List.map_singleton] at hperm

/-- Extracting takes one item out of the others, or finds that there is none. -/
theorem extractMin_cases (q : PriorityQueue α cmp) :
    q.items = [] ∧ q.extractMin = (none, q) ∨
      ∃ a, q.extractMin.1 = some a ∧ q.items.Perm (a :: q.extractMin.2.items) := by
  by_cases h : 0 < q.heap.size
  · refine .inr ⟨q.heap[0].item, by simp [extractMin, h], ?_⟩
    exact (toList_extractMin_perm h).map (·.item)
  · have hempty : q.heap = #[] := Array.eq_empty_of_size_eq_zero (Nat.le_zero.1 (Nat.not_lt.1 h))
    refine .inl ⟨by simp [items, hempty], ?_⟩
    obtain ⟨heap, serial⟩ := q
    obtain rfl : heap = #[] := hempty
    rfl

theorem extractMin_eq_none_iff (q : PriorityQueue α cmp) : q.extractMin.1 = none ↔ q.items = [] := by
  rcases q.extractMin_cases with ⟨hnil, hnone⟩ | ⟨a, ha, hperm⟩
  · simp [hnil, hnone]
  · have hne : q.items ≠ [] := by
      intro hnil
      rw [hnil] at hperm
      exact absurd hperm.symm.eq_nil (List.cons_ne_nil _ _)
    simp [ha, hne]

/-- Draining gives every item once. -/
theorem drain_perm (q : PriorityQueue α cmp) : q.drain.1.Perm q.items := by
  fun_induction drain q with
  | case1 q rest h =>
    rw [(extractMin_eq_none_iff q).1 (by rw [h])]
  | case2 q a next h as last hdrain ih =>
    rcases q.extractMin_cases with ⟨-, hnone⟩ | ⟨b, hb, hperm⟩
    · rw [h] at hnone
      simp at hnone
    · rw [h] at hb hperm
      obtain rfl : a = b := Option.some.inj hb
      rw [hdrain] at ih
      exact (ih.cons a).trans hperm.symm

theorem items_drain (q : PriorityQueue α cmp) : q.drain.2.items = [] := by
  fun_induction drain q with
  | case1 q rest h =>
    rcases q.extractMin_cases with ⟨hnil, hnone⟩ | ⟨a, ha, -⟩
    · obtain rfl : q = rest := congrArg Prod.snd (hnone.symm.trans h)
      exact hnil
    · simp [h] at ha
  | case2 q a next h as last hdrain ih =>
    rw [hdrain] at ih
    exact ih

/-! ### What has gone in and out -/

/-- The call takes all items out. -/
def Call.clears : Call α → Bool
  | .clear => true
  | _ => false

/-- The calls of a queue after the last one that cleared it, with the answers to them. -/
def sinceCleared (log : List (Call α × Reply α)) : List (Call α × Reply α) :=
  log.rtakeWhile fun entry => !entry.1.clears

/-- The items that have been extracted. -/
def extracted (log : List (Call α × Reply α)) : List α :=
  log.filterMap fun
    | (.extractMin, .item a?) => a?
    | _ => none

/-- What has been extracted since the queue was cleared and what it holds are together what has been inserted. -/
def Accounts (log : List (Call α × Reply α)) (q : PriorityQueue α cmp) : Prop :=
  (extracted (sinceCleared log) ++ q.items).Perm (inserted ((sinceCleared log).map Prod.fst))

/-- An entry of the log that does not clear the queue adds to what has gone in and out. -/
theorem accounts_concat_iff {log : List (Call α × Reply α)} {q : PriorityQueue α cmp} {call : Call α} {reply : Reply α}
    (h : call.clears = false) :
    Accounts (log ++ [(call, reply)]) q ↔
      (extracted (sinceCleared log) ++ extracted [(call, reply)] ++ q.items).Perm
        (inserted ((sinceCleared log).map Prod.fst) ++ inserted [call]) := by
  have hsince : sinceCleared (log ++ [(call, reply)]) = sinceCleared log ++ [(call, reply)] :=
    List.rtakeWhile_concat_pos _ _ _ (by simp [h])
  rw [Accounts, hsince, List.map_append, extracted, List.filterMap_append, inserted, List.filterMap_append]
  rfl

theorem accounts_empty : Accounts [] (empty : PriorityQueue α cmp) := .rfl

/-- A call that changes no item leaves the account as it is. -/
theorem Accounts.read {log : List (Call α × Reply α)} {q : PriorityQueue α cmp} (h : Accounts log q) {call : Call α}
    {reply : Reply α} (hclears : call.clears = false) (hin : inserted [call] = [])
    (hout : extracted [(call, reply)] = []) : Accounts (log ++ [(call, reply)]) q := by
  rw [accounts_concat_iff hclears, hin, hout, List.append_nil, List.append_nil]
  exact h

theorem Accounts.perform {log : List (Call α × Reply α)} {q : PriorityQueue α cmp} (h : Accounts log q)
    (call : Call α) : Accounts (log ++ [(call, (q.perform call).1)]) (q.perform call).2 := by
  cases call with
  | insert a =>
    rw [accounts_concat_iff rfl]
    show (extracted (sinceCleared log) ++ [] ++ (q.insert a).items).Perm _
    rw [List.append_nil]
    calc (extracted (sinceCleared log) ++ (q.insert a).items)
        |>.Perm (extracted (sinceCleared log) ++ (q.items ++ [a])) := (q.items_insert_perm a).append_left _
      _ = extracted (sinceCleared log) ++ q.items ++ [a] := (List.append_assoc ..).symm
      _ |>.Perm (inserted ((sinceCleared log).map Prod.fst) ++ [a]) := List.Perm.append_right [a] h
  | extractMin =>
    rcases q.extractMin_cases with ⟨-, hnone⟩ | ⟨a, ha, hperm⟩
    · simp only [PriorityQueue.perform, hnone]
      exact h.read rfl rfl rfl
    · rw [accounts_concat_iff rfl]
      simp only [PriorityQueue.perform, ha]
      show (extracted (sinceCleared log) ++ [a] ++ q.extractMin.2.items).Perm (_ ++ [])
      rw [List.append_assoc, List.append_nil]
      exact (hperm.symm.append_left _).trans h
  | peek => exact h.read rfl rfl rfl
  | size => exact h.read rfl rfl rfl
  | clear =>
    have hsince : sinceCleared (log ++ [(.clear, (q.perform .clear).1)]) = [] :=
      List.rtakeWhile_concat_neg _ _ _ (by simp [Call.clears])
    rw [Accounts, hsince]
    exact .rfl

theorem Accounts.performAll {log : List (Call α × Reply α)} {q : PriorityQueue α cmp} (h : Accounts log q)
    (calls : List (Call α)) : Accounts (log ++ calls.zip (q.performAll calls).1) (q.performAll calls).2 := by
  induction calls generalizing log q with
  | nil =>
    show Accounts (log ++ []) q
    rwa [List.append_nil]
  | cons call calls ih =>
    have hrest := ih (h.perform call)
    rw [List.append_assoc] at hrest
    exact hrest

theorem length_performAll (q : PriorityQueue α cmp) (calls : List (Call α)) :
    (q.performAll calls).1.length = calls.length := by
  induction calls generalizing q with
  | nil => rfl
  | cons call calls ih => exact congrArg (· + 1) (ih (q.perform call).2)

/-- Over a run of calls, a new queue loses no item and gives none twice, whatever its comparator answers, and every call
keeps within the bounds of the heap and ends. -/
theorem performAll_conserves {q : PriorityQueue α cmp}
    (hq : q = empty ∨ ∃ capacity itemBytes, withCapacity capacity itemBytes = .ok q) (calls : List (Call α)) :
    let final := (q.performAll calls).2
    let log := calls.zip (q.performAll calls).1
    (log.map Prod.fst = calls ∧
      (extracted (sinceCleared log) ++ final.items).Perm (inserted ((sinceCleared log).map Prod.fst))) ∧
    final.size = final.items.length ∧
    (final.extractMin.1 = none ↔ final.items = []) ∧
    final.peek? = final.extractMin.1 ∧
    (∀ a, final.insert? a = some (final.insert a)) ∧
    final.extractMin? = some final.extractMin ∧
    (∀ (heap : Array (Entry α)) (node : Nat), node < heap.size →
      (∃ sifted, siftUp? cmp heap node = some sifted ∧ sifted.Perm heap) ∧
      ∃ sifted, siftDown? cmp heap node = some sifted ∧ sifted.Perm heap) ∧
    final.drain.1.Perm final.items ∧ final.drain.1.length = final.size ∧ final.drain.2.items = [] := by
  intro final log
  have hempty : q = empty := hq.elim id fun ⟨_, _, h⟩ => eq_empty_of_withCapacity h
  subst hempty
  have haccounts : Accounts log final := accounts_empty.performAll calls
  refine ⟨⟨?_, haccounts⟩, (length_items final).symm, final.extractMin_eq_none_iff, (extractMin_fst final).symm,
    final.insert?_eq, final.extractMin?_eq, fun heap node h => ⟨exists_siftUp?_perm h, exists_siftDown?_perm h⟩,
    final.drain_perm, ?_, final.items_drain⟩
  · exact List.map_fst_zip (length_performAll empty calls).ge
  · rw [final.drain_perm.length_eq, length_items]

/-- A comparator that goes round in a circle has no order to serve, and yet each item leaves once. -/
theorem performAll_conserves_circular :
    let circular : Nat → Nat → Ordering := fun a b => if (a + 1) % 3 = b % 3 then .lt else .gt
    let q : PriorityQueue Nat circular := empty
    let calls : List (Call Nat) :=
      [.insert 7, .clear, .insert 0, .insert 1, .insert 2, .insert 1, .extractMin, .extractMin, .insert 0]
    ([2, 0] ++ (q.performAll calls).2.items).Perm [0, 1, 2, 1, 0] ∧
      (q.performAll calls).2.drain.1.Perm (q.performAll calls).2.items := by
  intro circular q calls
  obtain ⟨⟨-, haccounts⟩, -, -, -, -, -, -, hdrain, -⟩ := performAll_conserves (.inl (show q = empty from rfl)) calls
  have hextracted : extracted (sinceCleared (calls.zip (q.performAll calls).1)) = [2, 0] := by cbv
  have hinserted : inserted ((sinceCleared (calls.zip (q.performAll calls).1)).map Prod.fst) = [0, 1, 2, 1, 0] := by cbv
  rw [hextracted, hinserted] at haccounts
  exact ⟨haccounts, hdrain⟩

end WeightedGraph.PriorityQueue
