import WeightedGraph.Proofs.PriorityQueue.Held

/-!
# Priority queues are stable

Over a whole run of calls, and under a comparator that is a total preorder on the inserted items, a priority
queue behaves like a list of items in the order of their insertion: what it extracts is the earliest of the
least items (`FirstLeast`), what it peeks at is what it would extract, and its size is that of the list
(`performAll_serves`).  Draining it sorts the list stably (`Holds.drain`).
-/

namespace WeightedGraph.PriorityQueue

variable {α : Type} {cmp : α → α → Ordering}

/-! ### The earliest of the least items -/

/-- `a` is the earliest of the least items of a list, and the others are `rest`. -/
def FirstLeast (cmp : α → α → Ordering) (items : List α) (a : α) (rest : List α) : Prop :=
  ∃ pre post, items = pre ++ a :: post ∧ rest = pre ++ post ∧
    (∀ b ∈ pre, cmp a b = .lt) ∧ ∀ b ∈ post, cmp a b ≠ .gt

section

variable {le : α → α → Bool} (htrans : ∀ a b c, le a b = true → le b c = true → le a c = true)
  (htotal : ∀ a b, (le a b || le b a) = true)
include htrans htotal

private theorem mergeSort_cons_eq_orderedInsert (a : α) (l : List α) :
    (a :: l).mergeSort le = (l.mergeSort le).orderedInsert (le · · = true) a := by
  obtain ⟨l₁, l₂, hcons, hsort, hbefore⟩ := List.mergeSort_cons htrans htotal a l
  have hsorted := List.pairwise_mergeSort htrans htotal (a :: l)
  rw [hcons, List.pairwise_append] at hsorted
  rw [hcons, hsort]
  clear hcons hsort
  induction l₁ with
  | nil =>
    cases l₂ with
    | nil => rfl
    | cons b l₂ =>
      rw [List.nil_append, List.nil_append, List.orderedInsert_cons_of_le]
      exact (List.pairwise_cons.1 hsorted.2.1).1 b List.mem_cons_self
  | cons b l₁ ih =>
    have hb : ¬ le a b = true := by simpa using hbefore b List.mem_cons_self
    rw [List.cons_append, List.cons_append, List.orderedInsert_cons, if_neg hb]
    congr 1
    refine ih ?_ ⟨(List.pairwise_cons.1 hsorted.1).2, hsorted.2.1, ?_⟩
    · exact fun c hc => hbefore c (List.mem_cons_of_mem _ hc)
    · exact fun c hc => hsorted.2.2 c (List.mem_cons_of_mem _ hc)

/-- A stable sort puts the earliest of the least items first. -/
private theorem mergeSort_append_cons {pre post : List α} {a : α} (hpre : ∀ b ∈ pre, ¬ le b a = true)
    (hpost : ∀ b ∈ post, le a b = true) :
    (pre ++ a :: post).mergeSort le = a :: (pre ++ post).mergeSort le := by
  induction pre with
  | nil =>
    rw [List.nil_append, List.nil_append, mergeSort_cons_eq_orderedInsert htrans htotal]
    cases hl : post.mergeSort le with
    | nil => rfl
    | cons b l =>
      refine List.orderedInsert_cons_of_le _ _ (hpost b ?_)
      rw [← @List.mem_mergeSort _ le, hl]
      exact List.mem_cons_self
  | cons b pre ih =>
    rw [List.cons_append, List.cons_append, mergeSort_cons_eq_orderedInsert htrans htotal,
      ih fun c hc => hpre c (List.mem_cons_of_mem _ hc), List.orderedInsert_cons,
      if_neg (hpre b List.mem_cons_self), mergeSort_cons_eq_orderedInsert htrans htotal]

end

/-- The stable sort of items that the comparator need not order outside of a set. -/
theorem FirstLeast.mergeSort_eq {S : α → Prop} (hS : OrdersOn cmp S) {items rest : List α} {a : α}
    (hitems : ∀ b ∈ items, S b) (h : FirstLeast cmp items a rest) :
    items.mergeSort (cmp · · != .gt) = a :: rest.mergeSort (cmp · · != .gt) := by
  obtain ⟨pre, post, rfl, rfl, hpre, hpost⟩ := h
  -- sort the items as elements of the set
  let le (a b : {a // S a}) : Bool := cmp a b != .gt
  have hle (l : List {a // S a}) : (l.mergeSort le).map (↑) = (l.map (↑)).mergeSort (cmp · · != .gt) :=
    List.map_mergeSort fun _ _ _ _ => rfl
  have htrans (a b c : {a // S a}) (hab : le a b = true) (hbc : le b c = true) : le a c = true := by
    simp only [le, bne_iff_ne] at *
    exact hS.trans a b c a.2 b.2 c.2 hab hbc
  have htotal (a b : {a // S a}) : (le a b || le b a) = true := by
    have := hS.oriented a b a.2 b.2
    have := hS.oriented b a b.2 a.2
    simp only [le, Bool.or_eq_true, bne_iff_ne]
    by_cases h : cmp a b = .gt <;> simp_all
  have ha : S a := hitems a (List.mem_append_right _ List.mem_cons_self)
  have hpreS : ∀ b ∈ pre, S b := fun b hb => hitems b (List.mem_append_left _ hb)
  have hpostS : ∀ b ∈ post, S b := fun b hb => hitems b (List.mem_append_right _ (List.mem_cons_of_mem _ hb))
  lift pre to List {a // S a} using hpreS
  lift post to List {a // S a} using hpostS
  have hbefore (b : {a // S a}) (hb : b ∈ pre) : ¬ le b ⟨a, ha⟩ = true := by
    have := hpre b (List.mem_map_of_mem hb)
    simpa [le, ← hS.oriented _ _ ha b.2] using this
  have hafter (b : {a // S a}) (hb : b ∈ post) : le ⟨a, ha⟩ b = true := by
    simpa [le] using hpost b (List.mem_map_of_mem hb)
  have hmap := congrArg (List.map Subtype.val) (mergeSort_append_cons htrans htotal hbefore hafter)
  simpa [hle] using hmap

/-! ### Runs of calls -/

/-- A call of a queue. -/
inductive Call (α : Type)
  | insert (a : α)
  | extractMin
  | peek
  | size
  | clear

/-- What a queue answers to a call. -/
inductive Reply (α : Type)
  | done
  | item (a? : Option α)
  | size (n : Nat)

/-- The answer to a call, and the queue after it. -/
def perform (q : PriorityQueue α cmp) : Call α → Reply α × PriorityQueue α cmp
  | .insert a => (.done, q.insert a)
  | .extractMin => (.item q.extractMin.1, q.extractMin.2)
  | .peek => (.item q.peek?, q)
  | .size => (.size q.size, q)
  | .clear => (.done, q.clear)

/-- The answers to calls one after the other, and the queue after them. -/
def performAll (q : PriorityQueue α cmp) : List (Call α) → List (Reply α) × PriorityQueue α cmp
  | [] => ([], q)
  | call :: calls =>
    let (reply, q) := q.perform call
    let (replies, q) := q.performAll calls
    (reply :: replies, q)

/-- The items that calls insert. -/
def inserted (calls : List (Call α)) : List α :=
  calls.filterMap fun
    | .insert a => some a
    | _ => none

/-- The answer to a call that a list of items calls for, and the list after it. -/
inductive Serves (cmp : α → α → Ordering) : List α → Call α → Reply α → List α → Prop
  | insert (items : List α) (a : α) : Serves cmp items (.insert a) .done (items ++ [a])
  | extractMin {items rest : List α} {a : α} (h : FirstLeast cmp items a rest) :
    Serves cmp items .extractMin (.item (some a)) rest
  | extractMin_nil : Serves cmp [] .extractMin (.item none) []
  | peek {items rest : List α} {a : α} (h : FirstLeast cmp items a rest) :
    Serves cmp items .peek (.item (some a)) items
  | peek_nil : Serves cmp [] .peek (.item none) []
  | size (items : List α) : Serves cmp items .size (.size items.length) items
  | clear (items : List α) : Serves cmp items .clear .done []

/-- The answers to calls one after the other that a list of items calls for, and the list after them. -/
inductive ServesAll (cmp : α → α → Ordering) : List α → List (Call α) → List (Reply α) → List α → Prop
  | nil (items : List α) : ServesAll cmp items [] [] items
  | cons {items next last : List α} {call : Call α} {calls : List (Call α)} {reply : Reply α}
    {replies : List (Reply α)} (h : Serves cmp items call reply next)
    (hs : ServesAll cmp next calls replies last) : ServesAll cmp items (call :: calls) (reply :: replies) last

theorem ServesAll.eq_of_inserts {items last : List α} {replies : List (Reply α)} (as : List α)
    (h : ServesAll cmp items (as.map .insert) replies last) : last = items ++ as := by
  induction as generalizing items replies with
  | nil =>
    cases h
    exact (List.append_nil _).symm
  | cons a as ih =>
    cases h with
    | cons h hs =>
      cases h
      rw [ih hs, List.append_assoc]
      rfl

section

variable {S : α → Prop} (hS : OrdersOn cmp S) {q : PriorityQueue α cmp} {held : List (Entry α)}
include hS

theorem Holds.extractMin_firstLeast (h : Holds q held) (hheld : ∀ e ∈ held, S e.item) (hne : held ≠ []) :
    ∃ a rest, q.extractMin.1 = some a ∧ Holds q.extractMin.2 rest ∧ (∀ e ∈ rest, e ∈ held) ∧
      FirstLeast cmp (held.map (·.item)) a (rest.map (·.item)) := by
  obtain ⟨pre, e, post, rfl, hfirst, hrest, hpre, hpost⟩ := h.extractMin hS hheld hne
  refine ⟨e.item, pre ++ post, hfirst, hrest, ?_, pre.map (·.item), post.map (·.item), ?_, ?_, ?_, ?_⟩
  · exact fun b hb => ((List.sublist_cons_self ..).append_left pre).subset hb
  · rw [List.map_append, List.map_cons]
  · rw [List.map_append]
  · simpa using hpre
  · simpa using hpost

/-- A queue that is drained sorts its items stably. -/
theorem Holds.drain (h : Holds q held) (hheld : ∀ e ∈ held, S e.item) :
    q.drain.1 = (held.map (·.item)).mergeSort (cmp · · != .gt) := by
  fun_induction PriorityQueue.drain q generalizing held with
  | case1 q rest hq =>
    have hnil : held = [] := by
      by_contra hne
      obtain ⟨a, _, ha, _⟩ := h.extractMin_firstLeast hS hheld hne
      simp [hq] at ha
    simp [hnil]
  | case2 q a next hq as last has ih =>
    have hne : held ≠ [] := by
      rintro rfl
      simp [h.extractMin_nil] at hq
    obtain ⟨b, rest, hb, hrest, hsub, hleast⟩ := h.extractMin_firstLeast hS hheld hne
    rw [hq] at hb hrest
    cases hb
    have hitems : ∀ b ∈ held.map (·.item), S b := by simpa using hheld
    rw [hleast.mergeSort_eq hS hitems, ← ih hrest fun e he => hheld e (hsub e he), has]

/-- What one call does to a queue that holds items of a set. -/
theorem Holds.perform (h : Holds q held) (hheld : ∀ e ∈ held, S e.item) {call : Call α}
    (hcall : ∀ a ∈ inserted [call], S a) :
    ∃ next, Holds (q.perform call).2 next ∧ (∀ e ∈ next, S e.item) ∧
      Serves cmp (held.map (·.item)) call (q.perform call).1 (next.map (·.item)) := by
  cases call with
  | insert a =>
    have ha : S a := hcall a (List.mem_singleton.2 rfl)
    refine ⟨_, h.insert hS hheld ha, ?_, ?_⟩
    · simpa [or_imp, forall_and] using ⟨hheld, ha⟩
    · rw [List.map_append]
      exact .insert _ a
  | extractMin =>
    by_cases hne : held = []
    · subst hne
      refine ⟨[], ?_, hheld, ?_⟩ <;> simp only [PriorityQueue.perform, h.extractMin_nil]
      · exact h
      · exact .extractMin_nil
    · obtain ⟨a, rest, ha, hrest, hsub, hleast⟩ := h.extractMin_firstLeast hS hheld hne
      refine ⟨rest, hrest, fun e he => hheld e (hsub e he), ?_⟩
      simp only [PriorityQueue.perform, ha]
      exact .extractMin hleast
  | peek =>
    refine ⟨held, h, hheld, ?_⟩
    simp only [PriorityQueue.perform, ← extractMin_fst]
    by_cases hne : held = []
    · subst hne
      simp only [h.extractMin_nil]
      exact .peek_nil
    · obtain ⟨a, rest, ha, -, -, hleast⟩ := h.extractMin_firstLeast hS hheld hne
      simp only [ha]
      exact .peek hleast
  | size =>
    refine ⟨held, h, hheld, ?_⟩
    have hlength : q.size = (held.map (·.item)).length := h.size_eq.trans (List.length_map _).symm
    simp only [PriorityQueue.perform, hlength]
    exact .size _
  | clear => exact ⟨[], Holds.clear q, fun _ he => absurd he List.not_mem_nil, .clear _⟩

theorem Holds.performAll (h : Holds q held) (hheld : ∀ e ∈ held, S e.item) {calls : List (Call α)}
    (hcalls : ∀ a ∈ inserted calls, S a) :
    ∃ last, Holds (q.performAll calls).2 last ∧ (∀ e ∈ last, S e.item) ∧
      ServesAll cmp (held.map (·.item)) calls (q.performAll calls).1 (last.map (·.item)) := by
  induction calls generalizing q held with
  | nil => exact ⟨held, h, hheld, .nil _⟩
  | cons call calls ih =>
    have hinserted : inserted (call :: calls) = inserted [call] ++ inserted calls := by
      cases call <;> rfl
    rw [hinserted] at hcalls
    obtain ⟨next, hnext, hitems, hserves⟩ := h.perform hS hheld fun a ha =>
      hcalls a (List.mem_append_left _ ha)
    obtain ⟨last, hlast, hitems', hservesAll⟩ := ih hnext hitems fun a ha => hcalls a (List.mem_append_right _ ha)
    exact ⟨last, hlast, hitems', ServesAll.cons hserves hservesAll⟩

end

theorem eq_empty_of_withCapacity {q : PriorityQueue α cmp} {capacity itemBytes : Nat}
    (h : withCapacity capacity itemBytes = .ok q) : q = empty := by
  unfold withCapacity at h
  cases hr : Allocation.reserve capacity (itemBytes + serialBytes) with
  | error e => simp [hr, bind, Except.bind] at h
  | ok => simpa [hr, bind, Except.bind, pure, Except.pure] using h.symm

/-- Over a run of calls, a new queue serves what a list of the items in the order of their insertion serves, if the
comparator is a total preorder on the inserted items. -/
theorem performAll_serves {q : PriorityQueue α cmp}
    (hq : q = empty ∨ ∃ capacity itemBytes, withCapacity capacity itemBytes = .ok q) (calls : List (Call α))
    (hcmp : OrdersOn cmp (· ∈ inserted calls)) :
    ∃ items, ServesAll cmp [] calls (q.performAll calls).1 items ∧
      (q.performAll calls).2.size = items.length ∧
      (q.performAll calls).2.peek? = (q.performAll calls).2.extractMin.1 ∧
      (q.performAll calls).2.drain.1 = items.mergeSort (cmp · · != .gt) ∧
      ∀ as, calls = as.map .insert → items = as := by
  have hempty : q = empty := hq.elim id fun ⟨_, _, h⟩ => eq_empty_of_withCapacity h
  subst hempty
  obtain ⟨held, hheld, hitems, hserves⟩ := holds_empty.performAll hcmp (fun _ he => absurd he List.not_mem_nil)
    fun a ha => ha
  rw [List.map_nil] at hserves
  refine ⟨held.map (·.item), hserves, ?_, (extractMin_fst _).symm, hheld.drain hcmp hitems, ?_⟩
  · rw [hheld.size_eq, List.length_map]
  · rintro as rfl
    exact hserves.eq_of_inserts

private theorem ordersOn_compare_fst (S : Nat × Nat → Prop) : OrdersOn (compare ·.1 ·.1) S := by
  constructor
  · intro a b _ _
    rw [Nat.compare_eq_lt, Nat.compare_eq_gt]
  · intro a b c _ _ _
    simp only [ne_eq, Nat.compare_eq_gt]
    omega

/-- Two pairs with the same first number leave in the order of their insertion. -/
theorem performAll_serves_ties :
    ∃ items, ServesAll (fun a b : Nat × Nat => compare a.1 b.1) []
        [.insert (2, 0), .insert (1, 0), .extractMin, .insert (2, 1), .peek]
        [.done, .done, .item (some (1, 0)), .done, .item (some (2, 0))] items ∧
      items.mergeSort (fun a b => compare a.1 b.1 != .gt) = [(2, 0), (2, 1)] := by
  let calls : List (Call (Nat × Nat)) := [.insert (2, 0), .insert (1, 0), .extractMin, .insert (2, 1), .peek]
  let q : PriorityQueue (Nat × Nat) (compare ·.1 ·.1) := empty
  obtain ⟨items, hserves, -, -, hdrain, -⟩ := performAll_serves (.inl (show q = empty from rfl)) calls
    (ordersOn_compare_fst _)
  have hreplies : (q.performAll calls).1 =
      [.done, .done, .item (some (1, 0)), .done, .item (some (2, 0))] := by cbv
  have hsorted : (q.performAll calls).2.drain.1 = [(2, 0), (2, 1)] := by cbv
  rw [hreplies] at hserves
  exact ⟨items, hserves, hdrain ▸ hsorted⟩

end WeightedGraph.PriorityQueue
