import WeightedGraph.Proofs.PriorityQueue.Conserved
import WeightedGraph.Proofs.ShortestPaths.Optimal
import WeightedGraph.Proofs.Graph.Work

/-!
# The order of the frontier

Distances are compared as far as they are ordered (`Weight.partialCompare?`), and whatever the weights are, the entries
of a frontier always are, so the comparator never has to take two as equal because they are not ordered, and it is a
total preorder on the entries.

* (entries) An entry is put there for a way that is shorter than those found before, so the newest entry of a vertex
  that is not final is its distance and the others are longer (`State.Ordered`).
* (distances) Hence the entry that settles a vertex is its distance (`State.Ordered.distance_eq`), which stays what it
  is (`State.isFinal_later`).
* (order) If all weights are numbers and none is negative, no entry that leaves, stale or not, is shorter than those
  that have left before (`State.Rising`).
* (serial numbers) With fewer than `2 ^ 64 - 1` edges the serial numbers fit into 64 bits (`Graph.nextSerial_le`).
-/

namespace WeightedGraph

/-! ### Weights that are ordered -/

namespace Weight

variable {a b c : Weight}

/-- Compares by value, if both weights are numbers. -/
def partialCompare? (a b : Weight) : Option Ordering :=
  match decide (a ≤ b), decide (b ≤ a) with
  | false, false => none
  | false, true => some .gt
  | true, false => some .lt
  | true, true => some .eq

theorem partialCompare?_eq (ha : a.isNaN = false) (hb : b.isNaN = false) :
    partialCompare? a b = some (a.compare b) := by
  unfold partialCompare? Weight.compare
  simp only [← not_lt_iff ha hb, ← not_lt_iff hb ha]
  by_cases hab : a < b
  · have hba : ¬ b < a := fun hba => lt_irrefl a (lt_trans hab hba)
    simp [hab, hba]
  · by_cases hba : b < a <;> simp [hab, hba]

theorem partialCompare?_eq_none (h : ¬ (a.isNaN = false ∧ b.isNaN = false)) : partialCompare? a b = none := by
  have hab : ¬ a ≤ b := by
    intro hab
    obtain ⟨x, y, hx, hy, -⟩ := le_iff.1 hab
    exact h ⟨isNaN_eq_false_iff.2 ⟨x, hx⟩, isNaN_eq_false_iff.2 ⟨y, hy⟩⟩
  have hba : ¬ b ≤ a := by
    intro hba
    obtain ⟨y, x, hy, hx, -⟩ := le_iff.1 hba
    exact h ⟨isNaN_eq_false_iff.2 ⟨x, hx⟩, isNaN_eq_false_iff.2 ⟨y, hy⟩⟩
  simp [partialCompare?, hab, hba]

/-- Weights that are not ordered count as equal. -/
theorem compare_eq_getD (a b : Weight) : a.compare b = (partialCompare? a b).getD .eq := by
  by_cases h : a.isNaN = false ∧ b.isNaN = false
  · rw [partialCompare?_eq h.1 h.2, Option.getD_some]
  · have hab : ¬ a < b := fun hab => h (isNaN_of_lt hab)
    have hba : ¬ b < a := fun hba => h (isNaN_of_lt hba).symm
    rw [partialCompare?_eq_none h, Weight.compare, if_neg hab, if_neg hba, Option.getD_none]

theorem lt_of_lt_of_le (hab : a < b) (hbc : b ≤ c) : a < c := by
  obtain ⟨x, y, hx, hy, hxy⟩ := lt_iff.1 hab
  obtain ⟨y', z, hy', hz, hyz⟩ := le_iff.1 hbc
  obtain rfl : y = y' := Option.some.inj (hy.symm.trans hy')
  exact lt_iff.2 ⟨x, z, hx, hz, by omega⟩

end Weight

theorem PriorityQueue.items_of_extractMin {α : Type} {cmp : α → α → Ordering} {q rest : PriorityQueue α cmp} {a : α}
    (h : q.extractMin = (some a, rest)) : q.items.Perm (a :: rest.items) := by
  rcases q.extractMin_cases with ⟨-, hnone⟩ | ⟨b, hb, hperm⟩
  · rw [h] at hnone
    simp at hnone
  · rw [h] at hb hperm
    obtain rfl : a = b := Option.some.inj hb
    exact hperm

namespace ShortestPaths

open PriorityQueue (Entry OrdersOn)
open Weight (IsNonneg)

variable {n : Nat} {records : Fin n → Row (Fin n)} {source : Fin n}

namespace State

/-! ### The entries of a vertex -/

/-- The entries are at most as short as the distances of their vertices and not infinite.  If a vertex that is not final
is within reach, one of its entries is its distance, and the others are longer. -/
structure Ordered (s : State n) : Prop where
  distance_le : ∀ t ∈ s.frontier.items, s.distances.get t.vertex ≤ t.distance
  lt_infinity : ∀ t ∈ s.frontier.items, t.distance < infinity
  newest : ∀ v, s.finalized.contains v = false → s.distances.get v < infinity →
    ∃ others, (s.frontier.items.filter fun t => t.vertex = v).Perm (⟨v, s.distances.get v⟩ :: others) ∧
      ∀ t ∈ others, s.distances.get v < t.distance

theorem items_initial (source : Fin n) : (initial source).frontier.items = [⟨source, 0.0⟩] :=
  List.perm_singleton.1 (PriorityQueue.items_insert_perm PriorityQueue.empty _)

/-- A search begins with its source. -/
theorem extractMin_initial (source : Fin n) : (initial source).frontier.extractMin.1 = some ⟨source, 0.0⟩ := by
  rcases (initial source).frontier.extractMin_cases with ⟨hnil, -⟩ | ⟨t, ht, hperm⟩
  · rw [items_initial] at hnil
    contradiction
  · rw [items_initial] at hperm
    rw [ht, List.mem_singleton.1 (hperm.mem_iff.2 List.mem_cons_self)]

theorem ordered_initial (source : Fin n) : (initial source).Ordered := by
  have hzero : (initial source).distances.get source = 0.0 := by rw [distances_initial, if_pos rfl]
  constructor
  case distance_le =>
    intro t ht
    rw [items_initial, List.mem_singleton] at ht
    rw [ht, hzero]
    exact Weight.le_refl Weight.isNonneg_zero.1
  case lt_infinity =>
    intro t ht
    rw [items_initial, List.mem_singleton] at ht
    rw [ht]
    have hfinite : Float.isFinite 0.0 = true := by decide
    exact Weight.lt_infinity_of_isFinite hfinite
  case newest =>
    intro v _ hlt
    by_cases hv : source = v
    · subst hv
      rw [items_initial, hzero]
      exact ⟨[], by simp, fun _ ht => absurd ht List.not_mem_nil⟩
    · rw [distances_initial, if_neg hv] at hlt
      exact absurd hlt (Weight.lt_irrefl _)

/-- The entry that leaves is one of the shortest. -/
theorem FrontierHolds.least {s : State n} {held : List (Entry (Tentative n))} (h : s.FrontierHolds held)
    {t : Tentative n} (ht : s.frontier.extractMin.1 = some t) :
    t ∈ s.frontier.items ∧ ∀ x ∈ s.frontier.items, t.distance ≤ x.distance := by
  have hx : s.frontier.extractMin = (some t, s.frontier.extractMin.2) := Prod.ext ht rfl
  obtain ⟨-, -, -, -, -, hleast⟩ := h.extractMin hx
  refine ⟨(PriorityQueue.items_of_extractMin hx).mem_iff.2 List.mem_cons_self, fun x hx => ?_⟩
  obtain ⟨e', he', rfl⟩ := List.mem_map.1 hx
  exact hleast e' (h.holds.mem_iff.1 (Array.mem_toList_iff.1 he'))

namespace Ordered

variable {s : State n} (h : s.Ordered)
include h

/-- A new entry is shorter than those of its vertex that are there. -/
theorem shorten {u v : Fin n} {d : Weight} (hlt : d < s.distances.get v) : (s.shorten u v d).Ordered := by
  have hperm : (s.shorten u v d).frontier.items.Perm (s.frontier.items ++ [⟨v, d⟩]) :=
    PriorityQueue.items_insert_perm ..
  have hmem {t : Tentative n} : t ∈ (s.shorten u v d).frontier.items ↔ t ∈ s.frontier.items ∨ t = ⟨v, d⟩ := by
    rw [hperm.mem_iff, List.mem_append, List.mem_singleton]
  obtain ⟨hnan, hnan'⟩ := Weight.isNaN_of_lt hlt
  constructor
  case distance_le =>
    intro t ht
    rw [distances_shorten]
    rcases hmem.1 ht with ht | rfl
    · have hle := h.distance_le t ht
      split
      · rename_i hv
        exact Weight.le_trans (Weight.le_of_lt (hv ▸ hlt)) hle
      · exact hle
    · rw [if_pos rfl]
      exact Weight.le_refl hnan
  case lt_infinity =>
    intro t ht
    rcases hmem.1 ht with ht | rfl
    · exact h.lt_infinity t ht
    · exact Weight.lt_of_lt_of_le hlt (Weight.le_infinity hnan')
  case newest =>
    intro x hx hinf
    have hfilter := hperm.filter fun t => t.vertex = x
    rw [List.filter_append] at hfilter
    rw [distances_shorten] at hinf ⊢
    by_cases hv : v = x
    · subst hv
      rw [if_pos rfl]
      refine ⟨s.frontier.items.filter fun t => t.vertex = v, hfilter.trans ?_, ?_⟩
      · simp
      · intro t ht
        obtain ⟨hitem, hvertex⟩ := List.mem_filter.1 ht
        have hvertex : t.vertex = v := by simpa using hvertex
        exact Weight.lt_of_lt_of_le (hvertex ▸ hlt) (h.distance_le t hitem)
    · rw [if_neg hv] at hinf ⊢
      obtain ⟨others, hothers, hlonger⟩ := h.newest x hx hinf
      refine ⟨others, (hfilter.trans ?_).trans hothers, hlonger⟩
      simp [hv]

theorem relax (u : Fin n) (r : Record (Fin n)) : (s.relax u r).Ordered := by
  rcases s.relax_cases u r with ⟨heq, -⟩ | ⟨heq, -, hlt⟩
  · rw [heq]
    exact h
  · rw [heq]
    exact h.shorten hlt

/-- Once a vertex is final, its entries are not needed any more. -/
theorem leave {s' : State n} {t : Tentative n} (hperm : s.frontier.items.Perm (t :: s'.frontier.items))
    (hdistances : s'.distances = s.distances)
    (hfinal : ∀ v, s'.finalized.contains v = false → t.vertex ≠ v ∧ s.finalized.contains v = false) :
    s'.Ordered := by
  have hmem : ∀ x ∈ s'.frontier.items, x ∈ s.frontier.items :=
    fun x hx => hperm.mem_iff.2 (List.mem_cons_of_mem _ hx)
  constructor
  case distance_le => exact fun x hx => hdistances ▸ h.distance_le x (hmem x hx)
  case lt_infinity => exact fun x hx => h.lt_infinity x (hmem x hx)
  case newest =>
    intro v hv hinf
    rw [hdistances] at hinf ⊢
    obtain ⟨hne, hv⟩ := hfinal v hv
    obtain ⟨others, hothers, hlonger⟩ := h.newest v hv hinf
    have hfilter := hperm.filter fun t => t.vertex = v
    rw [List.filter_cons_of_neg (by simpa using hne)] at hfilter
    exact ⟨others, hfilter.symm.trans hothers, hlonger⟩

theorem step (records : Fin n → Row (Fin n)) (hdone : s.isDone = false) : (s.step records).Ordered := by
  obtain ⟨t, frontier, hx, hcases⟩ := step_cases records hdone
  have hperm := PriorityQueue.items_of_extractMin hx
  rcases hcases with ⟨hu, heq⟩ | ⟨hu, heq⟩
  · rw [heq]
    exact h.leave hperm rfl fun v hv => ⟨VertexSet.ne_of_contains hu hv, hv⟩
  · rw [heq]
    refine foldl_relax_induction (P := Ordered) ?_ fun s r hs _ => hs.relax t.vertex r
    exact h.leave hperm rfl fun v hv => VertexSet.not_contains_insert_iff.1 hv

/-- The entry that settles a vertex is its distance. -/
theorem distance_eq {held : List (Entry (Tentative n))} (hheld : s.FrontierHolds held) {t : Tentative n}
    (ht : s.frontier.extractMin.1 = some t) (hopen : s.finalized.contains t.vertex = false) :
    t.distance = s.distances.get t.vertex := by
  obtain ⟨hitem, hleast⟩ := hheld.least ht
  have hinf := Weight.lt_of_le_of_lt (h.distance_le t hitem) (h.lt_infinity t hitem)
  obtain ⟨others, hothers, hlonger⟩ := h.newest t.vertex hopen hinf
  have hnewest : ⟨t.vertex, s.distances.get t.vertex⟩ ∈ s.frontier.items :=
    (List.mem_filter.1 (hothers.mem_iff.2 List.mem_cons_self)).1
  rcases List.mem_cons.1 (hothers.mem_iff.1 (List.mem_filter.2 ⟨hitem, by simp⟩)) with heq | hother
  · exact congrArg Tentative.distance heq
  · -- a longer entry does not leave before the newest one
    have hlt := Weight.lt_of_lt_of_le (hlonger t hother) (hleast _ hnewest)
    exact absurd hlt (Weight.lt_irrefl _)

end Ordered

/-! ### Final distances -/

/-- The distance of a vertex is final. -/
def IsFinal (s : State n) (v : Fin n) (d : Weight) : Prop := s.finalized.contains v = true ∧ s.distances.get v = d

theorem IsFinal.relax {s : State n} {v : Fin n} {d : Weight} (h : s.IsFinal v d) (u : Fin n) (r : Record (Fin n)) :
    (s.relax u r).IsFinal v d := by
  rcases s.relax_cases u r with ⟨heq, -⟩ | ⟨heq, hopen, -⟩
  · rw [heq]
    exact h
  · rw [heq]
    refine ⟨h.1, ?_⟩
    rw [distances_shorten, if_neg (VertexSet.ne_of_contains h.1 hopen).symm]
    exact h.2

theorem IsFinal.step {s : State n} {v : Fin n} {d : Weight} (h : s.IsFinal v d) (hdone : s.isDone = false) :
    (s.step records).IsFinal v d := by
  obtain ⟨t, frontier, -, ⟨-, heq⟩ | ⟨-, heq⟩⟩ := step_cases records hdone
  · rw [heq]
    exact h
  · rw [heq]
    refine foldl_relax_induction (P := fun s => s.IsFinal v d) ?_ fun s r hs _ => hs.relax t.vertex r
    exact ⟨VertexSet.contains_insert_iff.2 (.inr h.1), h.2⟩

/-- A distance at which a vertex is settled is final. -/
theorem isFinal_step {s : State n} {t : Tentative n} (ht : s.frontier.extractMin.1 = some t)
    (hopen : s.finalized.contains t.vertex = false) (hdone : s.isDone = false) :
    (s.step records).IsFinal t.vertex (s.distances.get t.vertex) := by
  obtain ⟨t', frontier, hx, ⟨hu, -⟩ | ⟨-, heq⟩⟩ := step_cases records hdone
  all_goals
    rw [hx] at ht
    obtain rfl : t' = t := Option.some.inj ht
  · rw [hu] at hopen
    contradiction
  · rw [heq]
    refine foldl_relax_induction (P := fun s' => s'.IsFinal t'.vertex (s.distances.get t'.vertex)) ?_
      fun s r hs _ => hs.relax t'.vertex r
    exact ⟨VertexSet.contains_insert_iff.2 (.inl rfl), rfl⟩

theorem isDone_eq_false {s : State n} {t : Tentative n} (ht : s.frontier.extractMin.1 = some t) :
    s.isDone = false := by
  refine Bool.eq_false_of_not_eq_true fun hdone => ?_
  rw [extractMin_of_isDone hdone] at ht
  contradiction

/-- In all states after that in which a vertex is settled its distance is the same. -/
theorem isFinal_later {past later : List (State n)} {s : State n} (h : trace records source = past ++ s :: later)
    {t : Tentative n} (ht : s.frontier.extractMin.1 = some t) (hopen : s.finalized.contains t.vertex = false) :
    ∀ s' ∈ later, s'.IsFinal t.vertex (s.distances.get t.vertex) := by
  have hdone := isDone_eq_false ht
  have hlater := traceUntil_of_append h
  rw [traceUntil_of_not_done hdone] at hlater
  rw [← (List.cons.inj hlater).2]
  exact forall_mem_traceUntil (isFinal_step ht hopen hdone) fun s hs hdone => hs.step hdone

/-- The last state comes after every other one. -/
theorem run_mem_later {past later : List (State n)} {s : State n} (h : trace records source = past ++ s :: later)
    (hdone : s.isDone = false) : run records source ∈ later := by
  obtain ⟨before, hbefore, -⟩ := accounted_run records source
  rw [h] at hbefore
  rcases List.eq_nil_or_concat later with rfl | ⟨later, last, rfl⟩
  · have hlast : s = run records source := by simpa using (List.append_inj' hbefore rfl).2
    have hend : s.isDone = true := by
      rw [hlast]
      exact done_repeatUntil _
    rw [hend] at hdone
    contradiction
  · rw [List.concat_eq_append, ← List.cons_append, ← List.append_assoc] at hbefore
    have hlast : last = run records source := by simpa using (List.append_inj' hbefore rfl).2
    rw [← hlast, List.concat_eq_append]
    exact List.mem_append_right _ (List.mem_singleton_self last)

/-! ### The order in which entries leave -/

/-- The entries that leave, one with every step. -/
def taken (states : List (State n)) : List (Tentative n) := states.filterMap (·.frontier.extractMin.1)

/-- Entries have left in the order of their distances, and none that waits is shorter than they are. -/
structure Rising (past : List (State n)) (s : State n) : Prop where
  sorted : (taken past).Pairwise (·.distance ≤ ·.distance)
  le : ∀ a ∈ taken past, ∀ t ∈ s.frontier.items, a.distance ≤ t.distance

theorem rising_initial : (initial source).Rising [] where
  sorted := .nil
  le _ ha := absurd ha List.not_mem_nil

/-- If no weight is negative, a step leaves no entries that are shorter than the one that it takes. -/
theorem le_items_step (hweights : ∀ u, ∀ r ∈ records u, IsNonneg r.weight) {s : State n}
    {held : List (Entry (Tentative n))} (hheld : s.FrontierHolds held) (hordered : s.Ordered)
    (hnonneg : ∀ v, IsNonneg (s.distances.get v)) {t : Tentative n} (ht : s.frontier.extractMin.1 = some t) :
    ∀ x ∈ (s.step records).frontier.items, t.distance ≤ x.distance := by
  obtain ⟨-, hleast⟩ := hheld.least ht
  obtain ⟨t', frontier, hx, hcases⟩ := step_cases records (isDone_eq_false ht)
  obtain rfl : t' = t := by
    rw [hx] at ht
    exact Option.some.inj ht
  have hstay : ∀ x ∈ frontier.items, t'.distance ≤ x.distance := fun x hx' =>
    hleast x ((PriorityQueue.items_of_extractMin hx).mem_iff.2 (List.mem_cons_of_mem _ hx'))
  rcases hcases with ⟨-, heq⟩ | ⟨hopen, heq⟩
  · rw [heq]
    exact hstay
  · have hdistance := hordered.distance_eq hheld ht hopen
    rw [heq]
    refine (foldl_relax_induction (P := fun s' => s'.IsFinal t'.vertex t'.distance ∧
      ∀ x ∈ s'.frontier.items, t'.distance ≤ x.distance) ⟨⟨?_, ?_⟩, hstay⟩ ?_).2
    · exact VertexSet.contains_insert_iff.2 (.inl rfl)
    · exact hdistance.symm
    · rintro s' r ⟨hfinal, hle⟩ hr
      refine ⟨hfinal.relax t'.vertex r, ?_⟩
      rcases s'.relax_cases t'.vertex r with ⟨heq, -⟩ | ⟨heq, -⟩
      · rw [heq]
        exact hle
      · intro x hx'
        rw [heq, hfinal.2, frontier_shorten, (PriorityQueue.items_insert_perm ..).mem_iff, List.mem_append,
          List.mem_singleton] at hx'
        rcases hx' with hx' | rfl
        · exact hle x hx'
        · exact Weight.le_add_right (hdistance ▸ hnonneg t'.vertex) (hweights _ r hr)

theorem Rising.step (hweights : ∀ u, ∀ r ∈ records u, IsNonneg r.weight) {past : List (State n)} {s : State n}
    (h : s.Rising past) {held : List (Entry (Tentative n))} (hheld : s.FrontierHolds held) (hordered : s.Ordered)
    (hnonneg : ∀ v, IsNonneg (s.distances.get v)) (hdone : s.isDone = false) :
    (s.step records).Rising (past ++ [s]) := by
  obtain ⟨t, frontier, hx, -⟩ := step_cases records hdone
  have ht : s.frontier.extractMin.1 = some t := by rw [hx]
  have htaken : taken (past ++ [s]) = taken past ++ [t] := by
    rw [taken, filterMap_concat, ht]
    rfl
  have hlast : ∀ a ∈ taken past, a.distance ≤ t.distance := fun a ha => h.le a ha t (hheld.least ht).1
  have hstep := le_items_step hweights hheld hordered hnonneg ht
  constructor
  case sorted =>
    rw [htaken, List.pairwise_append]
    refine ⟨h.sorted, List.pairwise_singleton .., fun a ha b hb => ?_⟩
    rw [List.mem_singleton.1 hb]
    exact hlast a ha
  case le =>
    intro a ha b hb
    rw [htaken, List.mem_append, List.mem_singleton] at ha
    rcases ha with ha | rfl
    · exact Weight.le_trans (hlast a ha) (hstep b hb)
    · exact hstep b hb

/-- In every state the entries of the frontier are ordered. -/
theorem ordered_of_mem_trace {s : State n} (h : s ∈ trace records source) :
    (∃ held, s.FrontierHolds held) ∧ s.Ordered := by
  refine forall_mem_traceUntil (P := fun s : State n => (∃ held, s.FrontierHolds held) ∧ s.Ordered)
    ⟨⟨_, frontierHolds_initial source⟩, ordered_initial source⟩ ?_ s h
  rintro s ⟨⟨held, hheld⟩, hordered⟩ hdone
  exact ⟨hheld.step records hdone, hordered.step records hdone⟩

/-- If no weight is negative, the entries leave in the order of their distances. -/
theorem sorted_taken (hweights : ∀ u, ∀ r ∈ records u, IsNonneg r.weight) (source : Fin n) :
    (taken (trace records source)).Pairwise (·.distance ≤ ·.distance) := by
  obtain ⟨past, hpast, -, -, -, hrising⟩ : ∃ past, trace records source = past ++ [run records source] ∧
      (∃ held, (run records source).FrontierHolds held) ∧ (run records source).Ordered ∧
        (run records source).Cut records (fun _ _ => False) ∧ (run records source).Rising past := by
    refine exists_repeatUntil (P := fun past (s : State n) => (∃ held, s.FrontierHolds held) ∧ s.Ordered ∧
      s.Cut records (fun _ _ => False) ∧ s.Rising past)
      ⟨⟨_, frontierHolds_initial source⟩, ordered_initial source, cut_initial source, rising_initial⟩ ?_
    rintro past s ⟨⟨held, hheld⟩, hordered, hcut, hrising⟩ hdone
    exact ⟨hheld.step records hdone, hordered.step records hdone, hcut.step hheld hweights hdone,
      hrising.step hweights hheld hordered hcut.isNonneg hdone⟩
  have hdone : (run records source).isDone = true := done_repeatUntil _
  have htaken : taken (trace records source) = taken past := by
    rw [hpast, taken, filterMap_concat, extractMin_of_isDone hdone, Option.toList_none, List.append_nil]
    rfl
  rw [htaken]
  exact hrising.sorted

end State

end ShortestPaths

namespace Graph

open ShortestPaths
open PriorityQueue (OrdersOn)

variable {n : Nat}

theorem isNonneg_of_edges {g : Graph n} (h : ∀ e ∈ g.edges.toList, e.weight.isNaN = false ∧ ¬ e.weight < 0.0) :
    ∀ u, ∀ r ∈ g.adjacency.records u, Weight.IsNonneg r.weight := by
  intro u r hr
  refine h ⟨u, r.target, r.weight⟩ ?_
  rw [toList_edges, List.mem_flatMap]
  exact ⟨u, List.mem_finRange u, List.mem_map_of_mem hr⟩

/-- No more entries are inserted than there are edges, but for that of the source. -/
theorem nextSerial_le (g : Graph n) (source : Fin n) {s : State n} (h : s ∈ trace g.adjacency.records source) :
    s.frontier.nextSerial ≤ 1 + g.edges.toList.length := by
  obtain ⟨past, later, hsplit⟩ := List.append_of_mem h
  have haccounted : s.Accounted g.adjacency.records past :=
    traceUntil_induction State.accounted_initial (fun _ _ hs hdone => hs.step hdone) hsplit
  have hle := haccounted.inserted_le
  simp only [haccounted.finalized_iff] at hle
  rw [← countP_source_mem] at hle
  exact hle.trans (Nat.add_le_add_left List.countP_le_length 1)

/-- In every state of a search the frontier is well ordered, whatever the weights are, and the entry that settles a
vertex is its distance, which is the same ever after. -/
theorem frontier_ordered (g : Graph n) {source : Nat} (hs : source < n) :
    let states := trace g.adjacency.records ⟨source, hs⟩
    (∀ a b : Tentative n, a.compare b = (Weight.partialCompare? a.distance b.distance).getD .eq) ∧
    (∀ s ∈ states,
      (∀ a ∈ s.frontier.items, a.distance.isNaN = false ∧
        ∀ b ∈ s.frontier.items, Weight.partialCompare? a.distance b.distance = some (a.compare b)) ∧
      OrdersOn Tentative.compare (· ∈ s.frontier.items) ∧
      ∀ v, s.finalized.contains v = false → s.distances.get v < infinity →
        ∃ others, (s.frontier.items.filter fun t => t.vertex = v).Perm (⟨v, s.distances.get v⟩ :: others) ∧
          ∀ t ∈ others, s.distances.get v < t.distance) ∧
    (∃ p, (g.shortestPaths source).result = .ok p ∧
      ∀ past s later, states = past ++ s :: later → ∀ t, s.frontier.extractMin.1 = some t →
        s.finalized.contains t.vertex = false →
          t.distance = s.distances.get t.vertex ∧ (∀ s' ∈ later, s'.distances.get t.vertex = t.distance) ∧
            p.distance? t.vertex = some t.distance) ∧
    ((∀ e ∈ g.edges.toList, e.weight.isNaN = false ∧ ¬ e.weight < 0.0) →
      (states.filterMap (·.frontier.extractMin.1)).Pairwise (·.distance ≤ ·.distance)) ∧
    (g.edges.toList.length < 2 ^ 64 - 1 → ∀ s ∈ states, s.frontier.nextSerial < 2 ^ 64) := by
  lift source to Fin n using hs
  intro states
  refine ⟨fun a b => Weight.compare_eq_getD .., fun s hmem => ?_, ?_, ?_, ?_⟩
  · obtain ⟨⟨held, hheld⟩, hordered⟩ := State.ordered_of_mem_trace hmem
    have hnan : ∀ t ∈ s.frontier.items, t.distance.isNaN = false :=
      fun t ht => (Weight.isNaN_of_lt (hordered.lt_infinity t ht)).1
    refine ⟨fun a ha => ⟨hnan a ha, fun b hb => ?_⟩, ⟨?_, ?_⟩, hordered.newest⟩
    · exact Weight.partialCompare?_eq (hnan a ha) (hnan b hb)
    · exact fun a b ha hb => ordersOn_compare.oriented a b (hnan a ha) (hnan b hb)
    · exact fun a b c ha hb hc => ordersOn_compare.trans a b c (hnan a ha) (hnan b hb) (hnan c hc)
  · refine ⟨_, g.shortestPaths_of_lt source.isLt, fun past s later hsplit t ht hopen => ?_⟩
    have hmem : s ∈ states := by
      rw [hsplit]
      exact List.mem_append_right _ List.mem_cons_self
    obtain ⟨⟨held, hheld⟩, hordered⟩ := State.ordered_of_mem_trace hmem
    have hdistance := hordered.distance_eq hheld ht hopen
    have hlater := State.isFinal_later hsplit ht hopen
    rw [hdistance]
    refine ⟨rfl, fun s' hs' => (hlater s' hs').2, ?_⟩
    rw [distance?_val]
    exact congrArg some (hlater _ (State.run_mem_later hsplit (State.isDone_eq_false ht))).2
  · exact fun hweights => State.sorted_taken (isNonneg_of_edges hweights) source
  · intro hedges s hmem
    have hle := nextSerial_le g source hmem
    omega

/-- On a triangle the way over two short edges is found when that over the long one waits, whose entry leaves last.  The
source is settled first, and its distance stays zero. -/
theorem frontier_ordered_triangle :
    let g : Graph 3 := (((⟨.directed, .rows (.empty 3), 0⟩ : Graph 3).addEdge 0 1 5.0).2.addEdge 0 2 1.0).2.addEdge
      2 1 1.0 |>.2
    let states := trace g.adjacency.records 0
    (∃ p, (g.shortestPaths 0).result = .ok p ∧ p.distance? 0 = some 0.0) ∧
      (states.filterMap (·.frontier.extractMin.1)).Pairwise (·.distance ≤ ·.distance) ∧
      ∀ s ∈ states, s.frontier.nextSerial < 2 ^ 64 := by
  intro g states
  have hedges : g.edges.toList = [⟨0, 1, 5.0⟩, ⟨0, 2, 1.0⟩, ⟨2, 1, 1.0⟩] := by
    rw [toList_edges]
    rfl
  have hweights : ∀ e ∈ g.edges.toList, e.weight.isNaN = false ∧ ¬ e.weight < 0.0 := by
    rw [hedges]
    decide
  have hfew : g.edges.toList.length < 2 ^ 64 - 1 := by
    rw [hedges]
    decide
  have hfirst := State.extractMin_initial (0 : Fin 3)
  have hopen : (State.initial (0 : Fin 3)).finalized.contains 0 = false := rfl
  obtain ⟨-, -, ⟨p, hp, hsettles⟩, hsorted, hserials⟩ := frontier_ordered g (show 0 < 3 by decide)
  have hsource := hsettles [] _ _ (traceUntil_of_not_done (State.isDone_eq_false hfirst)) _ hfirst hopen
  exact ⟨⟨p, hp, hsource.2.2⟩, hsorted hweights, hserials hfew⟩

end Graph

end WeightedGraph
