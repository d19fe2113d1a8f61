import WeightedGraph.Proofs.PriorityQueue.Held
import WeightedGraph.Proofs.ShortestPaths.Step
import WeightedGraph.Proofs.Weight.Laws

/-!
# The frontier of a search

Whatever the weights are, the entries of the frontier are numbers, so they are totally ordered; none of them is
below the distance of its vertex, and every vertex within reach that is not final has one at its distance
(`State.FrontierHolds`).  The entry that leaves is the least of them (`State.FrontierHolds.extractMin`).
-/

namespace WeightedGraph.ShortestPaths

open PriorityQueue (Entry OrdersOn)

variable {n : Nat}

/-- Ways whose lengths are numbers are totally ordered. -/
theorem ordersOn_compare : OrdersOn Tentative.compare fun t : Tentative n => t.distance.isNaN = false := by
  constructor
  · intro a b _ _
    exact Weight.compare_eq_lt_iff.trans Weight.compare_eq_gt_iff.symm
  · intro a b c ha hb hc hab hbc
    unfold Tentative.compare at *
    rw [ne_eq, Weight.compare_eq_gt_iff] at *
    rw [Weight.not_lt_iff hb ha] at hab
    rw [Weight.not_lt_iff hc hb] at hbc
    rw [Weight.not_lt_iff hc ha]
    exact Weight.le_trans hab hbc

namespace State

/-- The entries of the frontier, in the order of their insertion. -/
structure FrontierHolds (s : State n) (held : List (Entry (Tentative n))) : Prop where
  holds : s.frontier.Holds held
  isNaN_eq_false : ∀ e ∈ held, e.item.distance.isNaN = false
  distance_le : ∀ e ∈ held, s.distances.get e.item.vertex ≤ e.item.distance
  current : ∀ v, s.finalized.contains v = false → s.distances.get v < infinity →
    ∃ e ∈ held, e.item = ⟨v, s.distances.get v⟩

theorem frontierHolds_initial (source : Fin n) : (initial source).FrontierHolds [⟨0, ⟨source, 0.0⟩⟩] where
  holds := PriorityQueue.holds_empty.insert ordersOn_compare (fun _ he => absurd he List.not_mem_nil)
    Weight.isNonneg_zero.1
  isNaN_eq_false e he := by
    rw [List.mem_singleton.1 he]
    exact Weight.isNonneg_zero.1
  distance_le e he := by
    rw [List.mem_singleton.1 he, distances_initial, if_pos rfl]
    exact Weight.le_refl Weight.isNonneg_zero.1
  current v _ hlt := by
    rw [distances_initial] at hlt ⊢
    by_cases hv : source = v
    · exact ⟨_, List.mem_singleton_self _, by rw [if_pos hv, hv]⟩
    · rw [if_neg hv] at hlt
      exact absurd hlt (Weight.lt_irrefl _)

namespace FrontierHolds

variable {s : State n} {held : List (Entry (Tentative n))} (h : s.FrontierHolds held)
include h

/-- The entry that leaves is the least, and the others stay. -/
theorem extractMin {t : Tentative n} {frontier : PriorityQueue (Tentative n) Tentative.compare}
    (hx : s.frontier.extractMin = (some t, frontier)) :
    ∃ rest, frontier.Holds rest ∧ (∀ e ∈ rest, e ∈ held) ∧ (∀ e ∈ held, e.item.vertex ≠ t.vertex → e ∈ rest) ∧
      s.distances.get t.vertex ≤ t.distance ∧ ∀ e ∈ held, t.distance ≤ e.item.distance := by
  have hne : held ≠ [] := by
    rintro rfl
    rw [h.holds.extractMin_nil] at hx
    simp at hx
  obtain ⟨pre, e, post, rfl, hfirst, hrest, hpre, hpost⟩ :=
    h.holds.extractMin ordersOn_compare h.isNaN_eq_false hne
  rw [hx] at hfirst hrest
  obtain rfl : t = e.item := Option.some.inj hfirst
  have he : e ∈ pre ++ e :: post := List.mem_append_right _ List.mem_cons_self
  refine ⟨pre ++ post, hrest, ?_, ?_, h.distance_le e he, ?_⟩
  · intro b hb
    exact ((List.sublist_cons_self ..).append_left pre).subset hb
  · intro b hb hvertex
    rcases List.mem_append.1 hb with hb | hb
    · exact List.mem_append_left _ hb
    · rcases List.mem_cons.1 hb with rfl | hb
      · exact absurd rfl hvertex
      · exact List.mem_append_right _ hb
  · intro b hb
    have hnan := h.isNaN_eq_false e he
    rcases List.mem_append.1 hb with hb | hb
    · exact Weight.le_of_lt (Weight.compare_eq_lt_iff.1 (hpre b hb))
    · rcases List.mem_cons.1 hb with rfl | hb
      · exact Weight.le_refl hnan
      · have hbnan := h.isNaN_eq_false b (List.mem_append_right _ (List.mem_cons_of_mem _ hb))
        exact (Weight.not_lt_iff hbnan hnan).1 fun hlt => hpost b hb (Weight.compare_eq_gt_iff.2 hlt)

/-- Once a vertex is final, its entries are not needed any more. -/
theorem leave {s' : State n} {rest : List (Entry (Tentative n))} {u : Fin n} (hrest : s'.frontier.Holds rest)
    (hsub : ∀ e ∈ rest, e ∈ held) (hkeep : ∀ e ∈ held, e.item.vertex ≠ u → e ∈ rest)
    (hdistances : s'.distances = s.distances)
    (hfinal : ∀ v, s'.finalized.contains v = false → u ≠ v ∧ s.finalized.contains v = false) :
    s'.FrontierHolds rest where
  holds := hrest
  isNaN_eq_false e he := h.isNaN_eq_false e (hsub e he)
  distance_le e he := hdistances ▸ h.distance_le e (hsub e he)
  current v hv hlt := by
    rw [hdistances] at hlt ⊢
    obtain ⟨hne, hv⟩ := hfinal v hv
    obtain ⟨e, he, heq⟩ := h.current v hv hlt
    exact ⟨e, hkeep e he (by rw [heq]; exact hne.symm), heq⟩

theorem shorten {u v : Fin n} {d : Weight} (hlt : d < s.distances.get v) :
    (s.shorten u v d).FrontierHolds (held ++ [⟨s.frontier.nextSerial, ⟨v, d⟩⟩]) := by
  have hnan := (Weight.isNaN_of_lt hlt).1
  constructor
  case holds => exact h.holds.insert ordersOn_compare h.isNaN_eq_false hnan
  case isNaN_eq_false =>
    intro e he
    rcases List.mem_append.1 he with he | he
    · exact h.isNaN_eq_false e he
    · rw [List.mem_singleton.1 he]
      exact hnan
  case distance_le =>
    intro e he
    rw [distances_shorten]
    rcases List.mem_append.1 he with he | he
    · have hle := h.distance_le e he
      split
      · -- an entry for a longer way to `v` stays behind
        rename_i hv
        exact Weight.le_trans (Weight.le_of_lt (hv ▸ hlt)) hle
      · exact hle
    · rw [List.mem_singleton.1 he, if_pos rfl]
      exact Weight.le_refl hnan
  case current =>
    intro v' hv' hlt'
    rw [distances_shorten] at hlt' ⊢
    by_cases hv : v = v'
    · exact ⟨_, List.mem_append_right _ (List.mem_singleton_self _), by rw [if_pos hv, hv]⟩
    · rw [if_neg hv] at hlt' ⊢
      obtain ⟨e, he, heq⟩ := h.current v' hv' hlt'
      exact ⟨e, List.mem_append_left _ he, heq⟩

theorem relax (u : Fin n) (r : Record (Fin n)) : ∃ held, (s.relax u r).FrontierHolds held := by
  rcases s.relax_cases u r with ⟨heq, -⟩ | ⟨heq, -, hlt⟩
  · rw [heq]
    exact ⟨held, h⟩
  · rw [heq]
    exact ⟨_, h.shorten hlt⟩

theorem step (records : Fin n → Row (Fin n)) (hdone : s.isDone = false) :
    ∃ held, (s.step records).FrontierHolds held := by
  obtain ⟨t, frontier, hx, hcases⟩ := step_cases records hdone
  obtain ⟨rest, hrest, hsub, hkeep, -⟩ := h.extractMin hx
  rcases hcases with ⟨hu, heq⟩ | ⟨hu, heq⟩
  · rw [heq]
    exact ⟨rest, h.leave hrest hsub hkeep rfl fun v hv => ⟨VertexSet.ne_of_contains hu hv, hv⟩⟩
  · rw [heq]
    refine foldl_relax_induction (P := fun s => ∃ held, s.FrontierHolds held) ⟨rest, ?_⟩ ?_
    · exact h.leave hrest hsub hkeep rfl fun v hv => VertexSet.not_contains_insert_iff.1 hv
    · rintro s r ⟨held, hs⟩ -
      exact hs.relax t.vertex r

/-- At the end of a search the vertices that are not final are out of reach. -/
theorem infinite_of_isDone (hdone : s.isDone = true) {v : Fin n} (hv : s.finalized.contains v = false) :
    ¬ s.distances.get v < infinity := by
  intro hlt
  have hnil : held = [] := by
    have hsize := h.holds.size_eq
    have hempty : s.frontier.heap = #[] := by simpa [isDone, PriorityQueue.isEmpty] using hdone
    rw [PriorityQueue.size, hempty] at hsize
    exact List.length_eq_zero_iff.1 hsize.symm
  obtain ⟨e, he, -⟩ := h.current v hv hlt
  rw [hnil] at he
  contradiction

end FrontierHolds

theorem exists_frontierHolds_run (records : Fin n → Row (Fin n)) (source : Fin n) :
    ∃ held, (run records source).FrontierHolds held := by
  refine repeatUntil_induction (P := fun s : State n => ∃ held, s.FrontierHolds held)
    ⟨_, frontierHolds_initial source⟩ ?_
  rintro s ⟨held, hheld⟩ hdone
  exact hheld.step records hdone

end State

end WeightedGraph.ShortestPaths
