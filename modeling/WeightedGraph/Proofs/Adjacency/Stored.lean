import WeightedGraph.Proofs.Adjacency.Allocated

/-!
# What an adjacency stores

What is found after an operation of an adjacency, in either representation: an upsert and a removal change the
weight between two vertices and say whether there was one before (`weight?_upsert`, `weight?_remove`).  Removing
relies on rows that hold no target twice (`Adjacency.Distinct`), which every operation keeps up, and which makes
the records of a vertex the weights that are found (`mem_records_iff`).
-/

namespace WeightedGraph

/-! ### Rows -/

namespace Row

variable {V : Type} [DecidableEq V] {row : Row V}

theorem weightTo?_cons (r : Record V) (row : Row V) (t : V) :
    weightTo? (r :: row) t = if r.target = t then some r.weight else row.weightTo? t := by
  by_cases h : r.target = t <;> simp [weightTo?, h]

theorem weightTo?_eq_none_iff {t : V} : row.weightTo? t = none ↔ t ∉ row.targets := by
  rw [← leadsTo_eq_true_iff, ← isSome_weightTo?, Option.not_isSome_iff_eq_none]

theorem without_cons (r : Record V) (row : Row V) (t : V) :
    without (r :: row) t = if r.target = t then row else r :: row.without t := by
  by_cases h : r.target = t <;> simp [without, h]

/-- In a row that holds no target twice an edge that is taken out is gone, and any other is found as before. -/
theorem weightTo?_without (h : row.targets.Nodup) (t t' : V) :
    (row.without t).weightTo? t' = if t = t' then none else row.weightTo? t' := by
  induction row with
  | nil => simp [without, weightTo?]
  | cons r row ih =>
    have hcons : r.target ∉ targets row ∧ (targets row).Nodup := List.nodup_cons.1 h
    rw [without_cons, weightTo?_cons]
    by_cases hr : r.target = t
    · -- the first occurrence of `t` is taken out, and there is no second one
      rw [if_pos hr, ← hr]
      by_cases ht : r.target = t'
      · rw [if_pos ht, ← ht]
        exact weightTo?_eq_none_iff.2 hcons.1
      · rw [if_neg ht, if_neg ht]
    · rw [if_neg hr, weightTo?_cons, ih hcons.2]
      by_cases hr' : r.target = t'
      · rw [if_pos hr', if_neg fun ht => hr (hr'.trans ht.symm), if_pos hr']
      · rw [if_neg hr', if_neg hr']

theorem mem_iff_weightTo? (h : row.targets.Nodup) {t : V} {w : Weight} :
    (⟨t, w⟩ : Record V) ∈ row ↔ row.weightTo? t = some w := by
  induction row with
  | nil => simp [weightTo?]
  | cons r row ih =>
    have hcons : r.target ∉ targets row ∧ (targets row).Nodup := List.nodup_cons.1 h
    rw [List.mem_cons, ih hcons.2, weightTo?_cons]
    by_cases hr : r.target = t
    · subst hr
      rw [if_pos rfl, weightTo?_eq_none_iff.2 hcons.1]
      cases r
      simp [eq_comm]
    · have hne : (⟨t, w⟩ : Record V) ≠ r := fun h' => hr (congrArg Record.target h').symm
      simp [hr, hne]

theorem nodup_targets_put (h : row.targets.Nodup) (t : V) (w : Weight) : (row.put t w).targets.Nodup := by
  rw [targets_put]
  split
  · exact h
  · rename_i ht
    exact (List.nodup_append_comm.1 (List.nodup_cons.2 ⟨ht, h⟩ : ([t] ++ row.targets).Nodup))

theorem nodup_targets_without (h : row.targets.Nodup) (t : V) : (row.without t).targets.Nodup := by
  rw [targets_without]
  exact h.erase t

end Row

/-! ### Grids -/

namespace Grid

variable {n : Nat} (a : Grid n)

theorem weight?_upsert (u v : Fin n) (w : Weight) (u' v' : Fin n) :
    (a.upsert u v w).2.weight? u' v' = if u = u' ∧ v = v' then some w else a.weight? u' v' := by
  unfold weight?
  rw [contains_upsert, rawWeight_upsert]
  by_cases h : u = u' ∧ v = v' <;> simp [h]

theorem weight?_remove (u v u' v' : Fin n) :
    (a.remove u v).2.weight? u' v' = if u = u' ∧ v = v' then none else a.weight? u' v' := by
  unfold weight?
  rw [contains_remove, rawWeight_remove]
  by_cases h : u = u' ∧ v = v' <;> simp [h]

theorem isSome_weight? (u v : Fin n) : (a.weight? u v).isSome = a.contains u v := by
  unfold weight?
  cases a.contains u v <;> rfl

theorem mem_records_iff {u v : Fin n} {w : Weight} : ⟨v, w⟩ ∈ a.records u ↔ a.weight? u v = some w := by
  simp only [records, weight?, List.mem_filterMap, List.mem_finRange, true_and]
  constructor
  · rintro ⟨v', h⟩
    split at h
    · cases h
      simpa
    · contradiction
  · intro h
    refine ⟨v, ?_⟩
    split at h
    · cases h
      simp [*]
    · contradiction

theorem targets_records (u : Fin n) : (a.records u).targets = (List.finRange n).filter (a.contains u) := by
  unfold records Row.targets
  rw [List.map_filterMap, ← List.filterMap_eq_filter]
  congr 1
  funext v
  by_cases h : a.contains u v = true <;> simp [h, Option.guard]

end Grid

/-! ### Adjacencies -/

namespace Adjacency

variable {n : Nat} {a : Adjacency n}

/-- No row holds a target twice. -/
def Distinct (a : Adjacency n) : Prop := ∀ u, (a.records u).targets.Nodup

theorem contains_eq (a : Adjacency n) (u v : Fin n) : a.contains u v = (a.weight? u v).isSome := by
  cases a with
  | rows a => exact (Row.isSome_weightTo? _ _).symm
  | grid a => exact (a.isSome_weight? u v).symm

/-- An upsert says whether the edge is new. -/
theorem fst_upsert (a : Adjacency n) (u v : Fin n) (w : Weight) :
    (a.upsert u v w).1 = !(a.weight? u v).isSome := by
  rw [← contains_eq]
  cases a <;> rfl

/-- A removal says whether there was an edge. -/
theorem fst_remove (a : Adjacency n) (u v : Fin n) : (a.remove u v).1 = (a.weight? u v).isSome := by
  rw [← contains_eq]
  cases a <;> rfl

theorem weight?_upsert (a : Adjacency n) (u v : Fin n) (w : Weight) (u' v' : Fin n) :
    (a.upsert u v w).2.weight? u' v' = if u = u' ∧ v = v' then some w else a.weight? u' v' := by
  cases a with
  | grid a => exact a.weight?_upsert u v w u' v'
  | rows a =>
    show ((a.setRow u ((a.records u).put v w)).records u').weightTo? v' = _
    rw [Rows.records_setRow]
    by_cases hu : u = u'
    · subst hu
      rw [if_pos rfl, Row.weightTo?_put]
      simp [weight?, Rows.weight?]
    · simp [hu, weight?, Rows.weight?]

theorem weight?_remove (h : a.Distinct) (u v u' v' : Fin n) :
    (a.remove u v).2.weight? u' v' = if u = u' ∧ v = v' then none else a.weight? u' v' := by
  cases a with
  | grid a => exact a.weight?_remove u v u' v'
  | rows a =>
    show ((a.setRow u ((a.records u).without v)).records u').weightTo? v' = _
    rw [Rows.records_setRow]
    by_cases hu : u = u'
    · subst hu
      have hrow : (a.records u).targets.Nodup := h u
      rw [if_pos rfl, Row.weightTo?_without hrow]
      simp [weight?, Rows.weight?]
    · simp [hu, weight?, Rows.weight?]

@[simp] theorem weight?_clear (a : Adjacency n) (u v : Fin n) : a.clear.weight? u v = none := by
  cases a with
  | rows a =>
    show (a.clear.records u).weightTo? v = none
    rw [Rows.records_clear]
    rfl
  | grid a =>
    show a.clear.weight? u v = none
    simp [Grid.weight?]

/-- The records of a vertex are the weights that are found. -/
theorem mem_records_iff (h : a.Distinct) {u v : Fin n} {w : Weight} :
    ⟨v, w⟩ ∈ a.records u ↔ a.weight? u v = some w := by
  cases a with
  | rows a => exact Row.mem_iff_weightTo? (h u)
  | grid a => exact a.mem_records_iff

theorem distinct_grid (a : Grid n) : (grid a).Distinct := by
  intro u
  show (a.records u).targets.Nodup
  rw [Grid.targets_records]
  exact (List.nodup_finRange n).filter _

private theorem distinct_setRow {a : Rows n} (h : (rows a).Distinct) {u : Fin n} {row : Row (Fin n)}
    (hrow : row.targets.Nodup) : (rows (a.setRow u row)).Distinct := by
  intro u'
  show ((a.setRow u row).records u').targets.Nodup
  rw [Rows.records_setRow]
  split
  · exact hrow
  · exact h u'

theorem Distinct.upsert (h : a.Distinct) (u v : Fin n) (w : Weight) : (a.upsert u v w).2.Distinct := by
  cases a with
  | rows a => exact distinct_setRow h (Row.nodup_targets_put (h u) v w)
  | grid a => exact distinct_grid _

theorem Distinct.remove (h : a.Distinct) (u v : Fin n) : (a.remove u v).2.Distinct := by
  cases a with
  | rows a => exact distinct_setRow h (Row.nodup_targets_without (h u) v)
  | grid a => exact distinct_grid _

theorem distinct_of_records_eq_nil (h : ∀ u, a.records u = []) : a.Distinct := by
  intro u
  rw [h]
  exact List.nodup_nil

theorem distinct_clear (a : Adjacency n) : a.clear.Distinct := by
  cases a with
  | rows a => exact distinct_of_records_eq_nil fun u => Rows.records_clear a u
  | grid a => exact distinct_grid _

theorem weight?_of_allocate {r : Representation} (h : allocate n r = .ok a) (u v : Fin n) :
    a.weight? u v = none := by
  rcases eq_empty_of_allocate h with rfl | rfl
  · show ((Rows.empty n).records u).weightTo? v = none
    rw [Rows.records_empty]
    rfl
  · show (Grid.empty n).weight? u v = none
    simp [Grid.weight?]

theorem distinct_of_allocate {r : Representation} (h : allocate n r = .ok a) : a.Distinct := by
  rcases eq_empty_of_allocate h with rfl | rfl
  · exact distinct_of_records_eq_nil Rows.records_empty
  · exact distinct_grid _

/-! ### Cells without an edge -/

/-- Where there is no edge the weight is zero. -/
def Blank : Adjacency n → Prop
  | .rows _ => True
  | .grid a => ∀ u v, a.contains u v = false → a.rawWeight u v = 0.0

theorem blank_empty_grid : (grid (.empty n)).Blank := by
  intro u v _
  simp [Grid.rawWeight, Grid.empty]

theorem Blank.upsert (h : a.Blank) (u v : Fin n) (w : Weight) : (a.upsert u v w).2.Blank := by
  cases a with
  | rows a => trivial
  | grid a =>
    intro u' v' hunset
    change (a.upsert u v w).2.contains u' v' = false at hunset
    show (a.upsert u v w).2.rawWeight u' v' = 0.0
    rw [Grid.contains_upsert] at hunset
    rw [Grid.rawWeight_upsert]
    split
    · rename_i hcell
      rw [if_pos hcell] at hunset
      contradiction
    · rename_i hcell
      rw [if_neg hcell] at hunset
      exact h u' v' hunset

theorem Blank.remove (h : a.Blank) (u v : Fin n) : (a.remove u v).2.Blank := by
  cases a with
  | rows a => trivial
  | grid a =>
    intro u' v' hunset
    change (a.remove u v).2.contains u' v' = false at hunset
    show (a.remove u v).2.rawWeight u' v' = 0.0
    rw [Grid.contains_remove] at hunset
    rw [Grid.rawWeight_remove]
    split
    · rfl
    · rename_i hcell
      rw [if_neg hcell] at hunset
      exact h u' v' hunset

theorem blank_clear (a : Adjacency n) : a.clear.Blank := by
  cases a with
  | rows a => trivial
  | grid a =>
    intro u v _
    show a.clear.rawWeight u v = 0.0
    simp [Grid.rawWeight, Grid.clear]

end Adjacency

end WeightedGraph
