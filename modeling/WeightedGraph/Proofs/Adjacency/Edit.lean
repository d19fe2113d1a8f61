import WeightedGraph.Proofs.Adjacency.Stored

/-!
# Edits of an adjacency

An edit says what there is between two vertices, in one direction, from now on: an edge of some weight, or none
(`Adjacency.edit`).  Writing an edge can be taken back by an edit that puts back what there was, and then not only the
weights but also the order of the edges and the cells without an edge are as before (`edit_edit_weight?`).  Edits of
different rows can be made in either order, and so can edits of different cells of a matrix (`edit_comm`).
-/

namespace WeightedGraph

/-! ### Rows -/

namespace Row

variable {V : Type} [DecidableEq V] {row : Row V}

/-- A row with an edge of the given weight to `t`, or with none. -/
def edit (row : Row V) (t : V) : Option Weight → Row V
  | some w => row.put t w
  | none => row.without t

theorem put_put (row : Row V) (t : V) (w x : Weight) : (row.put t w).put t x = row.put t x := by
  induction row with
  | nil => simp [put]
  | cons r row ih => by_cases h : r.target = t <;> simp [put, h, ih]

theorem put_of_weightTo? {t : V} {x : Weight} (h : row.weightTo? t = some x) : row.put t x = row := by
  induction row with
  | nil => simp [weightTo?] at h
  | cons r row ih =>
    rw [weightTo?_cons] at h
    unfold put
    by_cases hr : r.target = t
    · rw [if_pos hr] at h ⊢
      rw [← hr, ← Option.some.inj h]
    · rw [if_neg hr] at h ⊢
      rw [ih h]

theorem without_put {t : V} (h : row.weightTo? t = none) (w : Weight) : (row.put t w).without t = row := by
  induction row with
  | nil => simp [put, without]
  | cons r row ih =>
    rw [weightTo?_cons] at h
    have hr : r.target ≠ t := by
      intro hr
      simp [hr] at h
    rw [if_neg hr] at h
    rw [put, if_neg hr, without_cons, if_neg hr, ih h]

/-- Putting back what a row had is as good as not to have written. -/
theorem edit_put (row : Row V) (t : V) (w : Weight) : (row.put t w).edit t (row.weightTo? t) = row := by
  cases h : row.weightTo? t with
  | none => exact without_put h w
  | some x =>
    show (row.put t w).put t x = row
    rw [put_put, put_of_weightTo? h]

end Row

namespace Rows

variable {n : Nat} (a : Rows n)

theorem setRow_setRow (u : Fin n) (row row' : Row (Fin n)) : (a.setRow u row).setRow u row' = a.setRow u row' := by
  simp [setRow]

theorem setRow_records (u : Fin n) : a.setRow u (a.records u) = a := by
  simp [setRow, records, Vector.get]

theorem setRow_comm {u u' : Fin n} (h : u ≠ u') (row row' : Row (Fin n)) :
    (a.setRow u row).setRow u' row' = (a.setRow u' row').setRow u row := by
  simp only [setRow]
  rw [Vector.set_comm _ _ (Fin.val_ne_of_ne h)]

end Rows

/-! ### Adjacencies -/

namespace Adjacency

variable {n : Nat} {a : Adjacency n}

/-- An adjacency with an edge of the given weight from `u` to `v`, or with none. -/
def edit (a : Adjacency n) (u v : Fin n) : Option Weight → Adjacency n
  | some w => (a.upsert u v w).2
  | none => (a.remove u v).2

theorem edit_rows (a : Rows n) (u v : Fin n) (x : Option Weight) :
    edit (.rows a) u v x = .rows (a.setRow u ((a.records u).edit v x)) := by
  cases x <;> rfl

theorem edit_grid (a : Grid n) (u v : Fin n) (x : Option Weight) :
    edit (.grid a) u v x =
      .grid ⟨a.weights.set (Grid.cell u v) (x.getD 0.0) (Grid.cell u v).isLt,
        a.present.set (Grid.cell u v) x.isSome (Grid.cell u v).isLt⟩ := by
  cases x <;> rfl

@[simp] theorem representation_edit (a : Adjacency n) (u v : Fin n) (x : Option Weight) :
    (a.edit u v x).representation = a.representation := by
  cases x <;> simp [edit]

/-- After an edge has been written, an edit that puts back what there was restores the adjacency. -/
theorem edit_edit_weight? (h : a.Blank) (u v : Fin n) (w : Weight) :
    (a.edit u v (some w)).edit u v (a.weight? u v) = a := by
  cases a with
  | rows a =>
    rw [edit_rows, edit_rows, Rows.setRow_setRow, Rows.records_setRow, if_pos rfl]
    show Adjacency.rows (a.setRow u (((a.records u).put v w).edit v ((a.records u).weightTo? v))) = .rows a
    rw [Row.edit_put, Rows.setRow_records]
  | grid a =>
    have hweight : (a.weight? u v).getD 0.0 = a.weights[Grid.cell u v] := by
      unfold Grid.weight?
      cases hc : a.contains u v with
      | false => exact (h u v hc).symm
      | true => rfl
    have hpresent : (a.weight? u v).isSome = a.present[Grid.cell u v] := a.isSome_weight? u v
    rw [edit_grid, edit_grid]
    show Adjacency.grid ⟨_, _⟩ = _
    simp only [Vector.set_set, weight?, hweight, hpresent]
    simp

/-- Edits of different rows, or of different cells of a matrix. -/
def Apart (r : Representation) (u v u' v' : Fin n) : Prop := u ≠ u' ∨ r = .adjacencyMatrix ∧ v ≠ v'

/-- Edits that are apart can be made in either order. -/
theorem edit_comm {u v u' v' : Fin n} (h : Apart a.representation u v u' v') (x y : Option Weight) :
    (a.edit u v x).edit u' v' y = (a.edit u' v' y).edit u v x := by
  cases a with
  | rows a =>
    have hu : u ≠ u' := h.resolve_right fun hgrid => by simp [representation] at hgrid
    simp only [edit_rows, Rows.records_setRow, if_neg hu, if_neg hu.symm]
    rw [Rows.setRow_comm _ hu]
  | grid a =>
    have hcell : (Grid.cell u v).val ≠ (Grid.cell u' v').val := by
      intro hcell
      obtain ⟨rfl, rfl⟩ := Grid.cell_inj.1 (Fin.ext hcell)
      rcases h with hu | ⟨-, hv⟩
      · exact hu rfl
      · exact hv rfl
    simp only [edit_grid]
    congr 2
    · exact Vector.set_comm _ _ hcell
    · exact Vector.set_comm _ _ hcell

end Adjacency

end WeightedGraph
