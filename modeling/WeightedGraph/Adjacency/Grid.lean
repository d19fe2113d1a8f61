import WeightedGraph.Adjacency.Row
import WeightedGraph.Allocation

/-!
# Adjacency matrices

A square grid of weights beside a square grid of flags, both row by row.  Zero is a weight like any other, so
a flag says whether there is an edge; where there is none the weight is zero.  The key fact is that different
pairs of vertices have different cells (`cell_inj`).
-/

namespace WeightedGraph

/-- A weight and a flag for each pair of `n` vertices. -/
structure Grid (n : Nat) where
  weights : Vector Weight (n * n)
  present : Vector Bool (n * n)

namespace Grid

variable {n : Nat}

def weightBytes : Nat := 8

def flagBytes : Nat := 1

def empty (n : Nat) : Grid n := ⟨.replicate (n * n) 0.0, .replicate (n * n) false⟩

/-- No edges, once the cells can be counted and the allocator has the memory for the weights and then for the flags. -/
def allocateWithin (limit n : Nat) : Except GraphError (Grid n) := do
  let cells := n * n
  if Allocation.maxCount < cells then throw (.capacityOverflow n)
  Allocation.reserveWithin limit cells weightBytes
  Allocation.reserveWithin limit cells flagBytes
  return empty n

/-- The cell of the edge from `u` to `v`: the rows follow one another. -/
def cell (u v : Fin n) : Fin (n * n) :=
  ⟨u * n + v, Nat.lt_of_lt_of_le (by omega : u * n + v < u * n + n)
    (Nat.succ_mul u n ▸ Nat.mul_le_mul_right n u.isLt)⟩

def contains (a : Grid n) (u v : Fin n) : Bool := a.present[cell u v]

/-- The weight in the cell of `u` and `v`, whether there is an edge or not. -/
def rawWeight (a : Grid n) (u v : Fin n) : Weight := a.weights[cell u v]

def weight? (a : Grid n) (u v : Fin n) : Option Weight :=
  if a.contains u v then some (a.rawWeight u v) else none

/-- Writes the edge from `u` to `v`, and says whether it is new. -/
def upsert (a : Grid n) (u v : Fin n) (w : Weight) : Bool × Grid n :=
  let ⟨weights, present⟩ := a
  let c := cell u v
  (!present[c], ⟨weights.set c w, present.set c true⟩)

/-- Takes the edge from `u` to `v` out, and says whether there was one. -/
def remove (a : Grid n) (u v : Fin n) : Bool × Grid n :=
  let ⟨weights, present⟩ := a
  let c := cell u v
  (present[c], ⟨weights.set c 0.0, present.set c false⟩)

/-- The flags of the edges from `u`, by target. -/
def row (a : Grid n) (u : Fin n) : Vector Bool n := .ofFn (a.contains u)

/-- The outgoing edges of `u`, by increasing target. -/
def records (a : Grid n) (u : Fin n) : Row (Fin n) :=
  (List.finRange n).filterMap fun v => if a.contains u v then some ⟨v, a.rawWeight u v⟩ else none

def outDegree (a : Grid n) (u : Fin n) : Nat := (a.row u).count true

/-- The number of edges to `v`, found by looking at its column. -/
def inDegree (a : Grid n) (v : Fin n) : Nat := (List.finRange n).countP fun u => a.contains u v

def clear (a : Grid n) : Grid n := ⟨a.weights.map fun _ => 0.0, a.present.map fun _ => false⟩

/-- Different pairs of vertices have different cells. -/
theorem cell_inj {u v u' v' : Fin n} : cell u v = cell u' v' ↔ u = u' ∧ v = v' := by
  constructor
  · intro h
    have h' : u.val * n + v.val = u'.val * n + v'.val := congrArg Fin.val h
    have hv : v.val = v'.val := by
      have := congrArg (· % n) h'
      simpa [Nat.mul_add_mod', Nat.mod_eq_of_lt v.isLt, Nat.mod_eq_of_lt v'.isLt] using this
    have hu : u.val * n = u'.val * n := by omega
    exact ⟨Fin.ext (Nat.eq_of_mul_eq_mul_right (by omega) hu), Fin.ext hv⟩
  · rintro ⟨rfl, rfl⟩
    rfl

theorem contains_upsert (a : Grid n) (u v : Fin n) (w : Weight) (u' v' : Fin n) :
    (a.upsert u v w).2.contains u' v' = if u = u' ∧ v = v' then true else a.contains u' v' := by
  simp [contains, upsert, Vector.getElem_set, Fin.val_inj, cell_inj]

theorem contains_remove (a : Grid n) (u v u' v' : Fin n) :
    (a.remove u v).2.contains u' v' = if u = u' ∧ v = v' then false else a.contains u' v' := by
  simp [contains, remove, Vector.getElem_set, Fin.val_inj, cell_inj]

theorem rawWeight_upsert (a : Grid n) (u v : Fin n) (w : Weight) (u' v' : Fin n) :
    (a.upsert u v w).2.rawWeight u' v' = if u = u' ∧ v = v' then w else a.rawWeight u' v' := by
  simp [rawWeight, upsert, Vector.getElem_set, Fin.val_inj, cell_inj]

theorem rawWeight_remove (a : Grid n) (u v u' v' : Fin n) :
    (a.remove u v).2.rawWeight u' v' = if u = u' ∧ v = v' then 0.0 else a.rawWeight u' v' := by
  simp [rawWeight, remove, Vector.getElem_set, Fin.val_inj, cell_inj]

@[simp] theorem contains_empty (u v : Fin n) : (empty n).contains u v = false := by simp [contains, empty]

@[simp] theorem contains_clear (a : Grid n) (u v : Fin n) : a.clear.contains u v = false := by
  simp [contains, clear]

end Grid

end WeightedGraph
