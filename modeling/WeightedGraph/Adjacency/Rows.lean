import WeightedGraph.Adjacency.Row
import WeightedGraph.Allocation

/-!
# Adjacency lists

One row of records for every vertex.  Only the row of its source knows of an edge; that an undirected edge is
kept in two rows is the business of the graph.
-/

namespace WeightedGraph

structure Rows (n : Nat) where
  rows : Vector (Row (Fin n)) n

namespace Rows

variable {n : Nat}

/-- The bytes that the row of one vertex takes before it has any record. -/
def rowBytes : Nat := 24

def empty (n : Nat) : Rows n := ⟨.replicate n []⟩

/-- No edges, once the allocator has the memory for all the rows. -/
def allocateWithin (limit n : Nat) : Except GraphError (Rows n) := do
  Allocation.reserveWithin limit n rowBytes
  return empty n

/-- The outgoing edges of `u`, in the order in which they came to be. -/
def records (a : Rows n) (u : Fin n) : Row (Fin n) := a.rows.get u

def setRow (a : Rows n) (u : Fin n) (row : Row (Fin n)) : Rows n := ⟨a.rows.set u row u.isLt⟩

def contains (a : Rows n) (u v : Fin n) : Bool := (a.records u).leadsTo v

def weight? (a : Rows n) (u v : Fin n) : Option Weight := (a.records u).weightTo? v

/-- Writes the edge from `u` to `v`, and says whether it is new. -/
def upsert (a : Rows n) (u v : Fin n) (w : Weight) : Bool × Rows n :=
  let row := a.records u
  (!row.leadsTo v, a.setRow u (row.put v w))

/-- Takes the edge from `u` to `v` out, and says whether there was one. -/
def remove (a : Rows n) (u v : Fin n) : Bool × Rows n :=
  let row := a.records u
  (row.leadsTo v, a.setRow u (row.without v))

def outDegree (a : Rows n) (u : Fin n) : Nat := (a.records u).length

/-- The number of edges to `v`, found by looking at every row. -/
def inDegree (a : Rows n) (v : Fin n) : Nat :=
  a.rows.toList.flatten.countP fun r => r.target = v

def clear (a : Rows n) : Rows n := ⟨a.rows.map fun _ => []⟩

@[simp] theorem records_empty (u : Fin n) : (empty n).records u = [] := by
  simp [records, empty, Vector.get]

theorem records_setRow (a : Rows n) (u : Fin n) (row : Row (Fin n)) (u' : Fin n) :
    (a.setRow u row).records u' = if u = u' then row else a.records u' := by
  show (a.rows.set u row)[u'.val] = if u = u' then row else a.rows[u'.val]
  simp [Vector.getElem_set, Fin.val_inj]

@[simp] theorem records_clear (a : Rows n) (u : Fin n) : a.clear.records u = [] := by
  simp [records, clear, Vector.get]

end Rows

end WeightedGraph
