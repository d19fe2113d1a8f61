import WeightedGraph.Adjacency.Grid
import WeightedGraph.Adjacency.Rows
import WeightedGraph.Kind

/-!
# Adjacencies

The edges of a graph in one of the two representations.  Every operation is that of the representation at
hand; all of them concern edges in one direction only.
-/

namespace WeightedGraph

/-- Edges between `n` vertices, stored in one of two ways. -/
inductive Adjacency (n : Nat) where
  | rows (a : Rows n)
  | grid (a : Grid n)

namespace Adjacency

variable {n : Nat}

/-- No edges, in the given representation, if the allocator has the memory. -/
def allocateWithin (limit n : Nat) : Representation → Except GraphError (Adjacency n)
  | .adjacencyList => (Rows.allocateWithin limit n).map .rows
  | .adjacencyMatrix => (Grid.allocateWithin limit n).map .grid

def allocate (n : Nat) (r : Representation) : Except GraphError (Adjacency n) :=
  allocateWithin Allocation.addressSpace n r

def representation : Adjacency n → Representation
  | .rows _ => .adjacencyList
  | .grid _ => .adjacencyMatrix

def contains (a : Adjacency n) (u v : Fin n) : Bool :=
  match a with
  | .rows a => a.contains u v
  | .grid a => a.contains u v

def weight? (a : Adjacency n) (u v : Fin n) : Option Weight :=
  match a with
  | .rows a => a.weight? u v
  | .grid a => a.weight? u v

/-- Writes the edge from `u` to `v`, and says whether it is new. -/
def upsert (a : Adjacency n) (u v : Fin n) (w : Weight) : Bool × Adjacency n :=
  match a with
  | .rows a => (a.upsert u v w).map id .rows
  | .grid a => (a.upsert u v w).map id .grid

/-- Takes the edge from `u` to `v` out, and says whether there was one. -/
def remove (a : Adjacency n) (u v : Fin n) : Bool × Adjacency n :=
  match a with
  | .rows a => (a.remove u v).map id .rows
  | .grid a => (a.remove u v).map id .grid

/-- The outgoing edges of `u`: as they came to be in lists, by increasing target in a matrix. -/
def records (a : Adjacency n) (u : Fin n) : Row (Fin n) :=
  match a with
  | .rows a => a.records u
  | .grid a => a.records u

def outDegree (a : Adjacency n) (u : Fin n) : Nat :=
  match a with
  | .rows a => a.outDegree u
  | .grid a => a.outDegree u

def inDegree (a : Adjacency n) (v : Fin n) : Nat :=
  match a with
  | .rows a => a.inDegree v
  | .grid a => a.inDegree v

def clear : Adjacency n → Adjacency n
  | .rows a => .rows a.clear
  | .grid a => .grid a.clear

/-- The outgoing edges of `u` with both their ends, in the order of `records`. -/
def outEdges (a : Adjacency n) (u : Fin n) : List Edge :=
  (a.records u).map fun r => ⟨u, r.target, r.weight⟩

/-- The vertices that an edge from `u` leads to, in the order of `records`. -/
def successors (a : Adjacency n) (u : Fin n) : List (Fin n) := (a.records u).targets

@[simp] theorem representation_upsert (a : Adjacency n) (u v : Fin n) (w : Weight) :
    (a.upsert u v w).2.representation = a.representation := by
  cases a <;> rfl

@[simp] theorem representation_remove (a : Adjacency n) (u v : Fin n) :
    (a.remove u v).2.representation = a.representation := by
  cases a <;> rfl

@[simp] theorem representation_clear (a : Adjacency n) : a.clear.representation = a.representation := by
  cases a <;> rfl

theorem representation_of_allocate {r : Representation} {a : Adjacency n} (h : allocate n r = .ok a) :
    a.representation = r := by
  cases r <;> simp only [allocate, allocateWithin, Except.map] at h <;> split at h <;> simp_all <;> subst h <;> rfl

end Adjacency

end WeightedGraph
