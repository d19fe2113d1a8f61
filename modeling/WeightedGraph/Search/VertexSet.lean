/-!
# Sets of vertices

One flag for every vertex.  `VertexSet.missing` counts the vertices that are not in a set; inserting one of them
makes it smaller (`missing_insert_lt`), which is why searches end.
-/

namespace WeightedGraph

theorem get_set {α : Type} {n : Nat} (xs : Vector α n) (u : Fin n) (x : α) (v : Fin n) :
    (xs.set u x u.isLt).get v = if u = v then x else xs.get v := by
  show (xs.set u x)[v.val] = if u = v then x else xs[v.val]
  simp [Vector.getElem_set, Fin.val_inj]

/-- A set of vertices, given by its flags. -/
structure VertexSet (n : Nat) where
  flags : Vector Bool n

namespace VertexSet

variable {n : Nat}

def empty (n : Nat) : VertexSet n := ⟨.replicate n false⟩

def contains (s : VertexSet n) (v : Fin n) : Bool := s.flags.get v

def insert (s : VertexSet n) (v : Fin n) : VertexSet n := ⟨s.flags.set v true v.isLt⟩

/-- The number of vertices that are not in the set. -/
def missing (s : VertexSet n) : Nat := s.flags.count false

@[simp] theorem contains_empty (v : Fin n) : (empty n).contains v = false := by
  simp [contains, empty, Vector.get]

theorem contains_insert (s : VertexSet n) (v w : Fin n) : (s.insert v).contains w = (v = w || s.contains w) := by
  simp only [contains, insert, get_set]
  by_cases h : v = w <;> simp [h]

theorem contains_insert_iff {s : VertexSet n} {u v : Fin n} :
    (s.insert u).contains v = true ↔ u = v ∨ s.contains v = true := by
  rw [contains_insert, Bool.or_eq_true, decide_eq_true_iff]

theorem not_contains_insert_iff {s : VertexSet n} {u v : Fin n} :
    (s.insert u).contains v = false ↔ u ≠ v ∧ s.contains v = false := by
  rw [contains_insert, Bool.or_eq_false_iff, decide_eq_false_iff_not]

theorem ne_of_contains {s : VertexSet n} {u v : Fin n} (hu : s.contains u = true) (hv : s.contains v = false) :
    u ≠ v := by
  rintro rfl
  rw [hu] at hv
  contradiction

theorem missing_insert_lt {s : VertexSet n} {v : Fin n} (h : s.contains v = false) :
    (s.insert v).missing < s.missing := by
  have hc : s.flags[v.val] = false := h
  have hpos : 0 < s.flags.count false := Vector.count_pos_iff.2 (hc ▸ Vector.getElem_mem v.isLt)
  simp only [missing, insert, Vector.count_set, hc]
  rw [if_pos (by decide), if_neg (by decide)]
  omega

end VertexSet

end WeightedGraph
