import WeightedGraph.Graph.Mutation
import WeightedGraph.Proofs.Adjacency.Stored

/-!
# What a graph stores

The two directions of an undirected edge have one key (`GraphKind.key`).  Writing and erasing an edge of a graph
change the weights under its key and no other (`weight?_insert`, `weight?_erase`), say whether there was an edge
in the direction that was asked for, and count accordingly.
-/

namespace WeightedGraph

/-- What the directions in which an edge is stored have in common. -/
def GraphKind.key : GraphKind → Nat → Nat → Nat × Nat
  | .directed, u, v => (u, v)
  | .undirected, u, v => (min u v, max u v)

namespace GraphKind

theorem key_swap (u v : Nat) : undirected.key u v = undirected.key v u := by
  simp [key, Nat.min_comm, Nat.max_comm]

theorem directed_key_inj {u v u' v' : Nat} : directed.key u v = directed.key u' v' ↔ u = u' ∧ v = v' := by
  simp [key]

theorem undirected_key_inj {u v u' v' : Nat} :
    undirected.key u v = undirected.key u' v' ↔ u = u' ∧ v = v' ∨ v = u' ∧ u = v' := by
  simp only [key, Prod.mk.injEq]
  omega

end GraphKind

namespace Graph

variable {n : Nat} {g : Graph n}

/-- Two directions have one key if they are the same, or opposite ones of an edge that is stored both ways. -/
theorem key_eq_iff (kind : GraphKind) (u v u' v' : Fin n) :
    kind.key u v = kind.key u' v' ↔ u = u' ∧ v = v' ∨ runsBothWays kind u v = true ∧ v = u' ∧ u = v' := by
  cases kind with
  | directed => simp [GraphKind.directed_key_inj, runsBothWays, GraphKind.isDirected, Fin.val_inj]
  | undirected =>
    simp only [GraphKind.undirected_key_inj, runsBothWays, GraphKind.isDirected, Fin.val_inj]
    by_cases huv : u = v
    · simp [huv]
    · simp [huv]

@[simp] theorem findEdgeWeight_val (g : Graph n) (u v : Fin n) :
    g.findEdgeWeight u v = g.adjacency.weight? u v := by
  simp [findEdgeWeight, checkEnds_of_lt u.isLt v.isLt]

theorem findEdgeWeight_of_le {u v : Nat} (h : n ≤ u ∨ n ≤ v) : g.findEdgeWeight u v = none := by
  unfold findEdgeWeight
  by_cases hu : n ≤ u
  · rw [checkEnds_of_source_le hu]
  · rw [checkEnds_of_target_le (Nat.not_le.1 hu) (h.resolve_left hu)]

theorem lt_of_findEdgeWeight {g : Graph n} {u v : Nat} {w : Weight} (h : g.findEdgeWeight u v = some w) :
    u < n ∧ v < n := by
  by_contra hle
  rw [findEdgeWeight_of_le (by omega)] at h
  contradiction

theorem hasEdge_eq (g : Graph n) (u v : Nat) : g.hasEdge u v = (g.findEdgeWeight u v).isSome := by
  unfold hasEdge findEdgeWeight
  cases checkEnds n u v with
  | error e => rfl
  | ok ends => exact g.adjacency.contains_eq ..

theorem lt_of_hasEdge {g : Graph n} {u v : Nat} (h : g.hasEdge u v = true) : u < n ∧ v < n := by
  obtain ⟨w, hw⟩ := Option.isSome_iff_exists.1 ((g.hasEdge_eq u v).symm.trans h)
  exact lt_of_findEdgeWeight hw

/-- A new graph has the kind it was made with and no edges. -/
theorem eq_of_create {kind : GraphKind} {representation : Representation} {g : Graph n}
    (h : (create n kind representation).result = .ok g) :
    ∃ a, Adjacency.allocate n representation = .ok a ∧ g = ⟨kind, a, 0⟩ := by
  rw [create_eq] at h
  split at h
  · simp [Outcome.fail] at h
  · split at h
    · simp [Outcome.fail] at h
    · rename_i a ha
      exact ⟨a, ha, by simpa [Outcome.report] using h.symm⟩

theorem shape_of_create {kind : GraphKind} {representation : Representation} {g : Graph n}
    (h : (create n kind representation).result = .ok g) : g.kind = kind ∧ g.representation = representation := by
  obtain ⟨a, ha, rfl⟩ := eq_of_create h
  exact ⟨rfl, Adjacency.representation_of_allocate ha⟩

/-! ### Writing an edge -/

theorem fst_insert (g : Graph n) (u v : Fin n) (w : Weight) :
    (g.insert u v w).1 = !(g.adjacency.weight? u v).isSome := g.adjacency.fst_upsert u v w

theorem edgeCount_insert (g : Graph n) (u v : Fin n) (w : Weight) :
    (g.insert u v w).2.edgeCount =
      if (g.adjacency.weight? u v).isSome then g.edgeCount else g.edgeCount + 1 := by
  simp only [insert, Adjacency.fst_upsert]
  cases (g.adjacency.weight? u v).isSome <;> rfl

/-- Writing an edge writes its weight under its key. -/
theorem weight?_insert (g : Graph n) (u v : Fin n) (w : Weight) (u' v' : Fin n) :
    (g.insert u v w).2.adjacency.weight? u' v' =
      if g.kind.key u v = g.kind.key u' v' then some w else g.adjacency.weight? u' v' := by
  obtain ⟨kind, a, count⟩ := g
  simp only [insert, key_eq_iff]
  by_cases hboth : runsBothWays kind u v = true
  · rw [if_pos hboth, Adjacency.weight?_upsert, Adjacency.weight?_upsert]
    by_cases hback : v = u' ∧ u = v'
    · rw [if_pos hback, if_pos (.inr ⟨hboth, hback⟩)]
    · rw [if_neg hback]
      simp [hback]
  · rw [if_neg hboth, Adjacency.weight?_upsert]
    simp [hboth]

theorem distinct_insert (h : g.adjacency.Distinct) (u v : Fin n) (w : Weight) :
    (g.insert u v w).2.adjacency.Distinct := by
  simp only [insert]
  split
  · exact (h.upsert u v w).upsert v u w
  · exact h.upsert u v w

/-! ### Erasing an edge -/

theorem fst_erase (g : Graph n) (u v : Fin n) : (g.erase u v).1 = (g.adjacency.weight? u v).isSome :=
  g.adjacency.fst_remove u v

theorem edgeCount_erase (g : Graph n) (u v : Fin n) :
    (g.erase u v).2.edgeCount =
      if (g.adjacency.weight? u v).isSome then g.edgeCount - 1 else g.edgeCount := by
  simp only [erase, Adjacency.fst_remove]

/-- Erasing an edge erases what is under its key. -/
theorem weight?_erase (hg : g.adjacency.Distinct) (u v u' v' : Fin n) :
    (g.erase u v).2.adjacency.weight? u' v' =
      if g.kind.key u v = g.kind.key u' v' then none else g.adjacency.weight? u' v' := by
  obtain ⟨kind, a, count⟩ := g
  simp only [erase, key_eq_iff]
  by_cases hboth : runsBothWays kind u v = true
  · rw [if_pos hboth, Adjacency.weight?_remove (hg.remove u v), Adjacency.weight?_remove hg]
    by_cases hback : v = u' ∧ u = v'
    · rw [if_pos hback, if_pos (.inr ⟨hboth, hback⟩)]
    · rw [if_neg hback]
      simp [hback]
  · rw [if_neg hboth, Adjacency.weight?_remove hg]
    simp [hboth]

theorem distinct_erase (h : g.adjacency.Distinct) (u v : Fin n) : (g.erase u v).2.adjacency.Distinct := by
  simp only [erase]
  split
  · exact (h.remove u v).remove v u
  · exact h.remove u v

end Graph

end WeightedGraph
