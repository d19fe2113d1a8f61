import WeightedGraph.Proofs.Graph.Edit
import WeightedGraph.Proofs.Graph.Recast
import WeightedGraph.Proofs.Graph.Traversal

/-!
# Neighbours in their order

The edges that a cursor hands out from a vertex are those that are found, each once (`mem_outEdges_iff`), and they
are known by the order of their targets (`eq_of_targets_of_found`).  In a matrix the targets ascend.  In lists an edit
puts a new target at the end of the row of either end that stores it, takes an old one out, and moves nothing else
(`targets_edit`).
-/

namespace WeightedGraph

/-! ### Lists without repetitions -/

section

variable {α : Type} [DecidableEq α]

/-- A list with an item at its end, unless the list has the item already. -/
def addLast (l : List α) (a : α) : List α := if a ∈ l then l else l ++ [a]

theorem mem_addLast_iff {l : List α} {a b : α} : b ∈ addLast l a ↔ b ∈ l ∨ b = a := by
  unfold addLast
  split
  · rename_i ha
    exact (or_iff_left_of_imp fun hba => hba ▸ ha).symm
  · rw [List.mem_append, List.mem_singleton]

/-- Items that differ from one another are put at the end of a list in their order, if the list does not have them. -/
theorem foldl_addLast {as : List α} (h : as.Nodup) (l : List α) :
    as.foldl addLast l = l ++ as.filter (· ∉ l) := by
  induction as generalizing l with
  | nil => simp
  | cons a as ih =>
    obtain ⟨ha, has⟩ := List.nodup_cons.1 h
    rw [List.foldl_cons, ih has, addLast]
    by_cases hmem : a ∈ l
    · rw [if_pos hmem, List.filter_cons_of_neg (by simpa using hmem)]
    · rw [if_neg hmem, List.filter_cons_of_pos (by simpa using hmem), List.append_assoc, List.singleton_append]
      congr 2
      refine List.filter_congr fun b hb => ?_
      have hne : b ≠ a := fun hba => ha (hba ▸ hb)
      simp [hne]

theorem foldl_addLast_of_subset {as l : List α} (h : ∀ a ∈ as, a ∈ l) : as.foldl addLast l = l := by
  induction as with
  | nil => rfl
  | cons a as ih =>
    rw [List.foldl_cons, addLast, if_pos (h a List.mem_cons_self)]
    exact ih fun b hb => h b (List.mem_cons_of_mem _ hb)

/-- The targets of a row after an edit of the edge to `t`: a new target comes last, and one that is taken out leaves the
others in their order. -/
def editTargets (ts : List α) (t : α) : Option Weight → List α
  | some _ => addLast ts t
  | none => ts.erase t

theorem map_editTargets {β : Type} [DecidableEq β] {f : α → β} (hf : Function.Injective f) (ts : List α) (t : α)
    (x : Option Weight) : (editTargets ts t x).map f = editTargets (ts.map f) (f t) x := by
  cases x with
  | none => exact List.map_erase hf ts
  | some w =>
    simp only [editTargets, addLast, List.mem_map_of_injective hf]
    split
    · rfl
    · rw [List.map_append, List.map_singleton]

theorem Row.targets_edit (row : Row α) (t : α) (x : Option Weight) :
    (row.edit t x).targets = editTargets row.targets t x := by
  cases x with
  | none => exact row.targets_without t
  | some w => exact row.targets_put t w

end

/-- Where an edge between `u` and `v` leads from `y`, if it is stored there. -/
def GraphKind.otherEnd? {α : Type} [DecidableEq α] (kind : GraphKind) (u v y : α) : Option α :=
  if u = y then some v else if kind = .undirected ∧ v = y then some u else none

theorem GraphKind.otherEnd?_eq_some_iff {kind : GraphKind} {u v y t : Nat} :
    kind.otherEnd? u v y = some t ↔ kind.key u v = kind.key y t := by
  cases kind with
  | directed =>
    rw [directed_key_inj]
    by_cases hu : u = y <;> simp [otherEnd?, hu]
  | undirected =>
    rw [undirected_key_inj]
    by_cases hu : u = y
    · simp only [otherEnd?, if_pos hu, Option.some.injEq]
      omega
    · by_cases hv : v = y
      · simp [otherEnd?, hu, hv]
      · simp [otherEnd?, hu, hv]

theorem GraphKind.otherEnd?_eq_none_iff {kind : GraphKind} {u v y : Nat} :
    kind.otherEnd? u v y = none ↔ ∀ t, kind.key u v ≠ kind.key y t := by
  simp only [Option.eq_none_iff_forall_ne_some, ne_eq, otherEnd?_eq_some_iff]

namespace Adjacency

variable {n : Nat} {a : Adjacency n}

theorem successors_edit (h : a.representation = .adjacencyList) (u v : Fin n) (x : Option Weight) (y : Fin n) :
    (a.edit u v x).successors y = if u = y then editTargets (a.successors y) v x else a.successors y := by
  cases a with
  | grid a => contradiction
  | rows a =>
    rw [edit_rows]
    show ((a.setRow u ((a.records u).edit v x)).records y).targets = _
    rw [Rows.records_setRow]
    split
    · rename_i hu
      subst hu
      exact Row.targets_edit ..
    · rfl

/-- In lists an edit changes the rows of the ends that store the edge, and no other. -/
theorem successors_editBoth (h : a.representation = .adjacencyList) (kind : GraphKind) (u v : Fin n)
    (x : Option Weight) (y : Fin n) :
    (a.editBoth kind u v x).successors y =
      match kind.otherEnd? u v y with
      | some t => editTargets (a.successors y) t x
      | none => a.successors y := by
  have hforth := successors_edit h u v x y
  unfold editBoth
  by_cases hboth : Graph.runsBothWays kind u v = true
  · obtain ⟨rfl, hne⟩ := Graph.kind_of_runsBothWays hboth
    rw [if_pos hboth, successors_edit (by simpa using h), hforth]
    by_cases hu : u = y
    · have hv : v ≠ y := fun hv => hne (hu.trans hv.symm)
      simp [GraphKind.otherEnd?, hu, hv]
    · by_cases hv : v = y <;> simp [GraphKind.otherEnd?, hu, hv]
  · rw [if_neg hboth, hforth]
    by_cases hu : u = y
    · simp [GraphKind.otherEnd?, hu]
    · -- an edge that is stored in one direction only has a direction, or is a loop
      have hback : ¬(kind = .undirected ∧ v = y) := by
        rintro ⟨rfl, rfl⟩
        exact hboth (by simpa [Graph.runsBothWays, GraphKind.isDirected] using hu)
      simp [GraphKind.otherEnd?, hu, hback]

end Adjacency

namespace Graph

variable {n : Nat} {g h : Graph n}

/-- The edges from `v` in the order in which a cursor hands them out. -/
def neighborList (g : Graph n) (v : Nat) : Except GraphError (List Edge) :=
  (g.neighbors v).map EdgeCursor.toList

theorem neighborList_val (g : Graph n) (v : Fin n) : g.neighborList v = .ok (g.adjacency.outEdges v) := by
  rw [neighborList, neighbors, checkVertex_of_lt v.isLt, ← toList_outEdges]
  rfl

theorem neighborList_of_le (g : Graph n) {v : Nat} (hv : n ≤ v) :
    g.neighborList v = .error (.vertexOutOfRange v n) := by
  rw [neighborList, neighbors, checkVertex_of_le hv]
  rfl

/-- The vertices that an edge from `v` leads to, in the order of the edges. -/
def targets (g : Graph n) (v : Fin n) : List Nat := (g.adjacency.successors v).map Fin.val

theorem map_target_outEdges (g : Graph n) (v : Fin n) :
    (g.adjacency.outEdges v).map Edge.target = g.targets v := by
  rw [targets, Adjacency.outEdges, Adjacency.successors, Row.targets, List.map_map, List.map_map]
  rfl

theorem mem_targets_iff {v : Fin n} {t : Nat} : t ∈ g.targets v ↔ g.hasEdge v t = true := by
  rw [targets, List.mem_map, hasEdge_eq, Option.isSome_iff_exists]
  constructor
  · rintro ⟨t, ht, rfl⟩
    exact mem_successors_iff.1 ht
  · rintro ⟨w, hw⟩
    exact ⟨⟨t, (lt_of_findEdgeWeight hw).2⟩, mem_successors_iff.2 ⟨w, hw⟩, rfl⟩

theorem targets_eq_nil {v : Fin n} (h : ∀ t, g.adjacency.weight? v t = none) : g.targets v = [] := by
  rw [List.eq_nil_iff_forall_not_mem]
  intro t ht
  have hedge := mem_targets_iff.1 ht
  have hlt := (lt_of_hasEdge hedge).2
  rw [hasEdge_eq, findEdgeWeight_val g v ⟨t, hlt⟩, h] at hedge
  contradiction

theorem targets_of_create {kind : GraphKind} {r : Representation} (hcreate : (create n kind r).result = .ok g)
    (v : Fin n) : g.targets v = [] := by
  obtain ⟨a, ha, rfl⟩ := eq_of_create hcreate
  exact targets_eq_nil fun t => Adjacency.weight?_of_allocate ha v t

theorem nodup_targets (hg : g.adjacency.Distinct) (v : Fin n) : (g.targets v).Nodup :=
  (hg v).map Fin.val_injective

/-- In a matrix the targets ascend. -/
theorem pairwise_targets (hg : g.representation = .adjacencyMatrix) (v : Fin n) :
    (g.targets v).Pairwise (· < ·) := by
  obtain ⟨kind, a, count⟩ := g
  cases a with
  | rows a => contradiction
  | grid a =>
    show ((a.records v).targets.map Fin.val).Pairwise (· < ·)
    rw [Grid.targets_records, List.pairwise_map]
    exact (List.pairwise_lt_finRange n).filter _

/-- The edges from a vertex are those that are found. -/
theorem mem_outEdges_iff (hg : g.adjacency.Distinct) {v : Fin n} {e : Edge} :
    e ∈ g.adjacency.outEdges v ↔ e.source = v ∧ g.findEdgeWeight v e.target = some e.weight := by
  rw [Adjacency.outEdges, List.mem_map]
  constructor
  · rintro ⟨⟨t, w⟩, hr, rfl⟩
    rw [findEdgeWeight_val]
    exact ⟨rfl, (Adjacency.mem_records_iff hg).1 hr⟩
  · rintro ⟨hsource, hw⟩
    obtain ⟨source, target, w⟩ := e
    obtain rfl : source = v := hsource
    have ht := (lt_of_findEdgeWeight hw).2
    rw [findEdgeWeight_val g v ⟨target, ht⟩] at hw
    exact ⟨⟨⟨target, ht⟩, w⟩, (Adjacency.mem_records_iff hg).2 hw, rfl⟩

theorem eq_of_map_target {l l' : List Edge} (htargets : l.map Edge.target = l'.map Edge.target)
    (hsame : ∀ e ∈ l, ∀ e' ∈ l', e.target = e'.target → e = e') : l = l' := by
  induction l generalizing l' with
  | nil =>
    rw [List.map_nil, eq_comm, List.map_eq_nil_iff] at htargets
    exact htargets.symm
  | cons e l ih =>
    cases l' with
    | nil => simp at htargets
    | cons e' l' =>
      rw [List.map_cons, List.map_cons, List.cons.injEq] at htargets
      rw [hsame e List.mem_cons_self e' List.mem_cons_self htargets.1,
        ih htargets.2 fun e he e' he' => hsame e (List.mem_cons_of_mem _ he) e' (List.mem_cons_of_mem _ he')]

/-- Edges from one vertex that are found in one graph are the same if they have the same targets. -/
theorem eq_of_targets_of_found {v : Nat} {l l' : List Edge} (htargets : l.map Edge.target = l'.map Edge.target)
    (hl : ∀ e ∈ l, e.source = v ∧ g.findEdgeWeight v e.target = some e.weight)
    (hl' : ∀ e ∈ l', e.source = v ∧ g.findEdgeWeight v e.target = some e.weight) : l = l' := by
  refine eq_of_map_target htargets fun e he e' he' ht => ?_
  obtain ⟨hsource, hweight⟩ := hl e he
  obtain ⟨hsource', hweight'⟩ := hl' e' he'
  have hw : e.weight = e'.weight := by
    rw [ht, hweight'] at hweight
    exact (Option.some.inj hweight).symm
  cases e
  cases e'
  simp_all

/-! ### Edits of lists -/

/-- In lists an edit puts a new target at the end of a row, takes an old one out, and moves nothing else. -/
theorem targets_edit (hg : g.representation = .adjacencyList) (u v : Fin n) (x : Option Weight) (y : Fin n) :
    (g.edit u v x).2.targets y =
      match g.kind.otherEnd? u.val v.val y.val with
      | some t => editTargets (g.targets y) t x
      | none => g.targets y := by
  rw [targets, adjacency_edit, Adjacency.successors_editBoth hg]
  have hother : g.kind.otherEnd? u.val v.val y.val = (g.kind.otherEnd? u v y).map Fin.val := by
    simp only [GraphKind.otherEnd?, Fin.val_inj]
    split
    · rfl
    · split <;> rfl
  rw [hother]
  cases g.kind.otherEnd? u v y with
  | none => rfl
  | some t => exact map_editTargets Fin.val_injective ..

end Graph

end WeightedGraph
