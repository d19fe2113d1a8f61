import WeightedGraph.Proofs.Graph.Recast

/-!
# The shape of a graph

Whatever is done with a graph, it keeps its vertices and its kind, and it is in the representation that was last asked
for and could be had (`shape_operateAll`).  A request for which there is no memory leaves a graph as it is
(`convert_of_error`).  The reachable graphs are those with a history of such operations (`reachable_iff_hasHistory`);
there is only memory for graphs whose vertices can be counted (`Reachable.vertexCount_lt`).
-/

namespace WeightedGraph

/-- What can be done with a graph: it is changed, a copy takes its place, or it is converted. -/
inductive Operation
  | change (c : Change)
  | copy (r : Representation)
  | convert (r : Representation)

/-- The representation that an operation asks for. -/
def Operation.representation? : Operation → Option Representation
  | .change _ => none
  | .copy r => some r
  | .convert r => some r

namespace Graph

variable {n : Nat} {g h : Graph n}

theorem Reachable.vertexCount_lt (h : g.Reachable) : n < 2 ^ 64 := by
  refine Reachable.induction (P := fun _ : Graph n => n < 2 ^ 64) ?_ ?_ ?_ ?_ h
  · intro kind representation g hg
    obtain ⟨a, ha, -⟩ := eq_of_create hg
    exact Adjacency.lt_of_allocate ha
  · exact fun _ _ _ hlt => hlt
  · exact fun _ _ hlt => hlt
  · exact fun hlt => hlt

/-- The graph is new, from a constructor that is given a kind and a representation. -/
def Constructed (g : Graph n) (kind : GraphKind) (r : Representation) : Prop :=
  (create n kind r).result = .ok g ∨ ∃ edges, (fromEdges n kind r edges).result = .ok g

/-- The graph after an operation, and the representation that the operation has asked for, if it could be had. -/
def operate (g : Graph n) : Operation → Option Representation × Graph n
  | .change c => (none, (g.perform c).2)
  | .copy r =>
    match (g.copy r).result with
    | .ok copied => (some r, copied)
    | .error _ => (none, g)
  | .convert r =>
    match (g.convert r).1.result with
    | .ok _ => (some r, (g.convert r).2)
    | .error _ => (none, (g.convert r).2)

/-- The graph after operations that are done one after the other, and the representations that they have asked for. -/
def operateAll (g : Graph n) : List Operation → List Representation × Graph n
  | [] => ([], g)
  | o :: os =>
    let (had, g) := g.operate o
    let (later, g) := g.operateAll os
    (had.toList ++ later, g)

/-! ### New graphs -/

theorem Constructed.shape {kind : GraphKind} {r : Representation} (hg : g.Constructed kind r) :
    g.kind = kind ∧ g.representation = r := by
  rcases hg with hg | ⟨edges, hg⟩
  · exact shape_of_create hg
  · obtain ⟨empty, hempty, rfl⟩ := exists_create_of_fromEdges hg
    rw [kind_addEdges, representation_addEdges]
    exact shape_of_create hempty

/-! ### One operation -/

@[simp] theorem kind_perform (g : Graph n) (c : Change) : (g.perform c).2.kind = g.kind := by
  have hadd (u v : Nat) (w : Weight) : (g.addEdge u v w).2.kind = g.kind := by
    unfold addEdge
    split <;> rfl
  cases c with
  | addEdge u v w => exact hadd u v w
  | setEdgeWeight u v w => exact hadd u v w
  | addEdgeUnweighted u v => exact hadd u v unitWeight
  | removeEdge u v =>
    show (g.removeEdge u v).2.kind = g.kind
    unfold removeEdge
    split <;> rfl
  | clear => rfl

/-- A conversion for which there is no memory leaves a graph as it is. -/
theorem convert_of_error {r : Representation} {e : GraphError} (hr : (g.convert r).1.result = .error e) :
    (g.convert r).2 = g := by
  unfold convert at hr ⊢
  split
  · rfl
  · rename_i hne
    rw [if_neg hne] at hr
    simp only at hr ⊢
    split <;> simp_all

theorem shape_convert {r : Representation} (hr : (g.convert r).1.result = .ok ()) :
    (g.convert r).2.kind = g.kind ∧ (g.convert r).2.representation = r := by
  have hs : g.recast (.convert r) = .ok (g.convert r).2 := by
    rw [recast, hr]
    rfl
  exact shape_recast hs

/-- An operation keeps the kind, and brings a graph into the representation that it asks for, if that can be had. -/
theorem shape_operate (g : Graph n) (o : Operation) :
    (g.operate o).2.kind = g.kind ∧ (g.operate o).2.representation = (g.operate o).1.getD g.representation := by
  cases o with
  | change c => exact ⟨g.kind_perform c, g.representation_perform c⟩
  | copy r =>
    cases hcopy : (g.copy r).result with
    | ok copied =>
      simp only [operate, hcopy]
      exact shape_of_copy hcopy
    | error e =>
      have hsame : g.operate (.copy r) = (none, g) := by simp only [operate, hcopy]
      rw [hsame]
      exact ⟨rfl, rfl⟩
  | convert r =>
    cases hr : (g.convert r).1.result with
    | ok =>
      simp only [operate, hr]
      exact shape_convert hr
    | error e =>
      have hsame : g.operate (.convert r) = (none, g) := by simp only [operate, hr, convert_of_error hr]
      rw [hsame]
      exact ⟨rfl, rfl⟩

/-- With memory for both representations every request is met. -/
theorem fst_operate (hmemory : ∀ r, ∃ empty : Graph n, (create n g.kind r).result = .ok empty) (o : Operation) :
    (g.operate o).1 = o.representation? := by
  cases o with
  | change c => rfl
  | copy r =>
    obtain ⟨empty, hempty⟩ := hmemory r
    obtain ⟨copied, hcopied⟩ := exists_copy hempty
    simp only [operate, hcopied]
    rfl
  | convert r =>
    obtain ⟨empty, hempty⟩ := hmemory r
    simp only [operate, result_convert hempty]
    rfl

theorem snd_operate_convert (g : Graph n) (r : Representation) : (g.operate (.convert r)).2 = (g.convert r).2 := by
  unfold operate
  simp only
  split <;> rfl

/-! ### Histories -/

theorem operateAll_cons (g : Graph n) (o : Operation) (os : List Operation) :
    g.operateAll (o :: os) =
      ((g.operate o).1.toList ++ ((g.operate o).2.operateAll os).1, ((g.operate o).2.operateAll os).2) := rfl

theorem operateAll_concat (g : Graph n) (os : List Operation) (o : Operation) :
    (g.operateAll (os ++ [o])).2 = ((g.operateAll os).2.operate o).2 := by
  induction os generalizing g with
  | nil => rfl
  | cons o' os ih => exact ih (g.operate o').2

/-- Through any history a graph keeps its kind, and its representation is the last one that was asked for and could be
had. -/
theorem shape_operateAll (g : Graph n) (os : List Operation) :
    (g.operateAll os).2.kind = g.kind ∧
      (g.operateAll os).2.representation = (g.operateAll os).1.getLast?.getD g.representation := by
  induction os generalizing g with
  | nil => exact ⟨rfl, rfl⟩
  | cons o os ih =>
    obtain ⟨hkind, hr⟩ := g.shape_operate o
    obtain ⟨hkind', hr'⟩ := ih (g.operate o).2
    rw [operateAll_cons]
    refine ⟨hkind'.trans hkind, hr'.trans ?_⟩
    rw [hr]
    cases (g.operate o).1 with
    | none => rfl
    | some r =>
      rw [Option.toList_some, List.singleton_append, List.getLast?_cons]
      rfl

/-- With memory for both representations every request of a history is met. -/
theorem fst_operateAll (hmemory : ∀ r, ∃ empty : Graph n, (create n g.kind r).result = .ok empty)
    (os : List Operation) : (g.operateAll os).1 = os.filterMap Operation.representation? := by
  induction os generalizing g with
  | nil => rfl
  | cons o os ih =>
    have hlater : ∀ r, ∃ empty : Graph n, (create n (g.operate o).2.kind r).result = .ok empty := by
      rwa [(g.shape_operate o).1]
    rw [operateAll_cons, fst_operate hmemory, ih hlater]
    cases h : o.representation? with
    | none => rw [List.filterMap_cons_none h, Option.toList_none, List.nil_append]
    | some r => rw [List.filterMap_cons_some h, Option.toList_some, List.singleton_append]

/-- The graph is new, or it has come from a new one by some operations. -/
def HasHistory (g : Graph n) : Prop :=
  ∃ kind r start os, Constructed start kind r ∧ (start.operateAll os).2 = g

theorem HasHistory.operate (hg : g.HasHistory) (o : Operation) : (g.operate o).2.HasHistory := by
  obtain ⟨kind, r, start, os, hstart, rfl⟩ := hg
  exact ⟨kind, r, start, os ++ [o], hstart, start.operateAll_concat os o⟩

theorem Reachable.hasHistory (h : g.Reachable) : g.HasHistory := by
  induction h with
  | create h => exact ⟨_, _, _, [], .inl h, rfl⟩
  | fromEdges h => exact ⟨_, _, _, [], .inr ⟨_, h⟩, rfl⟩
  | addEdge _ u v w ih => exact ih.operate (.change (.addEdge u v w))
  | addEdgeUnweighted _ u v ih => exact ih.operate (.change (.addEdgeUnweighted u v))
  | setEdgeWeight _ u v w ih => exact ih.operate (.change (.setEdgeWeight u v w))
  | removeEdge _ u v ih => exact ih.operate (.change (.removeEdge u v))
  | clear _ ih => exact ih.operate (.change .clear)
  | @copy g g' _ r hcopy ih =>
    have hcopied : (g.operate (.copy r)).2 = g' := by simp only [Graph.operate, hcopy]
    exact hcopied ▸ ih.operate (.copy r)
  | @convert g _ r ih => exact g.snd_operate_convert r ▸ ih.operate (.convert r)

theorem Reachable.perform (h : g.Reachable) (c : Change) : (g.perform c).2.Reachable := by
  cases c with
  | addEdge u v w => exact h.addEdge u v w
  | setEdgeWeight u v w => exact h.setEdgeWeight u v w
  | addEdgeUnweighted u v => exact h.addEdgeUnweighted u v
  | removeEdge u v => exact h.removeEdge u v
  | clear => exact h.clear

theorem Reachable.operate (h : g.Reachable) (o : Operation) : (g.operate o).2.Reachable := by
  cases o with
  | change c => exact h.perform c
  | copy r =>
    cases hcopy : (g.copy r).result with
    | ok copied =>
      simp only [Graph.operate, hcopy]
      exact h.copy hcopy
    | error e =>
      simp only [Graph.operate, hcopy]
      exact h
  | convert r => exact (g.snd_operate_convert r).symm ▸ h.convert r

/-- The reachable graphs are those that have a history. -/
theorem reachable_iff_hasHistory : g.Reachable ↔ g.HasHistory := by
  refine ⟨Reachable.hasHistory, ?_⟩
  rintro ⟨kind, r, start, os, hstart, rfl⟩
  have hnew : start.Reachable := by
    rcases hstart with hstart | ⟨edges, hstart⟩
    · exact .create hstart
    · exact .fromEdges hstart
  clear hstart
  induction os generalizing start with
  | nil => exact hnew
  | cons o os ih => exact ih (start.operate o).2 (hnew.operate o)

end Graph

end WeightedGraph
