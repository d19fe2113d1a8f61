import WeightedGraph.Config.Basic
import WeightedGraph.Proofs.Graph.Bulk

/-!
# Copies and conversions

A copy has the edges of its original: an undirected edge is added from both of its ends, but the second time under
the same key and with the same weight, so that both graphs represent one map (`Represents.copy`).  Converting a graph
puts a copy in its place, unless it has the representation already, and then nothing happens (`recast_cases`).  Through
any chain of copies and conversions a graph therefore keeps its shape, apart from the representation, its edges and its
answers to changes (`recastAll_keeps_edges`).
-/

namespace WeightedGraph

/-- A step that brings the edges of a graph into a representation: the copy takes the place of the graph, or the graph
is converted. -/
inductive Recast
  | copy (r : Representation)
  | convert (r : Representation)

/-- The representation that a step asks for. -/
def Recast.representation : Recast → Representation
  | .copy r => r
  | .convert r => r

namespace Graph

variable {n : Nat} {g h : Graph n} {m : EdgeMap}

/-- The graph after a step. -/
def recast (g : Graph n) : Recast → Except GraphError (Graph n)
  | .copy r => (g.copy r).result
  | .convert r => (g.convert r).1.result.map fun _ => (g.convert r).2

/-- The graph after steps that are taken one after the other. -/
def recastAll (g : Graph n) (steps : List Recast) : Except GraphError (Graph n) := steps.foldlM recast g

/-- What a cursor hands out are the edges that are found. -/
theorem mem_edges_iff (hdistinct : g.adjacency.Distinct) {e : Edge} :
    e ∈ g.edges.toList ↔ g.findEdgeWeight e.source e.target = some e.weight := by
  rw [toList_edges, List.mem_flatMap]
  simp only [List.mem_finRange, true_and, Adjacency.outEdges, List.mem_map]
  constructor
  · rintro ⟨u, ⟨v, w⟩, hr, rfl⟩
    rw [findEdgeWeight_val]
    exact (Adjacency.mem_records_iff hdistinct).1 hr
  · intro hw
    obtain ⟨hu, hv⟩ := lt_of_findEdgeWeight hw
    rw [findEdgeWeight_val g ⟨e.source, hu⟩ ⟨e.target, hv⟩] at hw
    exact ⟨⟨e.source, hu⟩, ⟨⟨e.target, hv⟩, e.weight⟩, (Adjacency.mem_records_iff hdistinct).2 hw, rfl⟩

theorem inRange_of_mem_edges (g : Graph n) : ∀ e ∈ g.edges.toList, e.InRange n := by
  intro e he
  rw [toList_edges, List.mem_flatMap] at he
  obtain ⟨u, -, he⟩ := he
  obtain ⟨r, -, rfl⟩ := List.mem_map.1 he
  exact ⟨u.isLt, r.target.isLt⟩

/-! ### One copy -/

/-- A graph can be copied if there is memory for a new one. -/
theorem result_copy (g : Graph n) (r : Representation) :
    (g.copy r).result = (create n g.kind r).result.map fun empty => (empty.addEdges g.edges.toList).2 := by
  simp only [copy, Outcome.bind_def, Outcome.result_bind]
  cases hempty : (create n g.kind r).result with
  | ok empty =>
    rw [fromEdges_of_inRange g.inRange_of_mem_edges hempty]
    rfl
  | error e =>
    simp only [fromEdges, Outcome.bind_def, Outcome.result_bind, hempty]
    rfl

theorem exists_copy {r : Representation} {empty : Graph n} (hempty : (create n g.kind r).result = .ok empty) :
    ∃ h, (g.copy r).result = .ok h := by
  rw [result_copy, hempty]
  exact ⟨_, rfl⟩

/-- A copy is a new graph to which the edges of its original have been added. -/
theorem exists_create_of_copy {r : Representation} (hcopy : (g.copy r).result = .ok h) :
    ∃ empty, (create n g.kind r).result = .ok empty ∧ (empty.addEdges g.edges.toList).2 = h := by
  rw [result_copy] at hcopy
  cases hempty : (create n g.kind r).result with
  | error e => simp [hempty, Except.map] at hcopy
  | ok empty => exact ⟨empty, rfl, by simpa [hempty, Except.map] using hcopy⟩

theorem shape_of_copy {r : Representation} (hcopy : (g.copy r).result = .ok h) :
    h.kind = g.kind ∧ h.representation = r := by
  obtain ⟨empty, hempty, rfl⟩ := exists_create_of_copy hcopy
  rw [kind_addEdges, representation_addEdges]
  exact shape_of_create hempty

/-- A copy represents the map that its original represents. -/
theorem Represents.copy (hg : Represents g m) (hkeys : ∀ k ∈ m, ∃ u v : Fin n, g.kind.key u v = k) {r : Representation}
    (hcopy : (g.copy r).result = .ok h) : Represents h m := by
  obtain ⟨empty, hempty, rfl⟩ := exists_create_of_copy hcopy
  have hadded := (represents_empty hempty).addEdges g.inRange_of_mem_edges
  rw [(shape_of_create hempty).1] at hadded
  -- whichever direction of an edge is written last, it is written with the weight of the edge
  have hagree : ∀ e ∈ g.edges.toList, m.lookup (e.key g.kind) = some e.weight := by
    intro e he
    have hin : e.source < n ∧ e.target < n := g.inRange_of_mem_edges e he
    rw [mem_edges_iff hg.distinct, hg.findEdgeWeight, if_pos hin] at he
    exact he
  have hsame : EdgeMap.writeAll g.kind ∅ g.edges.toList = m := by
    refine Finmap.ext_lookup fun k => ?_
    rw [EdgeMap.lookup_writeAll_of_agree hagree]
    split
    · rfl
    · rename_i hk
      symm
      rw [Finmap.lookup_empty, Finmap.lookup_eq_none]
      intro hmem
      obtain ⟨u, v, rfl⟩ := hkeys k hmem
      obtain ⟨w, hw⟩ := Option.isSome_iff_exists.1 (Finmap.lookup_isSome.2 hmem)
      refine hk (List.mem_map.2 ⟨⟨u, v, w⟩, (mem_edges_iff hg.distinct).2 ?_, rfl⟩)
      rw [findEdgeWeight_val, hg.weight?, hw]
  rwa [hsame] at hadded

theorem exists_represents_copy (hg : g.Reachable) {r : Representation} (hcopy : (g.copy r).result = .ok h) :
    ∃ m, Represents g m ∧ Represents h m ∧ h.kind = g.kind := by
  obtain ⟨m, hm, hkeys⟩ := hg.represents
  exact ⟨m, hm, hm.copy hkeys hcopy, (shape_of_copy hcopy).1⟩

/-! ### Chains -/

theorem events_convert_of_ne {r : Representation} (hr : g.representation ≠ r) :
    (g.convert r).1.events = (g.copy r).events := by
  rw [convert, if_neg hr]
  simp only
  split <;> rfl

theorem convert_of_ne {r : Representation} (hr : g.representation ≠ r) (hcopy : (g.copy r).result = .ok h) :
    g.convert r = (⟨.ok (), (g.copy r).events⟩, h) := by
  rw [convert, if_neg hr]
  simp only [hcopy]

/-- A graph can be converted if there is memory for a new one. -/
theorem result_convert {r : Representation} {empty : Graph n} (hempty : (create n g.kind r).result = .ok empty) :
    (g.convert r).1.result = .ok () := by
  by_cases hr : g.representation = r
  · rw [← hr, convert_of_eq]
    rfl
  · obtain ⟨h, hcopy⟩ := exists_copy hempty
    rw [convert_of_ne hr hcopy]

theorem exists_recast {s : Recast} {empty : Graph n} (hempty : (create n g.kind s.representation).result = .ok empty) :
    ∃ h, g.recast s = .ok h := by
  cases s with
  | copy r => exact exists_copy hempty
  | convert r =>
    have hr : (g.convert r).1.result = .ok () := result_convert hempty
    rw [recast, hr]
    exact ⟨_, rfl⟩

/-- A step leaves a graph as it is, or gives a copy of it. -/
theorem recast_cases {s : Recast} (hs : g.recast s = .ok h) :
    h = g ∧ g.representation = s.representation ∨ (g.copy s.representation).result = .ok h := by
  cases s with
  | copy r => exact .inr hs
  | convert r =>
    by_cases hr : g.representation = r
    · rw [recast, ← hr, convert_of_eq] at hs
      exact .inl ⟨(Except.ok.inj hs).symm, hr⟩
    · cases hcopy : (g.copy r).result with
      | ok h' =>
        rw [recast, convert_of_ne hr hcopy] at hs
        exact .inr (hcopy.trans hs)
      | error e =>
        simp only [recast, convert, if_neg hr, hcopy] at hs
        contradiction

/-- A step keeps the kind of a graph, and brings it into the representation that it asks for. -/
theorem shape_recast {s : Recast} (hs : g.recast s = .ok h) :
    h.kind = g.kind ∧ h.representation = s.representation := by
  rcases recast_cases hs with ⟨rfl, hr⟩ | hcopy
  · exact ⟨rfl, hr⟩
  · exact shape_of_copy hcopy

/-- A step keeps the kind and the map of a graph, and brings it into the representation that it asks for. -/
theorem Represents.recast (hg : Represents g m) (hkeys : ∀ k ∈ m, ∃ u v : Fin n, g.kind.key u v = k) {s : Recast}
    (hs : g.recast s = .ok h) : Represents h m ∧ h.kind = g.kind ∧ h.representation = s.representation := by
  refine ⟨?_, shape_recast hs⟩
  rcases recast_cases hs with ⟨rfl, -⟩ | hcopy
  · exact hg
  · exact hg.copy hkeys hcopy

theorem recastAll_cons {s : Recast} {steps : List Recast} :
    g.recastAll (s :: steps) = .ok h ↔ ∃ g', g.recast s = .ok g' ∧ g'.recastAll steps = .ok h := by
  unfold recastAll
  rw [List.foldlM_cons]
  cases hs : g.recast s with
  | error e => simp [bind, Except.bind]
  | ok g' => simp [bind, Except.bind]

theorem Represents.recastAll (hg : Represents g m) (hkeys : ∀ k ∈ m, ∃ u v : Fin n, g.kind.key u v = k)
    {steps : List Recast} (hsteps : g.recastAll steps = .ok h) :
    Represents h m ∧ h.kind = g.kind ∧
      h.representation = (steps.getLast?.map Recast.representation).getD g.representation := by
  induction steps generalizing g with
  | nil =>
    obtain rfl : g = h := Except.ok.inj hsteps
    exact ⟨hg, rfl, rfl⟩
  | cons s steps ih =>
    obtain ⟨g', hs, hrest⟩ := recastAll_cons.1 hsteps
    obtain ⟨hg', hkind, hr⟩ := hg.recast hkeys hs
    obtain ⟨hh, hkind', hr'⟩ := ih hg' (by rwa [hkind]) hrest
    refine ⟨hh, hkind'.trans hkind, hr'.trans ?_⟩
    rw [List.getLast?_cons, hr]
    cases steps.getLast? <;> rfl

/-- With memory for both representations every chain of steps can be taken. -/
theorem exists_recastAll (hmemory : ∀ r, ∃ empty : Graph n, (create n g.kind r).result = .ok empty)
    (steps : List Recast) : ∃ h, g.recastAll steps = .ok h := by
  induction steps generalizing g with
  | nil => exact ⟨g, rfl⟩
  | cons s steps ih =>
    obtain ⟨empty, hempty⟩ := hmemory s.representation
    obtain ⟨g', hs⟩ := exists_recast hempty
    obtain ⟨h, hrest⟩ := ih (g := g') (by rwa [(shape_recast hs).1])
    exact ⟨h, recastAll_cons.2 ⟨g', hs, hrest⟩⟩

/-- Through any chain of copies and conversions a graph keeps its edges and its shape, apart from the representation,
and it answers changes and counts edges as it would have done without the chain. -/
theorem recastAll_keeps_edges (hg : g.Reachable) {steps : List Recast} (hsteps : g.recastAll steps = .ok h) :
    h.config = ⟨n, g.kind, (steps.getLast?.map Recast.representation).getD g.representation⟩ ∧
    h.edgeCount = g.edgeCount ∧
    (∀ u v, h.findEdgeWeight u v = g.findEdgeWeight u v) ∧
    (∀ changes, (h.performAll changes).1 = (g.performAll changes).1 ∧
      (h.performAll changes).2.edgeCount = (g.performAll changes).2.edgeCount) ∧
    g.convert g.representation = (.ok (), g) ∧
    ∀ r copied, r ≠ g.representation → (g.copy r).result = .ok copied →
      g.convert r = (⟨.ok (), (g.copy r).events⟩, copied) := by
  obtain ⟨m, hm, hkeys⟩ := hg.represents
  obtain ⟨hh, hkind, hr⟩ := hm.recastAll hkeys hsteps
  refine ⟨?_, ?_, fun u v => hh.findEdgeWeight_eq hm hkind u v, fun changes => ?_, g.convert_of_eq, ?_⟩
  · rw [config, hkind, hr]
  · rw [hh.edgeCount, hm.edgeCount]
  · obtain ⟨hreplies, hlast, -⟩ := hm.performAll changes
    obtain ⟨hreplies', hlast', -⟩ := hh.performAll changes
    rw [hkind] at hreplies' hlast'
    exact ⟨hreplies'.trans hreplies.symm, hlast'.edgeCount.trans hlast.edgeCount.symm⟩
  · exact fun r copied hne hcopy => convert_of_ne hne.symm hcopy

/-- A loop and an edge of an undirected graph come through lists and matrices, and are counted once each. -/
theorem recastAll_keeps_edges_loop :
    let g : Graph 3 := ((⟨.undirected, .rows (.empty 3), 0⟩ : Graph 3).addEdge 2 0 2.5).2.addEdge 1 1 (-0.0) |>.2
    let steps : List Recast := [.convert .adjacencyMatrix, .copy .adjacencyList, .convert .adjacencyList,
      .copy .adjacencyMatrix]
    ∃ h, g.recastAll steps = .ok h ∧ h.config = ⟨3, .undirected, .adjacencyMatrix⟩ ∧ h.edgeCount = 2 ∧
      h.findEdgeWeight 0 2 = some 2.5 ∧ h.findEdgeWeight 1 1 = some (-0.0) ∧
      (h.performAll [.removeEdge 0 2, .addEdge 2 0 1.0]).1 = [.ok (some true), .ok (some true)] := by
  intro g steps
  have hnew : (create 3 .undirected .adjacencyList).result = .ok ⟨.undirected, .rows (.empty 3), 0⟩ := rfl
  have hg : g.Reachable := ((Reachable.create hnew).addEdge 2 0 2.5).addEdge 1 1 (-0.0)
  have hmemory : ∀ r, ∃ empty : Graph 3, (create 3 g.kind r).result = .ok empty := by
    intro r
    cases r <;> exact ⟨_, rfl⟩
  obtain ⟨h, hsteps⟩ := exists_recastAll hmemory steps
  obtain ⟨hconfig, hcount, hfind, hchanges, -, -⟩ := recastAll_keeps_edges hg hsteps
  exact ⟨h, hsteps, hconfig, hcount.trans (by decide), (hfind 0 2).trans (by decide), (hfind 1 1).trans (by decide),
    (hchanges _).1.trans (by rfl)⟩

end Graph

end WeightedGraph
