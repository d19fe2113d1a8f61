import WeightedGraph.Proofs.Graph.CopyOrder

/-!
# Graphs made of a list of edges

Where a graph without edges can be had, a list of edges makes a graph if all their ends are vertices, and otherwise the
first edge that has an end which is none is to blame, for its source if that is no vertex and else for its target
(`addEdges_of_find?`).  The graph has an edge for every key in the list.  The weight under a key is the one that has
been written last (`EdgeMap.lookup_writeAll_empty`), whereas its place among the neighbours is the one that it got
first, from either end (`pairwise_otherEnds`).  If all keys differ, the list makes the same edges in every order
(`fromEdges_perm`).
-/

namespace WeightedGraph

/-! ### The weights -/

namespace EdgeMap

theorem writeAll_concat (kind : GraphKind) (m : EdgeMap) (edges : List Edge) (e : Edge) :
    m.writeAll kind (edges ++ [e]) = ((m.writeAll kind edges).write e.weight (e.key kind)).2 :=
  List.foldl_append

/-- What has been written last under a key is found there. -/
theorem lookup_writeAll_empty (kind : GraphKind) (edges : List Edge) (k : Nat × Nat) :
    (writeAll kind ∅ edges).lookup k = ((edges.filter (·.key kind = k)).getLast?).map (·.weight) := by
  induction edges using List.reverseRecOn with
  | nil => exact Finmap.lookup_empty k
  | append_singleton edges e ih =>
    rw [writeAll_concat, lookup_write, ih, List.filter_append]
    by_cases hk : e.key kind = k <;> simp [hk]

theorem keys_writeAll_empty (kind : GraphKind) (edges : List Edge) :
    (writeAll kind ∅ edges).keys = (edges.map (Edge.key kind)).toFinset := by
  ext k
  rw [Finmap.mem_keys, ← Finmap.lookup_isSome, lookup_writeAll_empty, Option.isSome_map,
    ← Option.ne_none_iff_isSome, ne_eq, List.getLast?_eq_none_iff, List.mem_toFinset, List.mem_map]
  simp [List.filter_eq_nil_iff]

end EdgeMap

private theorem filter_key_perm {kind : GraphKind} {edges edges' : List Edge} (hperm : edges'.Perm edges)
    (hkeys : (edges.map (Edge.key kind)).Nodup) (k : Nat × Nat) :
    edges'.filter (·.key kind = k) = edges.filter (·.key kind = k) := by
  have hlength : (edges.filter (·.key kind = k)).length ≤ 1 := by
    have hcount := List.nodup_iff_count_le_one.1 hkeys k
    rw [List.count, List.countP_map, List.countP_eq_length_filter] at hcount
    simpa only [Function.comp_def, beq_eq_decide] using hcount
  have hfilter := hperm.filter fun e => e.key kind = k
  generalize edges.filter (·.key kind = k) = found at hlength hfilter
  match found, hlength with
  | [], _ => exact hfilter.eq_nil
  | [e], _ => exact hfilter.eq_singleton

/-! ### The places of the neighbours -/

section

variable (kind : GraphKind) (edges : List Edge) (v : Nat)

/-- The vertices that edges lead to from `v`, in their order and each once. -/
def otherEnds : List Nat := (edges.filterMap fun e => kind.otherEnd? e.source e.target v).foldl addLast []

theorem otherEnds_concat (e : Edge) :
    otherEnds kind (edges ++ [e]) v =
      match kind.otherEnd? e.source e.target v with
      | some t => addLast (otherEnds kind edges v) t
      | none => otherEnds kind edges v := by
  rw [otherEnds, List.filterMap_append, List.foldl_append]
  cases h : kind.otherEnd? e.source e.target v <;> simp [h, otherEnds]

theorem mem_otherEnds_iff {t : Nat} : t ∈ otherEnds kind edges v ↔ kind.key v t ∈ edges.map (Edge.key kind) := by
  induction edges using List.reverseRecOn with
  | nil => simp [otherEnds]
  | append_singleton edges e ih =>
    rw [otherEnds_concat, List.map_append, List.mem_append, ← ih, List.map_singleton, List.mem_singleton, Edge.key]
    cases h : kind.otherEnd? e.source e.target v with
    | none =>
      have hne := GraphKind.otherEnd?_eq_none_iff.1 h t
      simp [Ne.symm hne]
    | some s =>
      have hkey : kind.key v t = kind.key e.source e.target ↔ t = s := by
        rw [eq_comm, ← GraphKind.otherEnd?_eq_some_iff, h, Option.some.injEq, eq_comm]
      rw [hkey]
      exact mem_addLast_iff

/-- The ends stand in the order in which their keys come up first. -/
theorem pairwise_otherEnds :
    (otherEnds kind edges v).Pairwise fun s t =>
      (edges.map (Edge.key kind)).idxOf (kind.key v s) < (edges.map (Edge.key kind)).idxOf (kind.key v t) := by
  induction edges using List.reverseRecOn with
  | nil => exact .nil
  | append_singleton edges e ih =>
    rw [otherEnds_concat, List.map_append]
    -- what is there already keeps its place
    have hplace {t : Nat} (ht : t ∈ otherEnds kind edges v) (keys : List (Nat × Nat)) :
        (edges.map (Edge.key kind) ++ keys).idxOf (kind.key v t) =
          (edges.map (Edge.key kind)).idxOf (kind.key v t) :=
      List.idxOf_append_of_mem ((mem_otherEnds_iff kind edges v).1 ht)
    have hkept : (otherEnds kind edges v).Pairwise fun s t =>
        (edges.map (Edge.key kind) ++ [e].map (Edge.key kind)).idxOf (kind.key v s) <
          (edges.map (Edge.key kind) ++ [e].map (Edge.key kind)).idxOf (kind.key v t) := by
      refine ih.imp_of_mem fun hs ht hlt => ?_
      rwa [hplace hs, hplace ht]
    cases kind.otherEnd? e.source e.target v with
    | none => exact hkept
    | some t =>
      simp only [addLast]
      split
      · exact hkept
      · rename_i hnew
        refine List.pairwise_append.2 ⟨hkept, List.pairwise_singleton .., fun s hs r hr => ?_⟩
        obtain rfl := List.mem_singleton.1 hr
        rw [hplace hs, List.idxOf_append_of_notMem (mt (mem_otherEnds_iff kind edges v).2 hnew)]
        exact Nat.lt_add_right _ (List.idxOf_lt_length_of_mem ((mem_otherEnds_iff kind edges v).1 hs))

end

namespace Graph

variable {n : Nat} {g : Graph n}

/-! ### Edges with an end that is no vertex -/

/-- The first edge with an end that is no vertex is to blame, and of its ends the source rather than the target. -/
theorem addEdges_of_find? {edges : List Edge} {e : Edge}
    (h : edges.find? (fun e => n ≤ e.source ∨ n ≤ e.target) = some e) :
    (g.addEdges edges).1.result =
      .error (.vertexOutOfRange (if n ≤ e.source then e.source else e.target) n) := by
  induction edges generalizing g with
  | nil => contradiction
  | cons d edges ih =>
    by_cases hd : d.InRange n
    · rw [List.find?_cons_of_neg (by simpa [Edge.InRange] using hd)] at h
      rw [(addEdges_cons_of_inRange hd edges).1]
      exact ih h
    · have hout : n ≤ d.source ∨ n ≤ d.target := by
        unfold Edge.InRange at hd
        omega
      rw [List.find?_cons_of_pos (by simpa using hout)] at h
      obtain rfl := Option.some.inj h
      by_cases hsource : n ≤ d.source
      · rw [if_pos hsource, addEdges, addEdge, checkEnds_of_source_le hsource]
        rfl
      · have htarget := hout.resolve_left hsource
        rw [if_neg hsource, addEdges, addEdge, checkEnds_of_target_le (Nat.not_le.1 hsource) htarget]
        rfl

section

variable {kind : GraphKind} {r : Representation} {empty : Graph n} {edges : List Edge}

theorem fromEdges_of_find? (hempty : (create n kind r).result = .ok empty) {e : Edge}
    (h : edges.find? (fun e => n ≤ e.source ∨ n ≤ e.target) = some e) :
    (fromEdges n kind r edges).result =
      .error (.vertexOutOfRange (if n ≤ e.source then e.source else e.target) n) := by
  simp only [fromEdges, Outcome.bind_def, Outcome.pure_def, Outcome.result_bind, hempty, Except.bind,
    addEdges_of_find? h]

theorem exists_fromEdges_iff (hempty : (create n kind r).result = .ok empty) :
    (∃ g, (fromEdges n kind r edges).result = .ok g) ↔ ∀ e ∈ edges, e.InRange n := by
  refine ⟨?_, fun h => ⟨_, fromEdges_of_inRange h hempty⟩⟩
  rintro ⟨g, hg⟩
  cases hfind : edges.find? (fun e => n ≤ e.source ∨ n ≤ e.target) with
  | none => simpa [Edge.InRange] using hfind
  | some e =>
    rw [fromEdges_of_find? hempty hfind] at hg
    contradiction

/-- A graph made of edges stands for the map into which they have been written. -/
theorem represents_of_fromEdges (hg : (fromEdges n kind r edges).result = .ok g) :
    Represents g (EdgeMap.writeAll kind ∅ edges) ∧ g.kind = kind := by
  obtain ⟨empty, hempty, rfl⟩ := exists_create_of_fromEdges hg
  obtain ⟨hkind, -⟩ := shape_of_create hempty
  refine ⟨?_, (kind_addEdges ..).trans hkind⟩
  rw [← hkind]
  exact (represents_empty hempty).addEdges ((exists_fromEdges_iff hempty).1 ⟨_, hg⟩)

theorem findEdgeWeight_of_fromEdges (hg : (fromEdges n kind r edges).result = .ok g) (u v : Nat) :
    g.findEdgeWeight u v = ((edges.filter (·.key kind = kind.key u v)).getLast?).map (·.weight) := by
  obtain ⟨hmap, hkind⟩ := represents_of_fromEdges hg
  rw [hmap.findEdgeWeight, hkind, EdgeMap.lookup_writeAll_empty]
  split
  · rfl
  · rename_i hout
    obtain ⟨empty, hempty, -⟩ := exists_create_of_fromEdges hg
    have hin := (exists_fromEdges_iff hempty).1 ⟨g, hg⟩
    -- an edge with the key of two numbers has these as its ends
    have hnone : edges.filter (·.key kind = kind.key u v) = [] := by
      rw [List.filter_eq_nil_iff]
      intro e he hkey
      have hends : Edit.InRange n ⟨e.source, e.target, none⟩ := hin e he
      exact hout (hends.of_key_eq (f := ⟨u, v, none⟩) (of_decide_eq_true hkey))
    rw [hnone]
    rfl

theorem edgeCount_of_fromEdges (hg : (fromEdges n kind r edges).result = .ok g) :
    g.edgeCount = (edges.map (Edge.key kind)).toFinset.card := by
  rw [(represents_of_fromEdges hg).1.edgeCount, EdgeMap.keys_writeAll_empty]

theorem targets_of_fromEdges (hg : (fromEdges n kind .adjacencyList edges).result = .ok g) (v : Fin n) :
    g.targets v = otherEnds kind edges v := by
  obtain ⟨empty, hempty, rfl⟩ := exists_create_of_fromEdges hg
  obtain ⟨hkind, hlist⟩ := shape_of_create hempty
  rw [targets_addEdges hlist ((exists_fromEdges_iff hempty).1 ⟨_, hg⟩), targets_of_create hempty, hkind]
  rfl

/-- Edges whose keys differ make one graph in every order, up to the order of the neighbours. -/
theorem fromEdges_perm (hg : (fromEdges n kind r edges).result = .ok g) {edges' : List Edge}
    (hperm : edges'.Perm edges) (hkeys : (edges.map (Edge.key kind)).Nodup) :
    ∃ g', (fromEdges n kind r edges').result = .ok g' ∧ g'.edgeCount = g.edgeCount ∧
      ∀ u v, g'.findEdgeWeight u v = g.findEdgeWeight u v := by
  obtain ⟨empty, hempty, -⟩ := exists_create_of_fromEdges hg
  have hin := (exists_fromEdges_iff hempty).1 ⟨g, hg⟩
  obtain ⟨g', hg'⟩ := (exists_fromEdges_iff hempty).2 fun e he => hin e (hperm.mem_iff.1 he)
  refine ⟨g', hg', ?_, fun u v => ?_⟩
  · rw [edgeCount_of_fromEdges hg, edgeCount_of_fromEdges hg', List.toFinset_eq_of_perm _ _ (hperm.map _)]
  · rw [findEdgeWeight_of_fromEdges hg, findEdgeWeight_of_fromEdges hg', filter_key_perm hperm hkeys]

/-- A list of edges makes a graph if all ends are vertices.  It has the last weight under each key, and in lists the
neighbours stand in the order in which the keys come up first. -/
theorem fromEdges_writes (hempty : (create n kind r).result = .ok empty) (edges : List Edge) :
    ((∃ g, (fromEdges n kind r edges).result = .ok g) ↔ ∀ e ∈ edges, e.source < n ∧ e.target < n) ∧
    (∀ e, edges.find? (fun e => n ≤ e.source ∨ n ≤ e.target) = some e →
      (fromEdges n kind r edges).result =
        .error (.vertexOutOfRange (if n ≤ e.source then e.source else e.target) n)) ∧
    ∀ g, (fromEdges n kind r edges).result = .ok g →
      let keys := edges.map (Edge.key kind)
      g.edgeCount = keys.toFinset.card ∧
      (∀ u v, g.findEdgeWeight u v = ((edges.filter (·.key kind = kind.key u v)).getLast?).map (·.weight)) ∧
      (r = .adjacencyList → ∀ v < n, ∃ out, g.neighborList v = .ok out ∧
        (∀ t, t ∈ out.map Edge.target ↔ kind.key v t ∈ keys) ∧
        (out.map Edge.target).Pairwise fun s t => keys.idxOf (kind.key v s) < keys.idxOf (kind.key v t)) ∧
      ∀ edges', edges'.Perm edges → keys.Nodup → ∃ g', (fromEdges n kind r edges').result = .ok g' ∧
        g'.edgeCount = g.edgeCount ∧ ∀ u v, g'.findEdgeWeight u v = g.findEdgeWeight u v := by
  refine ⟨exists_fromEdges_iff hempty, fun e he => fromEdges_of_find? hempty he, fun g hg => ?_⟩
  refine ⟨edgeCount_of_fromEdges hg, findEdgeWeight_of_fromEdges hg, ?_,
    fun _ hperm hkeys => fromEdges_perm hg hperm hkeys⟩
  rintro rfl v hv
  refine ⟨_, g.neighborList_val ⟨v, hv⟩, ?_⟩
  rw [map_target_outEdges, targets_of_fromEdges hg]
  exact ⟨fun t => mem_otherEnds_iff kind edges v, pairwise_otherEnds kind edges v⟩

end

/-- An edge that is given again from its other end gets the later weight and keeps its place. -/
theorem fromEdges_writes_both_ends :
    let edges : List Edge := [⟨0, 2, 1.5⟩, ⟨1, 1, 2.5⟩, ⟨1, 0, 3.5⟩, ⟨2, 0, 4.5⟩]
    ∃ g : Graph 3, (fromEdges 3 .undirected .adjacencyList edges).result = .ok g ∧ g.edgeCount = 3 ∧
      g.findEdgeWeight 0 2 = some 4.5 ∧ g.neighborList 0 = .ok [⟨0, 2, 4.5⟩, ⟨0, 1, 3.5⟩] ∧
      [2, 1].Pairwise fun s t => [(0, 2), (1, 1), (0, 1), (0, 2)].idxOf (GraphKind.undirected.key 0 s) <
        [(0, 2), (1, 1), (0, 1), (0, 2)].idxOf (GraphKind.undirected.key 0 t) := by
  intro edges
  have hnew : (create 3 .undirected .adjacencyList).result = .ok ⟨.undirected, .rows (.empty 3), 0⟩ := rfl
  obtain ⟨hmade, -, hwrites⟩ := fromEdges_writes hnew edges
  obtain ⟨g, hg⟩ := hmade.2 (by decide)
  obtain ⟨hcount, hfind, hplaces, -⟩ := hwrites g hg
  have hrow : (fromEdges 3 .undirected .adjacencyList edges).result.map (·.adjacency.outEdges 0) =
      .ok [⟨0, 2, 4.5⟩, ⟨0, 1, 3.5⟩] := rfl
  rw [hg] at hrow
  have hout : g.neighborList 0 = .ok [⟨0, 2, 4.5⟩, ⟨0, 1, 3.5⟩] := (neighborList_val g 0).trans hrow
  obtain ⟨out, hlist, -, hsorted⟩ := hplaces rfl 0 (by decide)
  obtain rfl := Except.ok.inj (hlist.symm.trans hout)
  exact ⟨g, hg, hcount.trans (by decide), (hfind 0 2).trans (by rfl), hout, hsorted⟩

end Graph

end WeightedGraph
