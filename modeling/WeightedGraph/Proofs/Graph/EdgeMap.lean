import WeightedGraph.Proofs.Graph.Reachable

/-!
# Graphs as maps of edges

A graph stands for a finite map from the keys of its edges to their weights (`Represents`).  Every change does
the same to both (`Represents.perform`), so over a whole run a graph answers what the map answers, counts as many
edges as the map has keys, and finds the weights that the map holds (`performAll_refines`).  Every reachable graph
stands for a map (`Reachable.represents`).
-/

namespace WeightedGraph

/-- A change of a graph. -/
inductive Change
  | addEdge (u v : Nat) (w : Weight)
  | setEdgeWeight (u v : Nat) (w : Weight)
  | addEdgeUnweighted (u v : Nat)
  | removeEdge (u v : Nat)
  | clear

/-- The weights of edges under their keys. -/
abbrev EdgeMap := Finmap fun _ : Nat × Nat => Weight

namespace EdgeMap

/-- Does something under the key of two vertices, unless one of them is none. -/
def change (kind : GraphKind) (n u v : Nat) (f : Nat × Nat → Bool × EdgeMap) (m : EdgeMap) :
    Except GraphError (Option Bool) × EdgeMap :=
  if n ≤ u then (.error (.vertexOutOfRange u n), m)
  else if n ≤ v then (.error (.vertexOutOfRange v n), m)
  else (.ok (some (f (kind.key u v)).1), (f (kind.key u v)).2)

/-- Writes a weight, and says whether the key is new. -/
def write (m : EdgeMap) (w : Weight) (k : Nat × Nat) : Bool × EdgeMap := ((m.lookup k).isNone, m.insert k w)

/-- Takes a key out, and says whether it was there. -/
def remove (m : EdgeMap) (k : Nat × Nat) : Bool × EdgeMap := ((m.lookup k).isSome, m.erase k)

/-- The answer to a change of a graph with `n` vertices, and the map after it. -/
def perform (kind : GraphKind) (n : Nat) (m : EdgeMap) : Change → Except GraphError (Option Bool) × EdgeMap
  | .addEdge u v w => change kind n u v (m.write w) m
  | .setEdgeWeight u v w => change kind n u v (m.write w) m
  | .addEdgeUnweighted u v => change kind n u v (m.write 1.0) m
  | .removeEdge u v => change kind n u v m.remove m
  | .clear => (.ok none, ∅)

/-- The answers to changes one after the other, and the map after them. -/
def performAll (kind : GraphKind) (n : Nat) (m : EdgeMap) :
    List Change → List (Except GraphError (Option Bool)) × EdgeMap
  | [] => ([], m)
  | c :: cs =>
    let (reply, m) := m.perform kind n c
    let (replies, m) := m.performAll kind n cs
    (reply :: replies, m)

theorem card_keys_write (m : EdgeMap) (w : Weight) (k : Nat × Nat) :
    (m.write w k).2.keys.card = if (m.lookup k).isSome then m.keys.card else m.keys.card + 1 := by
  have hkeys : (m.insert k w).keys = insert k m.keys := by
    ext k'
    simp [Finmap.mem_keys, Finmap.mem_insert]
  show (m.insert k w).keys.card = _
  rw [hkeys]
  by_cases hk : k ∈ m
  · rw [Finset.insert_eq_of_mem (Finmap.mem_keys.2 hk), if_pos (Finmap.lookup_isSome.2 hk)]
  · rw [Finset.card_insert_of_notMem (fun h => hk (Finmap.mem_keys.1 h)),
      if_neg fun h => hk (Finmap.lookup_isSome.1 h)]

theorem card_keys_remove (m : EdgeMap) (k : Nat × Nat) :
    (m.remove k).2.keys.card = if (m.lookup k).isSome then m.keys.card - 1 else m.keys.card := by
  show (m.erase k).keys.card = _
  rw [Finmap.keys_erase]
  by_cases hk : k ∈ m
  · rw [Finset.card_erase_of_mem (Finmap.mem_keys.2 hk), if_pos (Finmap.lookup_isSome.2 hk)]
  · rw [Finset.erase_eq_of_notMem (fun h => hk (Finmap.mem_keys.1 h)),
      if_neg fun h => hk (Finmap.lookup_isSome.1 h)]

theorem lookup_write (m : EdgeMap) (w : Weight) (k k' : Nat × Nat) :
    (m.write w k).2.lookup k' = if k = k' then some w else m.lookup k' := by
  unfold write
  by_cases hk : k = k'
  · rw [if_pos hk, hk, Finmap.lookup_insert]
  · rw [if_neg hk, Finmap.lookup_insert_of_ne _ (Ne.symm hk)]

theorem lookup_remove (m : EdgeMap) (k k' : Nat × Nat) :
    (m.remove k).2.lookup k' = if k = k' then none else m.lookup k' := by
  unfold remove
  by_cases hk : k = k'
  · rw [if_pos hk, hk, Finmap.lookup_erase]
  · rw [if_neg hk, Finmap.lookup_erase_ne (Ne.symm hk)]

end EdgeMap

namespace Graph

variable {n : Nat}

/-- The answer to a change, and the graph after it. -/
def perform (g : Graph n) : Change → Except GraphError (Option Bool) × Graph n
  | .addEdge u v w => (g.addEdge u v w).map (·.result.map some) id
  | .setEdgeWeight u v w => (g.setEdgeWeight u v w).map (·.result.map some) id
  | .addEdgeUnweighted u v => (g.addEdgeUnweighted u v).map (·.result.map some) id
  | .removeEdge u v => (g.removeEdge u v).map (·.result.map some) id
  | .clear => g.clear.map (·.result.map fun _ => none) id

/-- The answers to changes one after the other, and the graph after them. -/
def performAll (g : Graph n) : List Change → List (Except GraphError (Option Bool)) × Graph n
  | [] => ([], g)
  | c :: cs =>
    let (reply, g) := g.perform c
    let (replies, g) := g.performAll cs
    (reply :: replies, g)

@[simp] theorem representation_perform (g : Graph n) (c : Change) :
    (g.perform c).2.representation = g.representation := by
  have hadd (u v : Nat) (w : Weight) : (g.addEdge u v w).2.representation = g.representation := by
    unfold addEdge
    split
    · rfl
    · exact representation_insert ..
  cases c with
  | addEdge u v w => exact hadd u v w
  | setEdgeWeight u v w => exact hadd u v w
  | addEdgeUnweighted u v => exact hadd u v unitWeight
  | removeEdge u v =>
    show (g.removeEdge u v).2.representation = g.representation
    unfold removeEdge
    split
    · rfl
    · exact representation_erase ..
  | clear => exact g.adjacency.representation_clear

@[simp] theorem representation_performAll (g : Graph n) (cs : List Change) :
    (g.performAll cs).2.representation = g.representation := by
  induction cs generalizing g with
  | nil => rfl
  | cons c cs ih => exact (ih _).trans (g.representation_perform c)

theorem performAll_concat (g : Graph n) (cs : List Change) (c : Change) :
    (g.performAll (cs ++ [c])).2 = ((g.performAll cs).2.perform c).2 := by
  induction cs generalizing g with
  | nil => rfl
  | cons d cs ih => exact ih (g.perform d).2

/-- The graph stores what the map holds. -/
structure Represents (g : Graph n) (m : EdgeMap) : Prop where
  weight? : ∀ u v : Fin n, g.adjacency.weight? u v = m.lookup (g.kind.key u v)
  edgeCount : g.edgeCount = m.keys.card
  distinct : g.adjacency.Distinct

theorem represents_of_create {kind : GraphKind} {a : Adjacency n} {representation : Representation}
    (h : Adjacency.allocate n representation = .ok a) : Represents ⟨kind, a, 0⟩ ∅ where
  weight? u v := by rw [Finmap.lookup_empty, Adjacency.weight?_of_allocate h]
  edgeCount := rfl
  distinct := Adjacency.distinct_of_allocate h

theorem represents_empty {kind : GraphKind} {representation : Representation} {g : Graph n}
    (h : (create n kind representation).result = .ok g) : Represents g ∅ := by
  obtain ⟨a, ha, rfl⟩ := eq_of_create h
  exact represents_of_create ha

namespace Represents

variable {g : Graph n} {m : EdgeMap} (h : Represents g m)
include h

theorem insert (u v : Fin n) (w : Weight) :
    Represents (g.insert u v w).2 (m.write w (g.kind.key u v)).2 where
  weight? u' v' := by rw [weight?_insert, kind_insert, EdgeMap.lookup_write, h.weight?]
  edgeCount := by rw [edgeCount_insert, EdgeMap.card_keys_write, h.weight?, h.edgeCount]
  distinct := distinct_insert h.distinct u v w

theorem erase (u v : Fin n) : Represents (g.erase u v).2 (m.remove (g.kind.key u v)).2 where
  weight? u' v' := by rw [weight?_erase h.distinct, kind_erase, EdgeMap.lookup_remove, h.weight?]
  edgeCount := by rw [edgeCount_erase, EdgeMap.card_keys_remove, h.weight?, h.edgeCount]
  distinct := distinct_erase h.distinct u v

omit h in
theorem clear (g : Graph n) : Represents g.clear.2 ∅ where
  weight? u v := by
    rw [Finmap.lookup_empty]
    exact g.adjacency.weight?_clear u v
  edgeCount := rfl
  distinct := Adjacency.distinct_clear g.adjacency

private theorem addEdge (u v : Nat) (w : Weight) :
    (g.addEdge u v w).1.result.map some = (EdgeMap.change g.kind n u v (m.write w) m).1 ∧
      Represents (g.addEdge u v w).2 (EdgeMap.change g.kind n u v (m.write w) m).2 ∧
      (g.addEdge u v w).2.kind = g.kind := by
  unfold EdgeMap.change
  by_cases hu : n ≤ u
  · rw [if_pos hu, Graph.addEdge, checkEnds_of_source_le hu]
    exact ⟨rfl, h, rfl⟩
  · rw [if_neg hu]
    by_cases hv : n ≤ v
    · rw [if_pos hv, Graph.addEdge, checkEnds_of_target_le (Nat.not_le.1 hu) hv]
      exact ⟨rfl, h, rfl⟩
    · rw [if_neg hv, addEdge_of_lt g (Nat.not_le.1 hu) (Nat.not_le.1 hv)]
      refine ⟨?_, h.insert ⟨u, Nat.not_le.1 hu⟩ ⟨v, Nat.not_le.1 hv⟩ w, rfl⟩
      simp [Outcome.report, fst_insert, h.weight?, EdgeMap.write, Except.map]

private theorem removeEdge (u v : Nat) :
    (g.removeEdge u v).1.result.map some = (EdgeMap.change g.kind n u v m.remove m).1 ∧
      Represents (g.removeEdge u v).2 (EdgeMap.change g.kind n u v m.remove m).2 ∧
      (g.removeEdge u v).2.kind = g.kind := by
  unfold EdgeMap.change
  by_cases hu : n ≤ u
  · rw [if_pos hu, Graph.removeEdge, checkEnds_of_source_le hu]
    exact ⟨rfl, h, rfl⟩
  · rw [if_neg hu]
    by_cases hv : n ≤ v
    · rw [if_pos hv, Graph.removeEdge, checkEnds_of_target_le (Nat.not_le.1 hu) hv]
      exact ⟨rfl, h, rfl⟩
    · rw [if_neg hv, removeEdge_of_lt g (Nat.not_le.1 hu) (Nat.not_le.1 hv)]
      refine ⟨?_, h.erase ⟨u, Nat.not_le.1 hu⟩ ⟨v, Nat.not_le.1 hv⟩, rfl⟩
      simp [Outcome.report, fst_erase, h.weight?, EdgeMap.remove, Except.map]

/-- A change does the same to a graph and to the map that it represents. -/
theorem perform (c : Change) :
    (g.perform c).1 = (m.perform g.kind n c).1 ∧ Represents (g.perform c).2 (m.perform g.kind n c).2 ∧
      (g.perform c).2.kind = g.kind := by
  cases c with
  | addEdge u v w => exact h.addEdge u v w
  | setEdgeWeight u v w => exact h.addEdge u v w
  | addEdgeUnweighted u v => exact h.addEdge u v 1.0
  | removeEdge u v => exact h.removeEdge u v
  | clear => exact ⟨rfl, clear g, rfl⟩

theorem performAll (cs : List Change) :
    (g.performAll cs).1 = (m.performAll g.kind n cs).1 ∧
      Represents (g.performAll cs).2 (m.performAll g.kind n cs).2 ∧ (g.performAll cs).2.kind = g.kind := by
  induction cs generalizing g m with
  | nil => exact ⟨rfl, h, rfl⟩
  | cons c cs ih =>
    obtain ⟨hreply, hnext, hkind⟩ := h.perform c
    obtain ⟨hreplies, hlast, hkind'⟩ := ih hnext
    rw [hkind] at hreplies hlast hkind'
    exact ⟨congrArg₂ List.cons hreply hreplies, hlast, hkind'⟩

theorem findEdgeWeight (u v : Nat) :
    g.findEdgeWeight u v = if u < n ∧ v < n then m.lookup (g.kind.key u v) else none := by
  by_cases hin : u < n ∧ v < n
  · rw [if_pos hin]
    exact (findEdgeWeight_val g ⟨u, hin.1⟩ ⟨v, hin.2⟩).trans (h.weight? ..)
  · rw [if_neg hin]
    exact findEdgeWeight_of_le (by omega)

/-- Graphs of one kind find the same weights if they represent one map. -/
theorem findEdgeWeight_eq {g' : Graph n} (h' : Represents g' m) (hkind : g.kind = g'.kind) (u v : Nat) :
    g.findEdgeWeight u v = g'.findEdgeWeight u v := by
  rw [h.findEdgeWeight, h'.findEdgeWeight, hkind]

end Represents

/-- A reachable graph represents a map of edges whose keys are all keys of vertices. -/
theorem Reachable.represents {g : Graph n} (h : g.Reachable) :
    ∃ m, Represents g m ∧ ∀ k ∈ m, ∃ u v : Fin n, g.kind.key u v = k := by
  refine Reachable.induction
    (P := fun g => ∃ m, Represents g m ∧ ∀ k ∈ m, ∃ u v : Fin n, g.kind.key u v = k) ?_ ?_ ?_ ?_ h
  · intro kind representation g hg
    obtain ⟨a, ha, rfl⟩ := eq_of_create hg
    exact ⟨∅, represents_of_create ha, fun k hk => absurd hk Finmap.notMem_empty⟩
  · rintro g u v w ⟨m, hm, hkeys⟩
    refine ⟨_, hm.insert u v w, fun k hk => ?_⟩
    rcases Finmap.mem_insert.1 hk with rfl | hk
    · exact ⟨u, v, rfl⟩
    · exact hkeys k hk
  · rintro g u v ⟨m, hm, hkeys⟩
    refine ⟨_, hm.erase u v, fun k hk => ?_⟩
    exact hkeys k (Finmap.mem_erase.1 hk).2
  · rintro g -
    exact ⟨∅, Represents.clear g, fun k hk => absurd hk Finmap.notMem_empty⟩

/-- Over a run of changes, a new graph answers what a map of edges answers that is empty at first, and it stores
what the map holds. -/
theorem performAll_refines {kind : GraphKind} {representation : Representation} {g : Graph n}
    (hg : (create n kind representation).result = .ok g) (changes : List Change) :
    let final := (g.performAll changes).2
    let m := (EdgeMap.performAll kind n ∅ changes).2
    (g.performAll changes).1 = (EdgeMap.performAll kind n ∅ changes).1 ∧
      final.edgeCount = m.keys.card ∧
      ∀ u v : Nat,
        final.findEdgeWeight u v = (if u < n ∧ v < n then m.lookup (kind.key u v) else none) ∧
        final.hasEdge u v = (final.findEdgeWeight u v).isSome ∧
        final.edgeWeight u v = (final.findEdgeWeight u v).getD (-1.0) ∧
        (kind = .undirected → final.findEdgeWeight u v = final.findEdgeWeight v u) := by
  obtain ⟨a, ha, rfl⟩ := eq_of_create hg
  obtain ⟨hreplies, hfinal, hkind⟩ := (represents_of_create ha : Represents ⟨kind, a, 0⟩ ∅).performAll changes
  refine ⟨hreplies, hfinal.edgeCount, fun u v => ⟨?_, hasEdge_eq .., rfl, ?_⟩⟩
  · rw [hfinal.findEdgeWeight, hkind]
  · rintro rfl
    rw [hfinal.findEdgeWeight, hfinal.findEdgeWeight, hkind, GraphKind.key_swap]
    exact if_congr and_comm rfl rfl

/-- An undirected edge that is written from both ends counts once and has the last weight. -/
theorem performAll_refines_both_ends :
    let g : Graph 2 := ⟨.undirected, .rows (.empty 2), 0⟩
    let final := (g.performAll [.addEdge 0 1 2.5, .addEdge 1 0 4.0]).2
    (create 2 .undirected .adjacencyList).result = .ok g ∧ final.edgeCount = 1 ∧
      final.findEdgeWeight 0 1 = some 4.0 := by
  intro g final
  have hg : (create 2 .undirected .adjacencyList).result = .ok g := rfl
  obtain ⟨-, hcount, hfind⟩ := performAll_refines hg [.addEdge 0 1 2.5, .addEdge 1 0 4.0]
  exact ⟨hg, hcount.trans (by decide), (hfind 0 1).1.trans (by rfl)⟩

end Graph

end WeightedGraph
