import WeightedGraph.Proofs.Adjacency.Edit
import WeightedGraph.Proofs.Graph.EdgeMap

/-!
# Edits of a graph

Adding, setting and removing an edge are edits: they say what weight there is under the key of two vertices from now
on, if any (`Change.edit?`).  Which of the two ends comes first does not matter where both directions are stored
(`edit_swap`).

* (undoing) Writing an edge can be taken back (`edit_edit_weight?`): an edge that has been added is gone without a trace
  when it is removed, from either end if it has no direction, and so is a weight when the old one is written again.
* (exchanging) Edits under different keys answer the same in either order and lead to the same edges (`fst_edit_edit`,
  `exists_represents_edit_edit`), which also come in the same order in a matrix and if no vertex is an end of both
  (`edit_comm`).
-/

namespace WeightedGraph

/-- What there is between two vertices from now on: an edge of some weight, or none. -/
structure Edit where
  source : Nat
  target : Nat
  weight? : Option Weight

/-- Both ends are vertices. -/
def Edit.InRange (n : Nat) (e : Edit) : Prop := e.source < n ∧ e.target < n

def Edit.key (kind : GraphKind) (e : Edit) : Nat × Nat := kind.key e.source e.target

theorem Edit.InRange.of_key_eq {n : Nat} {kind : GraphKind} {e f : Edit} (h : e.InRange n)
    (hkey : e.key kind = f.key kind) : f.InRange n := by
  cases kind with
  | directed =>
    obtain ⟨hu, hv⟩ := GraphKind.directed_key_inj.1 hkey
    exact ⟨hu ▸ h.1, hv ▸ h.2⟩
  | undirected =>
    rcases GraphKind.undirected_key_inj.1 hkey with ⟨hu, hv⟩ | ⟨hv, hu⟩
    · exact ⟨hu ▸ h.1, hv ▸ h.2⟩
    · exact ⟨hv ▸ h.2, hu ▸ h.1⟩

/-- What a change does to a single edge. -/
def Change.edit? : Change → Option Edit
  | .addEdge u v w => some ⟨u, v, some w⟩
  | .setEdgeWeight u v w => some ⟨u, v, some w⟩
  | .addEdgeUnweighted u v => some ⟨u, v, some 1.0⟩
  | .removeEdge u v => some ⟨u, v, none⟩
  | .clear => none

namespace Adjacency

variable {n : Nat} {a : Adjacency n}

/-- An edit in every direction in which the edge is stored. -/
def editBoth (a : Adjacency n) (kind : GraphKind) (u v : Fin n) (x : Option Weight) : Adjacency n :=
  if Graph.runsBothWays kind u v then (a.edit u v x).edit v u x else a.edit u v x

/-- If all directions of two edges are apart, one edge can be edited before or after the other one. -/
theorem editBoth_comm {kind : GraphKind} {u v u' v' : Fin n} (h : Apart a.representation u v u' v')
    (hback : Graph.runsBothWays kind u v = true → Apart a.representation v u u' v')
    (hback' : Graph.runsBothWays kind u' v' = true → Apart a.representation u v v' u')
    (hboth : Graph.runsBothWays kind u v = true → Graph.runsBothWays kind u' v' = true →
      Apart a.representation v u v' u')
    (x y : Option Weight) :
    (a.editBoth kind u v x).editBoth kind u' v' y = (a.editBoth kind u' v' y).editBoth kind u v x := by
  unfold editBoth
  by_cases hu : Graph.runsBothWays kind u v = true
  · by_cases hu' : Graph.runsBothWays kind u' v' = true
    · simp only [if_pos hu, if_pos hu']
      calc (((a.edit u v x).edit v u x).edit u' v' y).edit v' u' y
          = (((a.edit u v x).edit u' v' y).edit v u x).edit v' u' y := by
            rw [edit_comm (a := a.edit u v x) (by simpa using hback hu)]
        _ = (((a.edit u v x).edit u' v' y).edit v' u' y).edit v u x := by
            rw [edit_comm (a := (a.edit u v x).edit u' v' y) (by simpa using hboth hu hu')]
        _ = (((a.edit u' v' y).edit u v x).edit v' u' y).edit v u x := by rw [edit_comm h]
        _ = (((a.edit u' v' y).edit v' u' y).edit u v x).edit v u x := by
            rw [edit_comm (a := a.edit u' v' y) (by simpa using hback' hu')]
    · simp only [if_pos hu, if_neg hu']
      rw [edit_comm (a := a.edit u v x) (by simpa using hback hu), edit_comm h]
  · by_cases hu' : Graph.runsBothWays kind u' v' = true
    · simp only [if_neg hu, if_pos hu']
      rw [edit_comm h, edit_comm (a := a.edit u' v' y) (by simpa using hback' hu')]
    · simp only [if_neg hu, if_neg hu']
      exact edit_comm h x y

end Adjacency

namespace EdgeMap

/-- A map with the given weight under a key, or without the key. -/
def edit (m : EdgeMap) (k : Nat × Nat) : Option Weight → EdgeMap
  | some w => (m.write w k).2
  | none => (m.remove k).2

theorem lookup_edit (m : EdgeMap) (k : Nat × Nat) (x : Option Weight) (k' : Nat × Nat) :
    (m.edit k x).lookup k' = if k = k' then x else m.lookup k' := by
  cases x with
  | none => exact m.lookup_remove k k'
  | some w => exact m.lookup_write w k k'

theorem edit_comm (m : EdgeMap) {k k' : Nat × Nat} (h : k ≠ k') (x y : Option Weight) :
    (m.edit k x).edit k' y = (m.edit k' y).edit k x := by
  refine Finmap.ext_lookup fun k'' => ?_
  simp only [lookup_edit]
  by_cases hk : k = k''
  · rw [if_pos hk, if_pos hk, if_neg fun hk' => h (hk.trans hk'.symm)]
  · rw [if_neg hk, if_neg hk]

end EdgeMap

namespace Graph

variable {n : Nat} {g : Graph n} {m : EdgeMap}

/-- Writes or erases an edge, and says whether it is new or whether there was one. -/
def edit (g : Graph n) (u v : Fin n) : Option Weight → Bool × Graph n
  | some w => g.insert u v w
  | none => g.erase u v

/-- A change of a single edge is an edit. -/
theorem perform_of_edit? {c : Change} {e : Edit} (h : c.edit? = some e) (he : e.InRange n) :
    g.perform c = (.ok (some (g.edit ⟨e.source, he.1⟩ ⟨e.target, he.2⟩ e.weight?).1),
      (g.edit ⟨e.source, he.1⟩ ⟨e.target, he.2⟩ e.weight?).2) := by
  obtain ⟨hu, hv⟩ := he
  cases c with
  | clear => contradiction
  | removeEdge u v =>
    cases h
    simp only [perform, removeEdge_of_lt g hu hv]
    rfl
  | addEdge u v w =>
    cases h
    simp only [perform, addEdge_of_lt g hu hv]
    rfl
  | setEdgeWeight u v w =>
    cases h
    simp only [perform, setEdgeWeight, addEdge_of_lt g hu hv]
    rfl
  | addEdgeUnweighted u v =>
    cases h
    simp only [perform, addEdgeUnweighted, addEdge_of_lt g hu hv]
    rfl

@[simp] theorem kind_edit (g : Graph n) (u v : Fin n) (x : Option Weight) : (g.edit u v x).2.kind = g.kind := by
  cases x <;> rfl

theorem adjacency_edit (g : Graph n) (u v : Fin n) (x : Option Weight) :
    (g.edit u v x).2.adjacency = g.adjacency.editBoth g.kind u v x := by
  cases x <;> rfl

/-- An edit answers whether it adds the edge or takes it out. -/
theorem fst_edit (g : Graph n) (u v : Fin n) (x : Option Weight) :
    (g.edit u v x).1 = ((g.adjacency.weight? u v).isSome != x.isSome) := by
  cases x with
  | none =>
    show (g.erase u v).1 = _
    rw [fst_erase]
    simp
  | some w =>
    show (g.insert u v w).1 = _
    rw [fst_insert]
    simp

theorem edgeCount_edit (g : Graph n) (u v : Fin n) (x : Option Weight) :
    (g.edit u v x).2.edgeCount =
      match (g.adjacency.weight? u v).isSome, x.isSome with
      | false, true => g.edgeCount + 1
      | true, false => g.edgeCount - 1
      | _, _ => g.edgeCount := by
  cases x with
  | none =>
    show (g.erase u v).2.edgeCount = _
    rw [edgeCount_erase]
    cases (g.adjacency.weight? u v).isSome <;> rfl
  | some w =>
    show (g.insert u v w).2.edgeCount = _
    rw [edgeCount_insert]
    cases (g.adjacency.weight? u v).isSome <;> rfl

theorem weight?_edit (hg : g.adjacency.Distinct) (u v : Fin n) (x : Option Weight) (u' v' : Fin n) :
    (g.edit u v x).2.adjacency.weight? u' v' =
      if g.kind.key u v = g.kind.key u' v' then x else g.adjacency.weight? u' v' := by
  cases x with
  | none => exact weight?_erase hg u v u' v'
  | some w => exact weight?_insert g u v w u' v'

theorem Represents.edit (h : Represents g m) (u v : Fin n) (x : Option Weight) :
    Represents (g.edit u v x).2 (m.edit (g.kind.key u v) x) := by
  cases x with
  | none => exact h.erase u v
  | some w => exact h.insert u v w

/-- Both directions of an undirected edge have one weight. -/
theorem Represents.weight?_swap (h : Represents g m) (hkind : g.kind = .undirected) (u v : Fin n) :
    g.adjacency.weight? v u = g.adjacency.weight? u v := by
  rw [h.weight?, h.weight?, hkind, GraphKind.key_swap]

theorem Represents.findEdgeWeight_of_key_eq (h : Represents g m) {u v u' v' : Nat}
    (hkey : g.kind.key u v = g.kind.key u' v') : g.findEdgeWeight u v = g.findEdgeWeight u' v' := by
  have hrange : (u < n ∧ v < n) ↔ (u' < n ∧ v' < n) :=
    ⟨fun hin => Edit.InRange.of_key_eq (e := ⟨u, v, none⟩) (f := ⟨u', v', none⟩) hin hkey,
      fun hin => Edit.InRange.of_key_eq (e := ⟨u', v', none⟩) (f := ⟨u, v, none⟩) hin hkey.symm⟩
  rw [h.findEdgeWeight, h.findEdgeWeight, hkey]
  exact if_congr hrange rfl rfl

theorem Represents.hasEdge_of_key_eq (h : Represents g m) {u v u' v' : Nat}
    (hkey : g.kind.key u v = g.kind.key u' v') : g.hasEdge u v = g.hasEdge u' v' := by
  rw [hasEdge_eq, hasEdge_eq, h.findEdgeWeight_of_key_eq hkey]

theorem kind_of_runsBothWays {kind : GraphKind} {u v : Fin n} (h : runsBothWays kind u v = true) :
    kind = .undirected ∧ u ≠ v := by
  cases kind with
  | directed => simp [runsBothWays, GraphKind.isDirected] at h
  | undirected => exact ⟨rfl, by simpa [runsBothWays, GraphKind.isDirected] using h⟩

/-! ### Undoing -/

/-- An undirected edge can be edited from either end. -/
theorem edit_swap (h : Represents g m) (hkind : g.kind = .undirected) (u v : Fin n) (x : Option Weight) :
    g.edit v u x = g.edit u v x := by
  have hadjacency : g.adjacency.editBoth g.kind v u x = g.adjacency.editBoth g.kind u v x := by
    by_cases huv : u = v
    · rw [huv]
    · have hboth : runsBothWays g.kind u v = true := by simp [runsBothWays, hkind, GraphKind.isDirected, huv]
      have hboth' : runsBothWays g.kind v u = true := by
        simp [runsBothWays, hkind, GraphKind.isDirected, Ne.symm huv]
      rw [Adjacency.editBoth, Adjacency.editBoth, if_pos hboth, if_pos hboth']
      exact Adjacency.edit_comm (.inl (Ne.symm huv)) x x
  have hflag : (g.edit v u x).1 = (g.edit u v x).1 := by rw [fst_edit, fst_edit, h.weight?_swap hkind]
  have hgraph : (g.edit v u x).2 = (g.edit u v x).2 := by
    rw [Graph.mk.injEq]
    refine ⟨by rw [kind_edit, kind_edit], by rw [adjacency_edit, adjacency_edit, hadjacency], ?_⟩
    rw [edgeCount_edit, edgeCount_edit, h.weight?_swap hkind]
  exact Prod.ext hflag hgraph

theorem edit_of_key_eq (h : Represents g m) {u v u' v' : Fin n} (hkey : g.kind.key u v = g.kind.key u' v')
    (x : Option Weight) : g.edit u' v' x = g.edit u v x := by
  rcases (key_eq_iff g.kind u v u' v').1 hkey with ⟨rfl, rfl⟩ | ⟨hboth, rfl, rfl⟩
  · rfl
  · exact edit_swap h (kind_of_runsBothWays hboth).1 u v x

private theorem editBoth_editBoth_weight? (h : Represents g m) (hblank : g.adjacency.Blank) (u v : Fin n) (w : Weight) :
    (g.adjacency.editBoth g.kind u v (some w)).editBoth g.kind u v (g.adjacency.weight? u v) = g.adjacency := by
  unfold Adjacency.editBoth
  split
  · rename_i hboth
    obtain ⟨hkind, hne⟩ := kind_of_runsBothWays hboth
    -- the two directions lie in different rows, so that each of them can be put back on its own
    rw [Adjacency.edit_comm (a := g.adjacency.edit u v (some w)) (.inl (Ne.symm hne)),
      Adjacency.edit_edit_weight? hblank, ← h.weight?_swap hkind, Adjacency.edit_edit_weight? hblank]
  · exact Adjacency.edit_edit_weight? hblank u v w

/-- After an edge has been written, an edit that puts back what there was restores the graph. -/
theorem edit_edit_weight? (h : Represents g m) (hblank : g.adjacency.Blank) (u v : Fin n) (w : Weight) :
    ((g.edit u v (some w)).2.edit u v (g.adjacency.weight? u v)).2 = g := by
  rw [Graph.mk.injEq]
  refine ⟨by rw [kind_edit, kind_edit], ?_, ?_⟩
  · rw [adjacency_edit, adjacency_edit, kind_edit]
    exact editBoth_editBoth_weight? h hblank u v w
  · rw [edgeCount_edit, edgeCount_edit, weight?_edit h.distinct, if_pos rfl]
    cases g.adjacency.weight? u v <;> rfl

/-- A change that writes an edge is undone by a change that puts back what there was before. -/
theorem perform_perform_of_findEdgeWeight (hg : g.Reachable) {c d : Change} {e f : Edit} (hc : c.edit? = some e)
    (hd : d.edit? = some f) (he : e.InRange n) (hf : f.InRange n) (hkey : e.key g.kind = f.key g.kind)
    (hwrites : e.weight?.isSome) (hback : f.weight? = g.findEdgeWeight e.source e.target) :
    ((g.perform c).2.perform d).2 = g := by
  obtain ⟨m, hm, -⟩ := hg.represents
  obtain ⟨w, hw⟩ := Option.isSome_iff_exists.1 hwrites
  rw [perform_of_edit? hc he, perform_of_edit? hd hf, hw, hback]
  have hkey' : (g.edit ⟨e.source, he.1⟩ ⟨e.target, he.2⟩ (some w)).2.kind.key e.source e.target =
      (g.edit ⟨e.source, he.1⟩ ⟨e.target, he.2⟩ (some w)).2.kind.key f.source f.target := by
    rw [kind_edit]
    exact hkey
  rw [edit_of_key_eq (hm.edit ..) (u := ⟨e.source, he.1⟩) (v := ⟨e.target, he.2⟩) hkey',
    findEdgeWeight_val g ⟨e.source, he.1⟩ ⟨e.target, he.2⟩]
  exact edit_edit_weight? hm hg.blank _ _ w

/-! ### Exchanging -/

private theorem apart_of_key_ne {r : Representation} {kind : GraphKind} {u v u' v' : Fin n}
    (hne : kind.key u v ≠ kind.key u' v')
    (h : r = .adjacencyMatrix ∨ u ≠ u' ∧ u ≠ v' ∧ v ≠ u' ∧ v ≠ v') : Adjacency.Apart r u v u' v' := by
  rcases h with hr | ⟨hu, -⟩
  · by_cases hu : u = u'
    · exact .inr ⟨hr, fun hv => hne (by rw [hu, hv])⟩
    · exact .inl hu
  · exact .inl hu

/-- After edits under different keys there is the same map of edges, whichever of them was made first. -/
theorem exists_represents_edit_edit (h : Represents g m) {u v u' v' : Fin n}
    (hne : g.kind.key u v ≠ g.kind.key u' v') (x y : Option Weight) :
    ∃ m', Represents ((g.edit u v x).2.edit u' v' y).2 m' ∧ Represents ((g.edit u' v' y).2.edit u v x).2 m' := by
  have hfirst := (h.edit u v x).edit u' v' y
  have hlast := (h.edit u' v' y).edit u v x
  rw [kind_edit] at hfirst hlast
  rw [EdgeMap.edit_comm m hne] at hfirst
  exact ⟨_, hfirst, hlast⟩

/-- Edits under different keys can be made in either order, in a matrix and where no vertex is an end of both edges. -/
theorem edit_comm (h : Represents g m) {u v u' v' : Fin n} (hne : g.kind.key u v ≠ g.kind.key u' v')
    (hapart : g.representation = .adjacencyMatrix ∨ u ≠ u' ∧ u ≠ v' ∧ v ≠ u' ∧ v ≠ v') (x y : Option Weight) :
    ((g.edit u v x).2.edit u' v' y).2 = ((g.edit u' v' y).2.edit u v x).2 := by
  rw [Graph.mk.injEq]
  refine ⟨by simp, ?_, ?_⟩
  · rw [adjacency_edit, adjacency_edit, adjacency_edit, adjacency_edit, kind_edit, kind_edit]
    have hswap {a b : Fin n} (hboth : runsBothWays g.kind a b = true) : g.kind.key a b = g.kind.key b a := by
      rw [(kind_of_runsBothWays hboth).1, GraphKind.key_swap]
    refine Adjacency.editBoth_comm (apart_of_key_ne hne hapart) ?_ ?_ ?_ x y
    · intro hboth
      rw [hswap hboth] at hne
      exact apart_of_key_ne hne (hapart.imp_right fun ⟨h1, h2, h3, h4⟩ => ⟨h3, h4, h1, h2⟩)
    · intro hboth
      rw [hswap hboth] at hne
      exact apart_of_key_ne hne (hapart.imp_right fun ⟨h1, h2, h3, h4⟩ => ⟨h2, h1, h4, h3⟩)
    · intro hboth hboth'
      rw [hswap hboth, hswap hboth'] at hne
      exact apart_of_key_ne hne (hapart.imp_right fun ⟨h1, h2, h3, h4⟩ => ⟨h4, h3, h2, h1⟩)
  · obtain ⟨m', hfirst, hlast⟩ := exists_represents_edit_edit h hne x y
    rw [hfirst.edgeCount, hlast.edgeCount]

/-- An edit leaves the answer to an edit under another key as it was. -/
theorem fst_edit_edit (h : Represents g m) {u v u' v' : Fin n} (hne : g.kind.key u v ≠ g.kind.key u' v')
    (x y : Option Weight) : ((g.edit u v x).2.edit u' v' y).1 = (g.edit u' v' y).1 := by
  rw [fst_edit, fst_edit, weight?_edit h.distinct, if_neg hne]

/-- Changes of single edges can be undone without a trace, and changes of different edges can be exchanged. -/
theorem changes_undo_and_commute (hg : g.Reachable) :
    (∀ (u v : Nat) (w : Weight), u < n → v < n → g.hasEdge u v = false →
      ((g.addEdge u v w).2.removeEdge u v).2 = g ∧
        (g.kind = .undirected → ((g.addEdge u v w).2.removeEdge v u).2 = g)) ∧
    (∀ (c d : Change) (e f : Edit) (x : Weight), c.edit? = some e → d.edit? = some f →
      e.key g.kind = f.key g.kind → g.findEdgeWeight e.source e.target = some x → e.weight?.isSome →
      f.weight? = some x → ((g.perform c).2.perform d).2 = g) ∧
    (∀ (c d : Change) (e f : Edit), c.edit? = some e → d.edit? = some f → e.InRange n → f.InRange n →
      e.key g.kind ≠ f.key g.kind →
      let cd := ((g.perform c).2.perform d).2
      let dc := ((g.perform d).2.perform c).2
      (∃ bc bd : Bool, (g.perform c).1 = .ok (some bc) ∧ ((g.perform c).2.perform d).1 = .ok (some bd) ∧
        (g.perform d).1 = .ok (some bd) ∧ ((g.perform d).2.perform c).1 = .ok (some bc)) ∧
      cd.edgeCount = dc.edgeCount ∧ (∀ a b, cd.findEdgeWeight a b = dc.findEdgeWeight a b) ∧
      (g.representation = .adjacencyMatrix ∨
          e.source ≠ f.source ∧ e.source ≠ f.target ∧ e.target ≠ f.source ∧ e.target ≠ f.target →
        cd = dc ∧ cd.edges.toList = dc.edges.toList)) := by
  obtain ⟨m, hm, -⟩ := hg.represents
  refine ⟨fun u v w hu hv hnone => ⟨?_, fun hkind => ?_⟩, ?_, ?_⟩
  · have hback : g.findEdgeWeight u v = none := by simpa [hasEdge_eq] using hnone
    exact perform_perform_of_findEdgeWeight hg (c := .addEdge u v w) (d := .removeEdge u v) rfl rfl ⟨hu, hv⟩ ⟨hu, hv⟩
      rfl rfl hback.symm
  · have hback : g.findEdgeWeight u v = none := by simpa [hasEdge_eq] using hnone
    have hkey : g.kind.key u v = g.kind.key v u := by rw [hkind, GraphKind.key_swap]
    exact perform_perform_of_findEdgeWeight hg (c := .addEdge u v w) (d := .removeEdge v u) rfl rfl ⟨hu, hv⟩ ⟨hv, hu⟩
      hkey rfl hback.symm
  · intro c d e f x hc hd hkey hx hwrites hback
    have he : e.InRange n := lt_of_findEdgeWeight hx
    exact perform_perform_of_findEdgeWeight hg hc hd he (he.of_key_eq hkey) hkey hwrites (hback.trans hx.symm)
  · intro c d e f hc hd he hf hne
    simp only [perform_of_edit? hc he, perform_of_edit? hd hf]
    obtain ⟨hu, hv⟩ := he
    obtain ⟨hu', hv'⟩ := hf
    have hne : g.kind.key (⟨e.source, hu⟩ : Fin n) (⟨e.target, hv⟩ : Fin n) ≠
        g.kind.key (⟨f.source, hu'⟩ : Fin n) (⟨f.target, hv'⟩ : Fin n) := hne
    obtain ⟨m', hfirst, hlast⟩ := exists_represents_edit_edit hm hne e.weight? f.weight?
    refine ⟨⟨_, _, rfl, ?_, rfl, ?_⟩, ?_, ?_, ?_⟩
    · rw [fst_edit_edit hm hne]
    · rw [fst_edit_edit hm hne.symm]
    · rw [hfirst.edgeCount, hlast.edgeCount]
    · exact hfirst.findEdgeWeight_eq hlast (by simp)
    · intro hapart
      have hsame := edit_comm hm hne (by simpa [Fin.ext_iff] using hapart) e.weight? f.weight?
      exact ⟨hsame, congrArg (·.edges.toList) hsame⟩

/-- An edge is added from one end and removed from the other, a weight is written over and back from different ends,
and edges without a common vertex are added and removed in either order. -/
theorem changes_undo_and_commute_both_ends :
    let g : Graph 4 := ((⟨.undirected, .rows (.empty 4), 0⟩ : Graph 4).addEdge 0 1 1.5).2.addEdge 0 2 2.5 |>.2
    g.hasEdge 3 0 = false ∧ ((g.addEdge 3 0 4.5).2.removeEdge 0 3).2 = g ∧
      g.findEdgeWeight 0 1 = some 1.5 ∧
      ((g.perform (.addEdgeUnweighted 0 1)).2.perform (.setEdgeWeight 1 0 1.5)).2 = g ∧
      ((g.perform (.addEdge 1 3 0.5)).2.perform (.removeEdge 2 0)).2 =
        ((g.perform (.removeEdge 2 0)).2.perform (.addEdge 1 3 0.5)).2 := by
  intro g
  have hnew : (create 4 .undirected .adjacencyList).result = .ok ⟨.undirected, .rows (.empty 4), 0⟩ := rfl
  have hg : g.Reachable := ((Reachable.create hnew).addEdge 0 1 1.5).addEdge 0 2 2.5
  have hnone : g.hasEdge 3 0 = false := by decide
  have hweight : g.findEdgeWeight 0 1 = some 1.5 := by decide
  obtain ⟨hadd, hwrite, hexchange⟩ := changes_undo_and_commute hg
  refine ⟨hnone, (hadd 3 0 4.5 (by decide) (by decide) hnone).2 rfl, hweight, ?_, ?_⟩
  · exact hwrite (.addEdgeUnweighted 0 1) (.setEdgeWeight 1 0 1.5) _ _ _ rfl rfl rfl hweight rfl rfl
  · have hapart := hexchange (.addEdge 1 3 0.5) (.removeEdge 2 0) ⟨1, 3, some 0.5⟩ ⟨2, 0, none⟩ rfl rfl
      ⟨by decide, by decide⟩ ⟨by decide, by decide⟩ (by decide)
    exact (hapart.2.2.2 (.inr ⟨by decide, by decide, by decide, by decide⟩)).1

end Graph

end WeightedGraph
