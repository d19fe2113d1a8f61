import WeightedGraph.Proofs.Graph.Neighbors

/-!
# The history behind the order

In lists the neighbours of a vertex stand in the order in which their edges have come to be.  A change either takes
neighbours out or puts one at the end (`targets_perform_cases`), so by induction on the run the edge of an earlier
neighbour was made for the last time before that of a later one (`inOrder`).  A weight that is written again, from
either end, moves nothing, and a removal leaves the other neighbours in their order (`KeepsOrder`).  Together that
describes the enumeration over all runs (`performAll_enumerates`).
-/

namespace WeightedGraph

/-- In a list along which a number grows, items come in the order of their numbers. -/
theorem idxOf_lt_iff_of_pairwise {α : Type} [DecidableEq α] {f : α → Nat} {l : List α}
    (h : l.Pairwise fun a b => f a < f b) {a b : α} (ha : a ∈ l) (hb : b ∈ l) :
    l.idxOf a < l.idxOf b ↔ f a < f b := by
  have hlt {a b : α} (ha : a ∈ l) (hb : b ∈ l) (hab : l.idxOf a < l.idxOf b) : f a < f b := by
    have hgrows := List.pairwise_iff_getElem.1 h _ _ (List.idxOf_lt_length_of_mem ha) (List.idxOf_lt_length_of_mem hb)
      hab
    rwa [List.getElem_idxOf, List.getElem_idxOf] at hgrows
  refine ⟨hlt ha hb, fun hab => ?_⟩
  rcases Nat.lt_trichotomy (l.idxOf a) (l.idxOf b) with hidx | hidx | hidx
  · exact hidx
  · rw [(List.idxOf_inj ha).1 hidx] at hab
    omega
  · have := hlt hb ha hidx
    omega

namespace Graph

variable {n : Nat} {g : Graph n}

/-! ### What one change does to a row -/

theorem perform_of_not_inRange {c : Change} {e : Edit} (h : c.edit? = some e) (he : ¬e.InRange n) :
    (g.perform c).2 = g := by
  have hcheck : ∃ problem, checkEnds n e.source e.target = .error problem := by
    by_cases hu : n ≤ e.source
    · exact ⟨_, checkEnds_of_source_le hu⟩
    · have hu := Nat.not_le.1 hu
      exact ⟨_, checkEnds_of_target_le hu (Nat.not_lt.1 fun hv => he ⟨hu, hv⟩)⟩
  obtain ⟨problem, hcheck⟩ := hcheck
  cases c with
  | clear => contradiction
  | removeEdge u v =>
    cases h
    simp only [perform, removeEdge, hcheck]
    rfl
  | addEdge u v w =>
    cases h
    simp only [perform, addEdge, hcheck]
    rfl
  | setEdgeWeight u v w =>
    cases h
    simp only [perform, setEdgeWeight, addEdge, hcheck]
    rfl
  | addEdgeUnweighted u v =>
    cases h
    simp only [perform, addEdgeUnweighted, addEdge, hcheck]
    rfl

/-- In lists a change of a single edge puts a new neighbour at the end of a row, takes an old one out, and moves nothing
else. -/
theorem targets_perform (hg : g.representation = .adjacencyList) {c : Change} {e : Edit} (h : c.edit? = some e)
    (he : e.InRange n) (y : Fin n) :
    (g.perform c).2.targets y =
      match g.kind.otherEnd? e.source e.target y.val with
      | some t => editTargets (g.targets y) t e.weight?
      | none => g.targets y := by
  rw [perform_of_edit? h he]
  exact targets_edit hg ⟨e.source, he.1⟩ ⟨e.target, he.2⟩ e.weight? y

theorem targets_clear (g : Graph n) (y : Fin n) : g.clear.2.targets y = [] :=
  targets_eq_nil fun t => g.adjacency.weight?_clear y t

/-- In lists a change takes neighbours of a vertex out, or puts one at their end. -/
theorem targets_perform_cases (hg : g.representation = .adjacencyList) (c : Change) (y : Fin n) :
    ((g.perform c).2.targets y).Sublist (g.targets y) ∨
      ∃ t, t ∉ g.targets y ∧ (g.perform c).2.targets y = g.targets y ++ [t] := by
  cases hc : c.edit? with
  | none =>
    obtain rfl : c = .clear := by cases c <;> simp_all [Change.edit?]
    refine .inl ?_
    show (g.clear.2.targets y).Sublist (g.targets y)
    rw [targets_clear]
    exact List.nil_sublist _
  | some e =>
    by_cases he : e.InRange n
    · rw [targets_perform hg hc he]
      cases g.kind.otherEnd? e.source e.target y.val with
      | none => exact .inl (List.Sublist.refl _)
      | some t =>
        cases e.weight? with
        | none => exact .inl List.erase_sublist
        | some w =>
          by_cases ht : t ∈ g.targets y
          · exact .inl (by simp [editTargets, addLast, ht])
          · exact .inr ⟨t, ht, by simp [editTargets, addLast, ht]⟩
    · rw [perform_of_not_inRange hc he]
      exact .inl (List.Sublist.refl _)

/-- In lists, writing an edge that is there moves no neighbour. -/
theorem targets_overwrite {m : EdgeMap} (hm : Represents g m) (hg : g.representation = .adjacencyList) {c : Change}
    {e : Edit} (h : c.edit? = some e) (hwrites : e.weight?.isSome) (hedge : g.hasEdge e.source e.target = true)
    (y : Fin n) : (g.perform c).2.targets y = g.targets y := by
  rw [targets_perform hg h (lt_of_hasEdge hedge)]
  cases hend : g.kind.otherEnd? e.source e.target y.val with
  | none => rfl
  | some t =>
    obtain ⟨w, hw⟩ := Option.isSome_iff_exists.1 hwrites
    have ht : t ∈ g.targets y := by
      rw [mem_targets_iff, ← hm.hasEdge_of_key_eq (GraphKind.otherEnd?_eq_some_iff.1 hend)]
      exact hedge
    simp [hw, editTargets, addLast, ht]

/-- In lists, writing an edge that is missing puts a neighbour at the end. -/
theorem targets_write (hg : g.representation = .adjacencyList) {c : Change}
    {e : Edit} (h : c.edit? = some e) (hwrites : e.weight?.isSome) {y t : Fin n}
    (hkey : e.key g.kind = g.kind.key y t) (hnone : g.hasEdge y t = false) :
    (g.perform c).2.targets y = g.targets y ++ [t.val] := by
  obtain ⟨w, hw⟩ := Option.isSome_iff_exists.1 hwrites
  have he : e.InRange n := Edit.InRange.of_key_eq (e := ⟨y, t, none⟩) ⟨y.isLt, t.isLt⟩ hkey.symm
  have ht : t.val ∉ g.targets y := by
    rw [mem_targets_iff, hnone]
    exact Bool.false_ne_true
  rw [targets_perform hg h he, GraphKind.otherEnd?_eq_some_iff.2 hkey]
  simp [hw, editTargets, addLast, ht]

private theorem filter_key_ne (kind : GraphKind) {l : List Nat} (h : l.Nodup) (y t : Nat) :
    l.filter (fun t' => kind.key y t' ≠ kind.key y t) = l.erase t := by
  rw [h.erase_eq_filter]
  refine List.filter_congr fun t' _ => ?_
  have hsame : kind.key y t' = kind.key y t ↔ t' = t := by
    rw [← GraphKind.otherEnd?_eq_some_iff]
    simp [GraphKind.otherEnd?]
  exact Bool.eq_iff_iff.2 (by simp [hsame])

/-- In lists, removing an edge takes its other end out, and leaves the other neighbours in their order. -/
theorem targets_remove (hdistinct : g.adjacency.Distinct) (hg : g.representation = .adjacencyList) {c : Change}
    {e : Edit} (h : c.edit? = some e) (hremoves : e.weight? = none) (y : Fin n) :
    (g.perform c).2.targets y = (g.targets y).filter fun t => g.kind.key y t ≠ e.key g.kind := by
  by_cases he : e.InRange n
  · rw [targets_perform hg h he]
    cases hend : g.kind.otherEnd? e.source e.target y.val with
    | none =>
      symm
      rw [List.filter_eq_self]
      intro t _
      exact decide_eq_true fun hkey => GraphKind.otherEnd?_eq_none_iff.1 hend t hkey.symm
    | some t =>
      rw [hremoves]
      rw [Edit.key, GraphKind.otherEnd?_eq_some_iff.1 hend, filter_key_ne g.kind (nodup_targets hdistinct y)]
      rfl
  · rw [perform_of_not_inRange h he]
    symm
    rw [List.filter_eq_self]
    intro t ht
    refine decide_eq_true fun hkey => he ?_
    exact Edit.InRange.of_key_eq (e := ⟨y, t, none⟩) (lt_of_hasEdge (mem_targets_iff.1 ht)) hkey

/-- In lists, a neighbour whose edge is removed and written again goes to the end. -/
theorem targets_remove_write {m : EdgeMap} (hm : Represents g m) (hg : g.representation = .adjacencyList)
    {c d : Change} {e f : Edit} (hc : c.edit? = some e) (hremoves : e.weight? = none) (hd : d.edit? = some f)
    (hwrites : f.weight?.isSome) {y t : Fin n} (hkey : e.key g.kind = g.kind.key y t)
    (hkey' : f.key g.kind = g.kind.key y t) :
    ((g.perform c).2.perform d).2.targets y = (g.targets y).erase t ++ [t.val] := by
  obtain ⟨-, hmid, hkind⟩ := hm.perform c
  have hrow : (g.perform c).2.targets y = (g.targets y).erase t := by
    rw [targets_remove hm.distinct hg hc hremoves, hkey, filter_key_ne g.kind (nodup_targets hm.distinct y)]
  have hgone : (g.perform c).2.hasEdge y t = false := by
    have hnot : t.val ∉ (g.perform c).2.targets y := by
      rw [hrow]
      exact (nodup_targets hm.distinct y).not_mem_erase
    simpa using mt mem_targets_iff.2 hnot
  rw [targets_write (g := (g.perform c).2) (by simpa using hg) hd hwrites (by rw [hkind]; exact hkey') hgone, hrow]

/-- In lists a neighbour stays where it is until its edge is removed, whatever becomes of its weight and of the other
neighbours, and then goes to the end when the edge is written again. -/
structure KeepsOrder (g : Graph n) (y : Fin n) : Prop where
  overwrite : ∀ {c : Change} {e : Edit}, c.edit? = some e → e.weight?.isSome → g.hasEdge e.source e.target = true →
    (g.perform c).2.targets y = g.targets y
  remove : ∀ {c : Change} {e : Edit}, c.edit? = some e → e.weight? = none →
    (g.perform c).2.targets y = (g.targets y).filter fun t => g.kind.key y t ≠ e.key g.kind
  remove_write : ∀ {c d : Change} {e f : Edit} {t : Fin n}, c.edit? = some e → e.weight? = none → d.edit? = some f →
    f.weight?.isSome → e.key g.kind = g.kind.key y t → f.key g.kind = g.kind.key y t →
    ((g.perform c).2.perform d).2.targets y = (g.targets y).erase t ++ [t.val]

theorem Represents.keepsOrder {m : EdgeMap} (hm : Represents g m) (hg : g.representation = .adjacencyList)
    (y : Fin n) : g.KeepsOrder y where
  overwrite hc hwrites hedge := targets_overwrite hm hg hc hwrites hedge y
  remove hc hremoves := targets_remove hm.distinct hg hc hremoves y
  remove_write hc hremoves hd hwrites hkey hkey' := targets_remove_write hm hg hc hremoves hd hwrites hkey hkey'

/-! ### Which change has made an edge -/

/-- The graph after the first `i` changes. -/
def after (g : Graph n) (changes : List Change) (i : Nat) : Graph n := (g.performAll (changes.take i)).2

/-- There is no edge from `v` to `t` before the change number `i`, but there is one after it. -/
def Makes (g : Graph n) (changes : List Change) (v t i : Nat) : Prop :=
  (g.after changes i).hasEdge v t = false ∧ (g.after changes (i + 1)).hasEdge v t = true

/-- Change number `i` is the last one that makes the edge from `v` to `t`. -/
def LastMakes (g : Graph n) (changes : List Change) (v t i : Nat) : Prop :=
  IsGreatest {i | g.Makes changes v t i} i

variable {changes : List Change} {c : Change} {v t i : Nat}

theorem after_of_length_le (h : changes.length ≤ i) : g.after changes i = (g.performAll changes).2 := by
  rw [after, List.take_of_length_le h]

theorem after_concat_of_le (h : i ≤ changes.length) : g.after (changes ++ [c]) i = g.after changes i := by
  rw [after, List.take_append_of_le_length h, after]

theorem Makes.lt (h : g.Makes changes v t i) : i < changes.length := by
  by_contra hle
  obtain ⟨hbefore, hafter⟩ := h
  rw [after_of_length_le (by omega)] at hbefore hafter
  rw [hbefore] at hafter
  contradiction

theorem makes_concat_iff_of_lt (h : i < changes.length) :
    g.Makes (changes ++ [c]) v t i ↔ g.Makes changes v t i := by
  rw [Makes, Makes, after_concat_of_le (Nat.le_of_lt h), after_concat_of_le h]

theorem makes_concat_length_iff : g.Makes (changes ++ [c]) v t changes.length ↔
    (g.performAll changes).2.hasEdge v t = false ∧ ((g.performAll changes).2.perform c).2.hasEdge v t = true := by
  rw [Makes, after_concat_of_le (Nat.le_refl _), after_of_length_le (Nat.le_refl _),
    after_of_length_le (by rw [List.length_append, List.length_singleton]), performAll_concat]

/-- An edge that is there already is not made by another change. -/
theorem lastMakes_concat_iff (h : (g.performAll changes).2.hasEdge v t = true) :
    g.LastMakes (changes ++ [c]) v t i ↔ g.LastMakes changes v t i := by
  have hsame : {i | g.Makes (changes ++ [c]) v t i} = {i | g.Makes changes v t i} := by
    ext j
    constructor
    · intro hj
      have hlt := Makes.lt hj
      rw [List.length_append, List.length_singleton] at hlt
      rcases Nat.lt_or_eq_of_le (Nat.lt_succ_iff.1 hlt) with hlt | rfl
      · exact (makes_concat_iff_of_lt hlt).1 hj
      · rw [(makes_concat_length_iff.1 hj).1] at h
        contradiction
    · intro hj
      exact (makes_concat_iff_of_lt hj.lt).2 hj
  rw [LastMakes, LastMakes, hsame]

theorem lastMakes_concat_length (h : (g.performAll changes).2.hasEdge v t = false)
    (hnew : ((g.performAll changes).2.perform c).2.hasEdge v t = true) :
    g.LastMakes (changes ++ [c]) v t changes.length := by
  refine ⟨makes_concat_length_iff.2 ⟨h, hnew⟩, fun j hj => ?_⟩
  have hlt := Makes.lt hj
  rw [List.length_append, List.length_singleton] at hlt
  exact Nat.lt_succ_iff.1 hlt

/-! ### Runs -/

/-- Some change has made the edge to each neighbour of a vertex, and the one to an earlier neighbour was made for the
last time before the one to a later neighbour. -/
structure InOrder (g : Graph n) (changes : List Change) (y : Fin n) : Prop where
  made : ∀ t ∈ (g.performAll changes).2.targets y, ∃ i, g.LastMakes changes y t i
  pairwise : ((g.performAll changes).2.targets y).Pairwise fun a b =>
    ∀ i j, g.LastMakes changes y a i → g.LastMakes changes y b j → i < j

theorem InOrder.concat (hg : g.representation = .adjacencyList) {y : Fin n} (h : g.InOrder changes y) (c : Change) :
    g.InOrder (changes ++ [c]) y := by
  have hold {t i : Nat} (ht : t ∈ (g.performAll changes).2.targets y) :
      g.LastMakes (changes ++ [c]) y t i ↔ g.LastMakes changes y t i :=
    lastMakes_concat_iff (mem_targets_iff.1 ht)
  have hpairs : ((g.performAll changes).2.targets y).Pairwise fun a b =>
      ∀ i j, g.LastMakes (changes ++ [c]) y a i → g.LastMakes (changes ++ [c]) y b j → i < j := by
    refine h.pairwise.imp_of_mem fun ha hb hab i j hi hj => ?_
    exact hab i j ((hold ha).1 hi) ((hold hb).1 hj)
  rcases targets_perform_cases (g := (g.performAll changes).2) (by simpa using hg) c y with hsub | ⟨t, ht, happend⟩
  · constructor
    case made =>
      intro t ht
      rw [performAll_concat] at ht
      obtain ⟨i, hi⟩ := h.made t (hsub.subset ht)
      exact ⟨i, (hold (hsub.subset ht)).2 hi⟩
    case pairwise =>
      rw [performAll_concat]
      exact hpairs.sublist hsub
  · have hmem : t ∈ ((g.performAll changes).2.perform c).2.targets y := by
      rw [happend]
      exact List.mem_append_right _ List.mem_cons_self
    have hbefore : (g.performAll changes).2.hasEdge y t = false := by
      simpa using mt mem_targets_iff.2 ht
    have hlast : g.LastMakes (changes ++ [c]) y t changes.length :=
      lastMakes_concat_length hbefore (mem_targets_iff.1 hmem)
    constructor
    case made =>
      intro a ha
      rw [performAll_concat, happend, List.mem_append, List.mem_singleton] at ha
      rcases ha with ha | rfl
      · obtain ⟨i, hi⟩ := h.made a ha
        exact ⟨i, (hold ha).2 hi⟩
      · exact ⟨_, hlast⟩
    case pairwise =>
      rw [performAll_concat, happend, List.pairwise_append]
      refine ⟨hpairs, List.pairwise_singleton _ _, fun a ha b hb i j hi hj => ?_⟩
      rw [List.mem_singleton] at hb
      subst hb
      -- the new edge is made by the change at the end, and all others were there before it
      rw [hj.unique hlast]
      exact ((hold ha).1 hi).1.lt

theorem inOrder {kind : GraphKind} (hg : (create n kind .adjacencyList).result = .ok g) (changes : List Change)
    (y : Fin n) : g.InOrder changes y := by
  have hlist := (shape_of_create hg).2
  induction changes using List.reverseRecOn with
  | nil =>
    have hnone : (g.performAll []).2.targets y = [] := targets_of_create hg y
    constructor
    · simp [hnone]
    · simp [hnone]
  | append_singleton changes c ih => exact ih.concat hlist c

/-- The order of the neighbours is the order in which their edges were made for the last time. -/
theorem InOrder.idxOf_lt_iff {y : Fin n} (h : g.InOrder changes y) {a b i j : Nat}
    (ha : a ∈ (g.performAll changes).2.targets y) (hb : b ∈ (g.performAll changes).2.targets y)
    (hi : g.LastMakes changes y a i) (hj : g.LastMakes changes y b j) :
    ((g.performAll changes).2.targets y).idxOf a < ((g.performAll changes).2.targets y).idxOf b ↔ i < j := by
  have hgrows : ((g.performAll changes).2.targets y).Pairwise fun a b =>
      sSup {i | g.Makes changes y a i} < sSup {i | g.Makes changes y b i} := by
    refine h.pairwise.imp_of_mem fun {a b} ha hb hab => ?_
    obtain ⟨i, hi⟩ := h.made a ha
    obtain ⟨j, hj⟩ := h.made b hb
    rw [hi.csSup_eq, hj.csSup_eq]
    exact hab i j hi hj
  rw [idxOf_lt_iff_of_pairwise hgrows ha hb, hi.csSup_eq, hj.csSup_eq]

/-- Over a run of changes of a new graph, a cursor hands out the edges of a vertex, each once: in a matrix by ascending
targets, in lists as the edges have been made. -/
theorem performAll_enumerates {kind : GraphKind} {r : Representation} (hg : (create n kind r).result = .ok g)
    (changes : List Change) (v : Fin n) :
    let final := (g.performAll changes).2
    (∃ edges, final.neighborList v = .ok edges ∧ edges.map Edge.target = final.targets v ∧
      ∀ e, e ∈ edges ↔ e.source = v ∧ final.findEdgeWeight v e.target = some e.weight) ∧
    (final.targets v).Nodup ∧
    (∀ t, t ∈ final.targets v ↔ final.hasEdge v t = true) ∧
    (r = .adjacencyMatrix → (final.targets v).Pairwise (· < ·)) ∧
    (r = .adjacencyList →
      (∀ t, final.hasEdge v t = true → ∃ i, g.LastMakes changes v t i) ∧
      (∀ a b i j, final.hasEdge v a = true → final.hasEdge v b = true → g.LastMakes changes v a i →
        g.LastMakes changes v b j → ((final.targets v).idxOf a < (final.targets v).idxOf b ↔ i < j)) ∧
      final.KeepsOrder v) := by
  intro final
  have hm := ((represents_empty hg).performAll changes).2.1
  have hrepresentation : final.representation = r :=
    (representation_performAll g changes).trans (shape_of_create hg).2
  refine ⟨⟨_, final.neighborList_val v, map_target_outEdges .., fun e => mem_outEdges_iff hm.distinct⟩,
    nodup_targets hm.distinct v, fun t => mem_targets_iff, ?_, ?_⟩
  · rintro rfl
    exact pairwise_targets hrepresentation v
  · rintro rfl
    have horder := inOrder hg changes v
    refine ⟨fun t ht => horder.made t (mem_targets_iff.2 ht), fun a b i j ha hb hi hj => ?_,
      hm.keepsOrder hrepresentation v⟩
    exact horder.idxOf_lt_iff (mem_targets_iff.2 ha) (mem_targets_iff.2 hb) hi hj

/-- A weight that is written from the other end moves nothing, and an edge that is removed and added goes to the end. -/
theorem performAll_enumerates_from_both_ends :
    let g : Graph 3 := ⟨.undirected, .rows (.empty 3), 0⟩
    let changes := [.addEdge 0 1 1.5, .addEdge 0 2 2.5, .setEdgeWeight 2 0 0.5, .setEdgeWeight 1 0 4.5,
      .removeEdge 1 0, .addEdgeUnweighted 1 0]
    (create 3 .undirected .adjacencyList).result = .ok g ∧ (g.performAll changes).2.targets 0 = [2, 1] ∧
      ∃ i j, g.LastMakes changes 0 2 i ∧ g.LastMakes changes 0 1 j ∧ i < j := by
  intro g changes
  have hg : (create 3 .undirected .adjacencyList).result = .ok g := rfl
  have htargets : (g.performAll changes).2.targets 0 = [2, 1] := by decide
  obtain ⟨-, -, hmem, -, hlist⟩ := performAll_enumerates hg changes 0
  obtain ⟨hmade, horder, -⟩ := hlist rfl
  have htwo := (hmem 2).1 (by rw [htargets]; decide)
  have hone := (hmem 1).1 (by rw [htargets]; decide)
  obtain ⟨i, hi⟩ := hmade 2 htwo
  obtain ⟨j, hj⟩ := hmade 1 hone
  refine ⟨hg, htargets, i, j, hi, hj, (horder 2 1 i j htwo hone hi hj).1 ?_⟩
  rw [htargets]
  decide

end Graph

end WeightedGraph
