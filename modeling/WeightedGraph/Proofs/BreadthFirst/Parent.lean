import WeightedGraph.Proofs.BreadthFirst.Order

/-!
# Where breadth-first search finds a vertex

A vertex is found from the first visited vertex that leads to it, at its place among the successors of that one
(`foundAt`).  Later vertices are found from later places (`State.Places`), and there is only one order of the vertices
within reach in which that is so (`Places.unique`): the order of a search is fixed by the order of the successors.
-/

namespace WeightedGraph.BreadthFirst

section

variable {α : Type} [DecidableEq α] {successors : α → List α}

/-- The first vertex of an order that leads to `v`. -/
def parent? (successors : α → List α) (order : List α) (v : α) : Option α :=
  order.find? fun u => v ∈ successors u

/-- The place from which `v` is found: that of its parent in the order, and that of `v` among the successors of its
parent. -/
def foundAt (successors : α → List α) (order : List α) (v : α) : Option (Nat × Nat) :=
  (parent? successors order v).map fun p => (order.idxOf p, (successors p).idxOf v)

/-- The place of `v` comes before that of `w`. -/
def FoundBefore (successors : α → List α) (order : List α) (v w : α) : Prop :=
  ∃ a b, foundAt successors order v = some a ∧ foundAt successors order w = some b ∧ Prod.Lex (· < ·) (· < ·) a b

variable {order : List α} {v w : α} {a : Nat × Nat}

theorem fst_lt_of_foundAt (h : foundAt successors order v = some a) : a.1 < order.length := by
  obtain ⟨p, hp, rfl⟩ := Option.map_eq_some_iff.1 h
  exact List.idxOf_lt_length_of_mem (List.mem_of_find?_eq_some hp)

theorem foundAt_append (h : foundAt successors order v = some a) (more : List α) :
    foundAt successors (order ++ more) v = some a := by
  obtain ⟨p, hp, rfl⟩ := Option.map_eq_some_iff.1 h
  have hmem : p ∈ order := List.mem_of_find?_eq_some hp
  unfold foundAt
  rw [parent?, List.find?_append, ← parent?, hp, Option.some_or, Option.map_some, List.idxOf_append_of_mem hmem]

theorem FoundBefore.append (h : FoundBefore successors order v w) (more : List α) :
    FoundBefore successors (order ++ more) v w := by
  obtain ⟨a, b, ha, hb, hab⟩ := h
  exact ⟨a, b, foundAt_append ha more, foundAt_append hb more, hab⟩

/-- Where a vertex is found does not depend on what comes after its parent. -/
theorem foundAt_of_append {more : List α} (h : foundAt successors (order ++ more) v = some a)
    (hlt : a.1 < order.length) : foundAt successors order v = some a := by
  obtain ⟨p, hp, rfl⟩ := Option.map_eq_some_iff.1 h
  have hmem : p ∈ order := by
    by_contra hp'
    rw [List.idxOf_append_of_notMem hp'] at hlt
    omega
  have hsome : (parent? successors order v).isSome := by
    rw [parent?, List.find?_isSome]
    exact ⟨p, hmem, List.find?_some (p := fun u => decide (v ∈ successors u)) hp⟩
  obtain ⟨q, hq⟩ := Option.isSome_iff_exists.1 hsome
  have hplace : foundAt successors order v = some (order.idxOf q, (successors q).idxOf v) := by
    rw [foundAt, hq, Option.map_some]
  rw [hplace, ← foundAt_append hplace more, h]

/-- A vertex that nothing in an order leads to is found from what comes next if that leads to it. -/
theorem foundAt_concat {u : α} (hnone : ∀ x ∈ order, v ∉ successors x) (hu : u ∉ order) (hv : v ∈ successors u) :
    foundAt successors (order ++ [u]) v = some (order.length, (successors u).idxOf v) := by
  have hparent : parent? successors order v = none := by
    rw [parent?, List.find?_eq_none]
    simpa using hnone
  unfold foundAt
  rw [parent?, List.find?_append, ← parent?, hparent, Option.none_or, List.find?_cons_of_pos (by simpa using hv),
    Option.map_some, List.idxOf_append_of_notMem hu, List.idxOf_cons_self, Nat.add_zero]

/-- In an order without repetitions that begins with the start, every other vertex comes after its parent, and later
vertices are found from later places. -/
structure Places (successors : α → List α) (start : α) (order : List α) : Prop where
  nodup : order.Nodup
  head?_eq : order.head? = some start
  parent : ∀ v ∈ order, v ≠ start → ∃ a, foundAt successors order v = some a ∧ a.1 < order.idxOf v
  grows : order.tail.Pairwise (FoundBefore successors order)

namespace Places

variable {start : α} {front rest : List α}

private theorem ne_nil_of_concat (h : Places successors start (front ++ v :: rest)) (hv : v ≠ start) : front ≠ [] := by
  rintro rfl
  exact hv (Option.some.inj h.head?_eq)

/-- What comes before a vertex tells where it is found. -/
private theorem foundAt_front (h : Places successors start (front ++ v :: rest)) (hv : v ≠ start) :
    ∃ a, foundAt successors front v = some a := by
  obtain ⟨a, ha, hlt⟩ := h.parent v (List.mem_append_right _ List.mem_cons_self) hv
  have hnot : v ∉ front := fun hmem => (List.nodup_append'.1 h.nodup).2.2 hmem List.mem_cons_self
  rw [List.idxOf_append_of_notMem hnot, List.idxOf_cons_self, Nat.add_zero] at hlt
  exact ⟨a, foundAt_of_append ha hlt⟩

private theorem foundBefore (h : Places successors start (front ++ v :: rest)) (hv : v ≠ start) (hw : w ∈ rest) :
    FoundBefore successors (front ++ v :: rest) v w := by
  have hgrows := h.grows
  rw [List.tail_append_of_ne_nil (h.ne_nil_of_concat hv), List.pairwise_append, List.pairwise_cons] at hgrows
  exact hgrows.2.1.1 w hw

/-- Of the vertices that can come next, only one is found from the first place. -/
private theorem next_unique {rest' : List α} (h : Places successors start (front ++ v :: rest))
    (h' : Places successors start (front ++ w :: rest')) (hv : v ≠ start) (hw : w ≠ start) (hvw : w ∈ rest) :
    v ∉ rest' := by
  intro hwv
  obtain ⟨a, ha⟩ := h.foundAt_front hv
  obtain ⟨b, hb⟩ := h'.foundAt_front hw
  obtain ⟨a₁, b₁, ha₁, hb₁, hlt⟩ := h.foundBefore hv hvw
  obtain ⟨b₂, a₂, hb₂, ha₂, hlt'⟩ := h'.foundBefore hw hwv
  rw [foundAt_append ha, Option.some.injEq] at ha₁ ha₂
  rw [foundAt_append hb, Option.some.injEq] at hb₁ hb₂
  subst ha₁ ha₂ hb₁ hb₂
  rw [Prod.lex_def] at hlt hlt'
  omega

private theorem eq_of_front (front : List α) {rest' : List α} (h : Places successors start (front ++ rest))
    (h' : Places successors start (front ++ rest')) (hstart : start ∈ front) (hperm : rest.Perm rest') :
    rest = rest' := by
  induction rest generalizing front rest' with
  | nil => exact hperm.nil_eq
  | cons v rest ih =>
    cases rest' with
    | nil => exact absurd hperm.symm.nil_eq (by simp)
    | cons w rest' =>
      have hv : v ≠ start := fun hv => (List.nodup_append'.1 h.nodup).2.2 hstart (hv ▸ List.mem_cons_self)
      have hw : w ≠ start := fun hw => (List.nodup_append'.1 h'.nodup).2.2 hstart (hw ▸ List.mem_cons_self)
      by_cases hvw : v = w
      · subst hvw
        rw [List.append_cons] at h h'
        rw [ih _ h h' (List.mem_append_left _ hstart) hperm.cons_inv]
      · have hwmem : w ∈ rest :=
          (List.mem_cons.1 (hperm.mem_iff.2 List.mem_cons_self)).resolve_left (Ne.symm hvw)
        have hvmem : v ∈ rest' := (List.mem_cons.1 (hperm.mem_iff.1 List.mem_cons_self)).resolve_left hvw
        exact absurd hvmem (h.next_unique h' hv hw hwmem)

/-- There is only one order of given vertices in which later vertices are found from later places. -/
theorem unique {order' : List α} (h : Places successors start order) (h' : Places successors start order')
    (hsame : ∀ v, v ∈ order ↔ v ∈ order') : order = order' := by
  have hperm := (List.perm_ext_iff_of_nodup h.nodup h'.nodup).2 hsame
  obtain ⟨rest, rfl⟩ := List.head?_eq_some_iff.1 h.head?_eq
  obtain ⟨rest', rfl⟩ := List.head?_eq_some_iff.1 h'.head?_eq
  rw [eq_of_front [start] h h' List.mem_cons_self hperm.cons_inv]

end Places

end

variable {n : Nat} {successors : Fin n → List (Fin n)} {start : Fin n}

namespace State

/-- The vertices that are found by a visit come in the order of the successors. -/
theorem pairwise_fresh {β : Type} (s : State n β) (vs : List (Fin n)) :
    (s.fresh vs).Pairwise fun v w => vs.idxOf v < vs.idxOf w := by
  induction vs generalizing s with
  | nil => simp [fresh]
  | cons u vs ih =>
    have hlater {t : State n β} (hu : t.seen.contains u = true) :
        (t.fresh vs).Pairwise fun v w => (u :: vs).idxOf v < (u :: vs).idxOf w := by
      refine (ih t).imp_of_mem fun {v w} hv hw hlt => ?_
      have hne {x : Fin n} (hx : x ∈ t.fresh vs) : u ≠ x := by
        rintro rfl
        rw [(mem_fresh.1 hx).2] at hu
        contradiction
      rw [List.idxOf_cons_ne _ (hne hv), List.idxOf_cons_ne _ (hne hw)]
      exact Nat.succ_lt_succ hlt
    cases hu : s.seen.contains u with
    | true =>
      rw [fresh_cons_of_seen hu]
      exact hlater hu
    | false =>
      have hawait : (s.await u).seen.contains u = true := by simp [await, VertexSet.contains_insert]
      rw [fresh_cons_of_unseen hu, List.pairwise_cons]
      refine ⟨fun v hv => ?_, hlater hawait⟩
      have hne : u ≠ v := by
        rintro rfl
        rw [(mem_fresh.1 hv).2] at hawait
        contradiction
      rw [List.idxOf_cons_self, List.idxOf_cons_ne _ hne]
      exact Nat.succ_pos _

/-- What has been found has been found from what has been visited, later vertices from later places. -/
structure Places (successors : Fin n → List (Fin n)) (start : Fin n) (s : State n (List (Fin n))) : Prop where
  parent : ∀ v ∈ s.found, v ≠ start → ∃ a, foundAt successors s.value v = some a ∧ a.1 < s.found.idxOf v
  grows : s.found.tail.Pairwise (FoundBefore successors s.value)

theorem places_initial (successors : Fin n → List (Fin n)) (start : Fin n) :
    (initial start []).Places successors start where
  parent v hv hne := absurd (by simpa [initial, found] using hv) hne
  grows := by simp [initial, found]

theorem Places.step {s : State n (List (Fin n))} (hfinds : s.Finds successors start)
    (h : s.Places successors start) (hdone : s.isDone = false) :
    (s.step successors fun visited v => visited ++ [v]).Places successors start := by
  obtain ⟨u, rest, hqueue, hvalue, -, -, hfound, -⟩ := found_step successors hdone
  have hu : u ∉ s.value := by
    have hnodup := hfinds.nodup
    rw [found, hqueue, List.nodup_append'] at hnodup
    exact fun hu => hnodup.2.2 hu List.mem_cons_self
  -- nothing that was visited before leads to a fresh successor, or it would have been found then
  have hfresh {v : Fin n} (hv : v ∈ s.fresh (successors u)) : v ∉ s.found ∧
      foundAt successors (s.value ++ [u]) v = some (s.value.length, (successors u).idxOf v) := by
    rw [mem_fresh, ← Bool.not_eq_true, hfinds.seen_iff] at hv
    exact ⟨hv.2, foundAt_concat (fun x hx hvx => hv.2 (hfinds.closed x hx v hvx)) hu hv.1⟩
  have hlength : s.value.length < s.found.length := by
    rw [found, hqueue, List.length_append, List.length_cons]
    omega
  have hne : s.found ≠ [] := List.ne_nil_of_mem (mem_found_of_head? hqueue)
  constructor
  case parent =>
    intro v hv hstart
    rw [hfound, List.mem_append] at hv
    rw [hfound, hvalue]
    rcases hv with hv | hv
    · obtain ⟨a, ha, hlt⟩ := h.parent v hv hstart
      exact ⟨a, foundAt_append ha _, by rwa [List.idxOf_append_of_mem hv]⟩
    · obtain ⟨hnew, hat⟩ := hfresh hv
      refine ⟨_, hat, ?_⟩
      rw [List.idxOf_append_of_notMem hnew]
      exact Nat.lt_add_right _ hlength
  case grows =>
    rw [hfound, hvalue, List.tail_append_of_ne_nil hne, List.pairwise_append]
    refine ⟨h.grows.imp fun hvw => hvw.append _, ?_, ?_⟩
    · refine (s.pairwise_fresh (successors u)).imp_of_mem fun {v w} hv hw hlt => ?_
      exact ⟨_, _, (hfresh hv).2, (hfresh hw).2, .right _ hlt⟩
    · intro v hv w hw
      have hstart : v ≠ start := by
        rintro rfl
        obtain ⟨l, hl⟩ := List.head?_eq_some_iff.1 hfinds.head?_eq
        have hnodup := hfinds.nodup
        rw [hl] at hv hnodup
        exact (List.nodup_cons.1 hnodup).1 hv
      obtain ⟨a, ha, -⟩ := h.parent v (List.mem_of_mem_tail hv) hstart
      exact ⟨_, _, foundAt_append ha _, (hfresh hw).2, Prod.lex_def.2 (.inl (fst_lt_of_foundAt ha))⟩

end State

/-- A search finds later vertices from later places. -/
theorem places_order (successors : Fin n → List (Fin n)) (start : Fin n) :
    Places successors start (order successors start) := by
  have hrun : (run successors (fun visited v => visited ++ [v]) start []).Finds successors start ∧
      (run successors (fun visited v => visited ++ [v]) start []).Places successors start := by
    refine repeatUntil_induction
      (P := fun s : State n (List (Fin n)) => s.Finds successors start ∧ s.Places successors start)
      ⟨State.finds_initial successors start, State.places_initial successors start⟩ ?_
    rintro s ⟨hfinds, hplaces⟩ hdone
    exact ⟨hfinds.step hdone, hplaces.step hfinds hdone⟩
  obtain ⟨-, hparent, hgrows⟩ := hrun
  rw [found_run] at hparent hgrows
  exact ⟨nodup_order .., head?_order .., hparent, hgrows⟩

/-- A vertex is one edge further away than the first vertex in the order that leads to it. -/
theorem hop_eq_of_parent? {hop : Fin n → Nat}
    (hsorted : (order successors start).Pairwise fun u v => hop u ≤ hop v)
    (hleast : ∀ v ∈ order successors start, IsLeast {k | Hops successors start k v} (hop v)) {v p : Fin n}
    (hv : v ∈ order successors start) (hne : v ≠ start)
    (hp : parent? successors (order successors start) v = some p) : hop v = hop p + 1 := by
  obtain ⟨hleads, front, rest, horder, hfirst⟩ := List.find?_eq_some_iff_append.1 hp
  have hpmem : p ∈ order successors start := List.mem_of_find?_eq_some hp
  have hle : hop v ≤ hop p + 1 := (hleast v hv).2 (.hop (hleast p hpmem).1 (by simpa using hleads))
  have hge : hop p + 1 ≤ hop v := by
    have hways := (hleast v hv).1
    generalize hop v = k at hways
    cases hways with
    | start => exact absurd rfl hne
    | @hop k u _ hk hu =>
      have humem : u ∈ order successors start := mem_order_iff.2 ⟨k, hk⟩
      -- the vertex before `v` on a shortest way does not come before the first one that leads to `v`
      have hpu : hop p ≤ hop u := by
        rw [horder, List.pairwise_append, List.pairwise_cons] at hsorted
        rw [horder, List.mem_append, List.mem_cons] at humem
        rcases humem with hfront | rfl | hrest
        · simpa [hu] using hfirst u hfront
        · exact Nat.le_refl _
        · exact hsorted.2.1.1 u hrest
      have huk : hop u ≤ k := (hleast u (mem_order_iff.2 ⟨k, hk⟩)).2 hk
      omega
  omega

end WeightedGraph.BreadthFirst
