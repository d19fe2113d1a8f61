import WeightedGraph.Proofs.Search.Work
import WeightedGraph.Proofs.ShortestPaths.Explored

/-!
# The work of a search for shortest paths

Whatever the weights are, a vertex is finalized once, and only then its edges are relaxed, each of which puts at most
one entry into the frontier.  An entry that leaves settles its vertex or is stale.  So the entries that have left and
those that wait are all that have been inserted, and these are no more than the source and the edges from the settled
vertices (`State.Accounted`).  What a search settles is the source and all that has a predecessor
(`length_settled_eq`).
-/

namespace WeightedGraph

namespace PriorityQueue

variable {α : Type} {cmp : α → α → Ordering}

@[simp] theorem nextSerial_insert (q : PriorityQueue α cmp) (a : α) : (q.insert a).nextSerial = q.nextSerial + 1 := rfl

@[simp] theorem nextSerial_extractMin (q : PriorityQueue α cmp) : q.extractMin.2.nextSerial = q.nextSerial := by
  by_cases h : 0 < q.heap.size <;> simp [extractMin, h]

theorem size_of_extractMin {q rest : PriorityQueue α cmp} {a : α} (h : q.extractMin = (some a, rest)) :
    rest.size + 1 = q.size ∧ rest.nextSerial = q.nextSerial := by
  have hlt := size_extractMin_lt (q := q) (by rw [h]; rfl)
  have hsize := q.size_extractMin
  have hserial := q.nextSerial_extractMin
  simp only [h] at hlt hsize hserial
  exact ⟨by omega, hserial⟩

end PriorityQueue

namespace ShortestPaths

variable {n : Nat} {records : Fin n → Row (Fin n)} {source : Fin n}

/-- The states of a search, from the first to the last. -/
def trace (records : Fin n → Row (Fin n)) (source : Fin n) : List (State n) :=
  traceUntil State.isDone (State.step records) State.rank (State.smallerRank_step records) (.initial source)

namespace State

/-- The vertex that the next step settles, unless it passes over a stale entry. -/
def settles? (s : State n) : Option (Fin n) :=
  (s.frontier.extractMin.1.map Tentative.vertex).filter fun u => !s.finalized.contains u

theorem extractMin_of_isDone {s : State n} (h : s.isDone = true) : s.frontier.extractMin.1 = none := by
  have hempty : s.frontier.heap = #[] := by simpa [isDone, PriorityQueue.isEmpty] using h
  simp [PriorityQueue.extractMin_fst, PriorityQueue.peek?, hempty]

theorem settles?_of_isDone {s : State n} (h : s.isDone = true) : s.settles? = none := by
  rw [settles?, extractMin_of_isDone h]
  rfl

/-- Relaxing edges puts at most one entry for each of them into the frontier. -/
theorem foldl_relax_entries (u : Fin n) (s : State n) (rs : Row (Fin n)) :
    (rs.foldl (relax u) s).settled = s.settled ∧ (rs.foldl (relax u) s).stale = s.stale ∧
      ∃ k ≤ rs.length, (rs.foldl (relax u) s).frontier.size = s.frontier.size + k ∧
        (rs.foldl (relax u) s).frontier.nextSerial = s.frontier.nextSerial + k := by
  induction rs generalizing s with
  | nil => exact ⟨rfl, rfl, 0, Nat.le_refl _, rfl, rfl⟩
  | cons r rs ih =>
    rw [List.foldl_cons, List.length_cons]
    obtain ⟨hsettled, hstale, k, hk, hsize, hserial⟩ := ih (s.relax u r)
    rcases s.relax_cases u r with ⟨heq, -⟩ | ⟨heq, -⟩
    · rw [heq] at hsettled hstale hsize hserial ⊢
      exact ⟨hsettled, hstale, k, Nat.le_succ_of_le hk, hsize, hserial⟩
    · rw [heq] at hsettled hstale hsize hserial ⊢
      rw [frontier_shorten, PriorityQueue.size_insert] at hsize
      rw [frontier_shorten, PriorityQueue.nextSerial_insert] at hserial
      exact ⟨hsettled, hstale, k + 1, Nat.succ_le_succ hk, by omega, by omega⟩

/-- What has been settled is final and was settled once.  Every entry that was inserted has left or waits, and belongs
to an edge from a vertex that has been settled, but for that of the source. -/
structure Accounted (records : Fin n → Row (Fin n)) (past : List (State n)) (s : State n) : Prop where
  nodup : (past.filterMap settles?).Nodup
  settled_eq : s.settled = (past.filterMap settles?).length
  finalized_iff : ∀ v, s.finalized.contains v = true ↔ v ∈ past.filterMap settles?
  left_or_waits : s.settled + s.stale + s.frontier.size = s.frontier.nextSerial
  inserted_le : s.frontier.nextSerial ≤ 1 + ∑ u with s.finalized.contains u = true, (records u).length

theorem accounted_initial : (initial source).Accounted records [] where
  nodup := List.nodup_nil
  settled_eq := rfl
  finalized_iff v := by simp
  left_or_waits := by
    show 0 + 0 + (PriorityQueue.empty.insert ⟨source, 0.0⟩ : PriorityQueue _ Tentative.compare).size = 1
    rw [PriorityQueue.size_insert]
    rfl
  inserted_le := Nat.le_add_right ..

section

variable {past : List (State n)} {s : State n} {t : Tentative n}
  {frontier : PriorityQueue (Tentative n) Tentative.compare}

theorem Accounted.pass (h : s.Accounted records past) (hx : s.frontier.extractMin = (some t, frontier))
    (hfinal : s.finalized.contains t.vertex = true) : (s.pass frontier).Accounted records (past ++ [s]) := by
  have hnone : s.settles? = none := by simp [settles?, hx, hfinal]
  have hpast : (past ++ [s]).filterMap settles? = past.filterMap settles? := by
    rw [filterMap_concat, hnone, Option.toList_none, List.append_nil]
  obtain ⟨hsize, hserial⟩ := PriorityQueue.size_of_extractMin hx
  constructor
  case nodup =>
    rw [hpast]
    exact h.nodup
  case settled_eq =>
    rw [hpast]
    exact h.settled_eq
  case finalized_iff =>
    rw [hpast]
    exact h.finalized_iff
  case left_or_waits =>
    have hleft := h.left_or_waits
    show s.settled + (s.stale + 1) + frontier.size = frontier.nextSerial
    omega
  case inserted_le =>
    show frontier.nextSerial ≤ _
    rw [hserial]
    exact h.inserted_le

theorem Accounted.settle (h : s.Accounted records past) (hx : s.frontier.extractMin = (some t, frontier))
    (hopen : s.finalized.contains t.vertex = false) :
    ((records t.vertex).foldl (State.relax t.vertex) (s.settle t.vertex frontier)).Accounted records (past ++ [s]) := by
  have hsome : s.settles? = some t.vertex := by simp [settles?, hx, hopen]
  have hpast : (past ++ [s]).filterMap settles? = past.filterMap settles? ++ [t.vertex] := by
    rw [filterMap_concat, hsome, Option.toList_some]
  obtain ⟨hsize, hserial⟩ := PriorityQueue.size_of_extractMin hx
  obtain ⟨hsettled, hstale, k, hk, hsize', hserial'⟩ :=
    foldl_relax_entries t.vertex (s.settle t.vertex frontier) (records t.vertex)
  rw [frontier_settle] at hsize' hserial'
  rw [settled_settle] at hsettled
  constructor
  case nodup =>
    rw [hpast, ← List.concat_eq_append, List.nodup_concat]
    refine ⟨?_, h.nodup⟩
    rw [← h.finalized_iff, hopen]
    exact Bool.false_ne_true
  case settled_eq =>
    rw [hpast, hsettled, h.settled_eq, List.length_append, List.length_singleton]
  case finalized_iff =>
    intro v
    rw [hpast, finalized_foldl_relax, finalized_settle, VertexSet.contains_insert_iff, h.finalized_iff,
      List.mem_append, List.mem_singleton]
    tauto
  case left_or_waits =>
    have hleft := h.left_or_waits
    have hstale : _ = s.stale := hstale
    omega
  case inserted_le =>
    have hle := h.inserted_le
    rw [finalized_foldl_relax, finalized_settle, sum_contains_insert hopen]
    omega

theorem Accounted.step (h : s.Accounted records past) (hdone : s.isDone = false) :
    (s.step records).Accounted records (past ++ [s]) := by
  obtain ⟨t, frontier, hx, ⟨hfinal, heq⟩ | ⟨hopen, heq⟩⟩ := step_cases records hdone
  · rw [heq]
    exact h.pass hx hfinal
  · rw [heq]
    exact h.settle hx hopen

end

end State

theorem accounted_run (records : Fin n → Row (Fin n)) (source : Fin n) :
    ∃ past, trace records source = past ++ [run records source] ∧ (run records source).Accounted records past :=
  exists_repeatUntil State.accounted_initial fun _ _ hs hdone => hs.step hdone

/-- The vertices that a search settles, in their order. -/
def settled (records : Fin n → Row (Fin n)) (source : Fin n) : List (Fin n) :=
  (trace records source).filterMap State.settles?

/-- No vertex is settled twice, and every entry that was inserted has left. -/
theorem settled_run (records : Fin n → Row (Fin n)) (source : Fin n) :
    (settled records source).Nodup ∧ (run records source).settled = (settled records source).length ∧
      (∀ v, (run records source).finalized.contains v = true ↔ v ∈ settled records source) ∧
      (run records source).settled + (run records source).stale = (run records source).frontier.nextSerial ∧
      (run records source).frontier.nextSerial ≤ 1 + ∑ u with u ∈ settled records source, (records u).length := by
  obtain ⟨past, hpast, h⟩ := accounted_run records source
  have hdone : (run records source).isDone = true := done_repeatUntil _
  have hsettled : settled records source = past.filterMap State.settles? := by
    rw [settled, hpast, filterMap_concat, State.settles?_of_isDone hdone, Option.toList_none, List.append_nil]
  have hempty : (run records source).frontier.size = 0 := by
    simpa [State.isDone, PriorityQueue.isEmpty, PriorityQueue.size] using hdone
  have hleft := h.left_or_waits
  have hle := h.inserted_le
  simp only [h.finalized_iff] at hle
  rw [hsettled]
  exact ⟨h.nodup, h.settled_eq, h.finalized_iff, by omega, hle⟩

/-- What a search settles is the source and all that has a predecessor. -/
theorem length_settled_eq (records : Fin n → Row (Fin n)) (source : Fin n) :
    (settled records source).length =
      1 + (Finset.univ.filter fun v => ((run records source).predecessors.get v).isSome).card := by
  obtain ⟨hnodup, -, hfinal, -⟩ := settled_run records source
  have htree := State.tree_run records source
  have hset : (settled records source).toFinset =
      insert source (Finset.univ.filter fun v => ((run records source).predecessors.get v).isSome) := by
    ext v
    rw [List.mem_toFinset, ← hfinal, Finset.mem_insert, Finset.mem_filter_univ, Option.isSome_iff_exists]
    exact ⟨htree.reached v, State.finalized_of_reached⟩
  have hsource : source ∉ Finset.univ.filter fun v => ((run records source).predecessors.get v).isSome := by
    simp [htree.predecessor_source]
  rw [← List.toFinset_card_of_nodup hnodup, hset, Finset.card_insert_of_notMem hsource, Nat.add_comm]

end ShortestPaths

end WeightedGraph
