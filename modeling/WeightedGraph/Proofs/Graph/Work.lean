import WeightedGraph.Proofs.Plain.Graph
import WeightedGraph.Proofs.ShortestPaths.Work

/-!
# The work of searches in a graph

Every search ends after an amount of work that the edges bound, whatever their weights are, and it reports the number of
vertices that it has settled or visited (`searches_account`).

* (shortest paths) The search ends over plain arrays too, where nothing keeps a loop from going on for ever.  It settles
  no vertex twice, and it settles the source and what has a predecessor.  The entries that settled a vertex and the
  stale ones are all that were inserted, as the serial numbers of the frontier count them, and these are no more than
  the source and the edges from settled vertices.
* (breadth first) Every vertex is put into the queue at most once, and just those are that the search visits.
* (depth first) What leaves the stack is no more than the start and the edges from the vertices within reach.
-/

namespace WeightedGraph.Graph

open Finset

variable {n : Nat}

theorem length_successors (g : Graph n) (u : Fin n) :
    (g.adjacency.successors u).length = (g.adjacency.records u).length := List.length_map _

/-- The edges from some vertices are counted vertex by vertex. -/
theorem countP_source_mem (g : Graph n) (us : List (Fin n)) :
    g.edges.toList.countP (fun e => e.source ∈ us.map Fin.val) = ∑ u with u ∈ us, (g.adjacency.records u).length := by
  have hrow (u : Fin n) : (g.adjacency.outEdges u).countP (fun e => e.source ∈ us.map Fin.val) =
      if u ∈ us then (g.adjacency.records u).length else 0 := by
    rw [Adjacency.outEdges, List.countP_map]
    by_cases hu : u ∈ us
    · rw [if_pos hu, List.countP_eq_length]
      intro r _
      simpa [Fin.val_inj] using hu
    · rw [if_neg hu, List.countP_eq_zero]
      intro r _
      simpa [Fin.val_inj] using hu
  rw [toList_edges, List.countP_flatMap, sum_filter, Fin.sum_univ_def]
  exact congrArg List.sum (List.map_congr_left fun u _ => hrow u)

/-- All searches end, whatever the weights are, after no more entries and pops than the edges account for, and they
report how many vertices they have settled or visited. -/
theorem searches_account (g : Graph n) {start : Nat} (hs : start < n) :
    (let settled := ShortestPaths.settled g.adjacency.records ⟨start, hs⟩
      let final := ShortestPaths.run g.adjacency.records ⟨start, hs⟩
      ∃ p stale, g.shortestPaths start = .report p (.shortestPathsFinished start settled.length stale) ∧
        g.plain.shortestPaths? start = some (.ok p.plain) ∧ settled.Nodup ∧
        (∀ v, v ∈ settled ↔ final.finalized.contains v = true) ∧
        settled.length = 1 + #{v : Fin n | (p.predecessor? v).isSome} ∧
        settled.length + stale = final.frontier.nextSerial ∧
        final.frontier.nextSerial ≤ 1 + g.edges.toList.countP fun e => e.source ∈ settled.map Fin.val) ∧
    ∀ (β : Type) (visit : β → Nat → β) (value : β),
      (let states := BreadthFirst.trace g.adjacency.successors (fun b v => visit b v) ⟨start, hs⟩ value
        let enqueued := ⟨start, hs⟩ ::
          states.flatMap (BreadthFirst.State.enqueued g.adjacency.successors fun b v => visit b v)
        ∃ order, (g.breadthFirstOrder start).result = .ok order ∧
          (g.visitBreadthFirst start visit value).1 = .report () (.breadthFirstFinished start order.size) ∧
          enqueued.Nodup ∧ (enqueued.map Fin.val).Perm order.toList) ∧
      (let states := DepthFirst.trace g.adjacency.successors (fun b v => visit b v) ⟨start, hs⟩ value
        ∃ order, (g.depthFirstOrder start).result = .ok order ∧
          (g.visitDepthFirst start visit value).1 = .report () (.depthFirstFinished start order.size) ∧
          (∀ v, v ∈ order ↔ ∃ path d, g.Walk start v path d) ∧
          (DepthFirst.popped states).length ≤ 1 + g.edges.toList.countP fun e => e.source ∈ order) := by
  lift start to Fin n using hs
  refine ⟨?_, fun β visit value => ⟨?_, ?_⟩⟩
  · intro settled final
    obtain ⟨hnodup, hsettled, hfinal, hleft, hle⟩ := ShortestPaths.settled_run g.adjacency.records start
    have hreport : g.shortestPaths start =
        .report (final.result start) (.shortestPathsFinished start settled.length final.stale) := by
      rw [shortestPaths, checkVertex_of_lt start.isLt]
      show Outcome.report _ (.shortestPathsFinished start final.settled final.stale) = _
      rw [hsettled]
    refine ⟨final.result start, final.stale, hreport, ?_, hnodup, fun v => (hfinal v).symm, ?_, ?_, ?_⟩
    · rw [shortestPaths?_plain, hreport]
      rfl
    · have hlength := ShortestPaths.length_settled_eq g.adjacency.records start
      simp only [ShortestPaths.predecessor?_val]
      exact hlength
    · rw [← hsettled]
      exact hleft
    · rw [countP_source_mem]
      exact hle
  · intro states enqueued
    obtain ⟨hnodup, hperm⟩ := BreadthFirst.enqueued_perm_order g.adjacency.successors (fun b v => visit b v) start value
    refine ⟨(g.breadthFirstList start).toArray, g.breadthFirstOrder_eq start, ?_, hnodup, ?_⟩
    · rw [visitBreadthFirst_eq, List.size_toArray]
    · exact hperm.map Fin.val
  · intro states
    refine ⟨(g.depthFirstList start).toArray, g.depthFirstOrder_eq start, ?_, fun v => ?_, ?_⟩
    · rw [visitDepthFirst_eq, List.size_toArray]
    · rw [List.mem_toArray, mem_depthFirstList_iff]
    · have hle := DepthFirst.length_popped_le g.adjacency.successors (fun b v => visit b v) start value
      simp only [length_successors, List.mem_toArray] at hle ⊢
      rw [depthFirstList, countP_source_mem]
      exact hle

/-- Where two edges of negative weight lead back and forth for ever, a search inserts no more than three entries. -/
theorem searches_account_negative_cycle :
    let g : Graph 2 := ((⟨.undirected, .rows (.empty 2), 0⟩ : Graph 2).addEdge 0 1 (-1.0)).2
    ∃ p settled stale, g.shortestPaths 0 = .report p (.shortestPathsFinished 0 settled stale) ∧
      settled = 1 + #{v : Fin 2 | (p.predecessor? v).isSome} ∧ settled + stale ≤ 3 := by
  intro g
  obtain ⟨⟨p, stale, hreport, -, -, -, hsettled, hleft, hle⟩, -⟩ := searches_account g (show 0 < 2 by decide)
  have hedges : g.edges.toList.length = 2 := by
    rw [toList_edges]
    decide
  have hcount := hle.trans (Nat.add_le_add_left List.countP_le_length 1)
  rw [hedges, ← hleft] at hcount
  exact ⟨p, _, stale, hreport, hsettled, hcount⟩

end WeightedGraph.Graph
