import WeightedGraph.Proofs.Graph.Pairs

/-!
# How many edges a graph can hold

The edges of a graph never outnumber the edges that are possible between its vertices, and they are as many only if
there is an edge from every vertex to every vertex (`edgeCount_le_capacity`).  The pairs with an edge are at most all
pairs and the loops at most all vertices (`card_pairs_le`, `card_loops_le`), and edges are counted by pairs and loops.
The share of the possible edges that are there (`Graph.share`) is what a density rounds.
-/

namespace WeightedGraph

open scoped Finset

/-- The number of edges that are possible between `n` vertices, a loop at every vertex included. -/
def GraphKind.capacity (kind : GraphKind) (n : Nat) : Nat :=
  match kind with
  | .directed => n ^ 2
  | .undirected => n * (n + 1) / 2

theorem GraphKind.two_mul_capacity_undirected (n : Nat) : 2 * GraphKind.undirected.capacity n = n * n + n := by
  rw [GraphKind.capacity, Nat.two_mul_div_two_of_even (Nat.even_mul_succ_self n), Nat.mul_succ]

namespace Graph

variable {n : Nat} {g : Graph n}

/-- The formula of a density, in numbers of any kind. -/
def share {K : Type} [Add K] [Mul K] [Div K] [OfScientific K] (number : Nat → K) (g : Graph n) : K :=
  let size := number n
  let possible := if g.isDirected then size * size else size * (size + 1.0) / 2.0
  number g.edgeCount / possible

theorem density_eq_share (g : Graph n) : g.density = g.share Float.ofNat := rfl

/-! ### Pairs and loops -/

theorem card_pairs_le (g : Graph n) : #g.pairs ≤ n * n := by
  have hle := Finset.card_le_univ g.pairs
  rwa [Fintype.card_prod, Fintype.card_fin] at hle

theorem card_pairs_eq_iff : #g.pairs = n * n ↔ g.pairs = Finset.univ := by
  rw [← Finset.card_eq_iff_eq_univ, Fintype.card_prod, Fintype.card_fin]

theorem pairs_eq_univ_iff : g.pairs = Finset.univ ↔ ∀ u < n, ∀ v < n, g.hasEdge u v = true := by
  rw [Finset.eq_univ_iff_forall]
  constructor
  · intro hall u hu v hv
    exact mem_pairs_iff_hasEdge.1 (hall (⟨u, hu⟩, ⟨v, hv⟩))
  · rintro hall ⟨u, v⟩
    exact mem_pairs_iff_hasEdge.2 (hall u u.isLt v v.isLt)

theorem loops_subset_diag (g : Graph n) : g.loops ⊆ Finset.univ.diag := by
  intro q hq
  exact Finset.mem_diag.2 ⟨Finset.mem_univ _, (Finset.mem_filter.1 hq).2⟩

theorem card_loops_le (g : Graph n) : #g.loops ≤ n := by
  have hle := Finset.card_le_card g.loops_subset_diag
  rwa [Finset.diag_card, Finset.card_fin] at hle

theorem card_loops_of_pairs_eq_univ (hall : g.pairs = Finset.univ) : #g.loops = n := by
  have hdiag : g.loops = Finset.univ.diag := by
    refine Finset.Subset.antisymm g.loops_subset_diag fun q hq => ?_
    exact Finset.mem_filter.2 ⟨hall ▸ Finset.mem_univ q, (Finset.mem_diag.1 hq).2⟩
  rw [hdiag, Finset.diag_card, Finset.card_fin]

/-! ### Edges -/

/-- A graph holds as many edges as are possible exactly if all pairs have one. -/
theorem Reachable.edgeCount_le_and_eq_iff (h : g.Reachable) :
    g.edgeCount ≤ g.kind.capacity n ∧ (g.edgeCount = g.kind.capacity n ↔ g.pairs = Finset.univ) := by
  have hpairs := card_pairs_le g
  cases hkind : g.kind with
  | directed =>
    rw [← card_pairs_directed h hkind, GraphKind.capacity, pow_two]
    exact ⟨hpairs, card_pairs_eq_iff⟩
  | undirected =>
    have hcount := card_pairs_undirected h hkind
    have hcapacity := GraphKind.two_mul_capacity_undirected n
    have hloops := card_loops_le g
    refine ⟨by omega, fun hfull => card_pairs_eq_iff.1 (by omega), fun hall => ?_⟩
    have hpairs := card_pairs_eq_iff.2 hall
    have hloops := card_loops_of_pairs_eq_univ hall
    omega

/-- In exact numbers a density divides by the number of possible edges. -/
theorem share_eq (g : Graph n) : g.share (Nat.cast : Nat → ℚ) = g.edgeCount / g.kind.capacity n := by
  rw [share, isDirected]
  cases g.kind with
  | directed => simp [GraphKind.isDirected, GraphKind.capacity, pow_two]
  | undirected =>
    have hcapacity : (2 : ℚ) * GraphKind.undirected.capacity n = n * n + n := by
      exact_mod_cast GraphKind.two_mul_capacity_undirected n
    have hpossible : (n : ℚ) * (n + 1.0) / 2.0 = GraphKind.undirected.capacity n := by
      norm_num
      linarith
    exact congrArg _ hpossible

/-- A graph never holds more edges than are possible between its vertices, and as many exactly if there is an edge from
every vertex to every vertex; so the share that its density rounds lies between zero and one. -/
theorem edgeCount_le_capacity (h : g.Reachable) :
    g.edgeCount ≤ g.kind.capacity n ∧
    (g.edgeCount = g.kind.capacity n ↔ ∀ u < n, ∀ v < n, g.hasEdge u v = true) ∧
    g.density = g.share Float.ofNat ∧
    g.share (Nat.cast : Nat → ℚ) = g.edgeCount / g.kind.capacity n ∧
    g.share (Nat.cast : Nat → ℚ) ∈ Set.Icc (0 : ℚ) 1 := by
  obtain ⟨hle, hfull⟩ := h.edgeCount_le_and_eq_iff
  refine ⟨hle, hfull.trans pairs_eq_univ_iff, g.density_eq_share, g.share_eq, ?_⟩
  rw [share_eq]
  exact ⟨by positivity, div_le_one_of_le₀ (by exact_mod_cast hle) (by positivity)⟩

/-- Three edges are possible between two vertices without directions, and a graph can hold them all. -/
theorem edgeCount_le_capacity_complete :
    let g : Graph 2 := (((⟨.undirected, .grid (.empty 2), 0⟩ : Graph 2).addEdge 1 0 0.0).2.addEdge 0 0 2.5).2.addEdge
      1 1 1.0 |>.2
    g.edgeCount = GraphKind.undirected.capacity 2 ∧ (∀ u < 2, ∀ v < 2, g.hasEdge u v = true) ∧
      g.share (Nat.cast : Nat → ℚ) = 1 := by
  intro g
  have hnew : (create 2 .undirected .adjacencyMatrix).result = .ok ⟨.undirected, .grid (.empty 2), 0⟩ := rfl
  have hg : g.Reachable := (((Reachable.create hnew).addEdge 1 0 0.0).addEdge 0 0 2.5).addEdge 1 1 1.0
  have hcount : g.edgeCount = 3 := by decide
  obtain ⟨-, hfull, -, hshare, -⟩ := edgeCount_le_capacity hg
  refine ⟨hcount, hfull.1 hcount, ?_⟩
  have hcapacity : g.kind.capacity 2 = 3 := rfl
  rw [hshare, hcount, hcapacity]
  norm_num

end Graph

end WeightedGraph
