import WeightedGraph.Config.Basic
import WeightedGraph.Proofs.Graph.Build
import WeightedGraph.Proofs.Plain.Graph

/-!
# The limits of graphs

How many vertices a graph can have depends on its representation and on the allocator, which turns down requests from
some size on.  A graph is never had for no vertices.  A matrix has too many cells to be counted from `2 ^ 32` vertices
on, and too many bytes to be asked for from `2 ^ 30` vertices on; lists are too many when their rows take more than
`2 ^ 63 - 1` bytes.  Otherwise it is up to the allocator, and where the weights of a matrix can be had, so can the flags
(`createWithin_matrix`, `createWithin_lists`).  The arrays of a graph that is had are as large as words of 64 bits make
them of the number of vertices, so no product has wrapped around (`sizedBy_of_createWithin`).

What goes for a new graph goes for building one, for copies and for conversions to another representation, and for
graphs made of edges, where besides only the end of an edge may be to blame (`eq_vertexOutOfRange_of_fromEdges`).
-/

namespace WeightedGraph

/-! ### New graphs -/

namespace Graph

theorem createWithin_lists (limit n : Nat) (kind : GraphKind) :
    createWithin limit n kind .adjacencyList =
      if n = 0 then .fail .zeroVertices
      else if 2 ^ 63 - 1 < 24 * n then .fail (.allocation .capacityExceeded)
      else if limit ≤ 24 * n then .fail (.allocation .refused)
      else .report ⟨kind, .rows (.empty n), 0⟩ (.createdGraph n kind .adjacencyList) := by
  rw [createWithin, Adjacency.allocateWithin, Rows.allocateWithin_eq]
  split_ifs <;> rfl

theorem createWithin_matrix (limit n : Nat) (kind : GraphKind) :
    createWithin limit n kind .adjacencyMatrix =
      if n = 0 then .fail .zeroVertices
      else if 2 ^ 32 ≤ n then .fail (.capacityOverflow n)
      else if 2 ^ 30 ≤ n then .fail (.allocation .capacityExceeded)
      else if limit ≤ 8 * n ^ 2 then .fail (.allocation .refused)
      else .report ⟨kind, .grid (.empty n), 0⟩ (.createdGraph n kind .adjacencyMatrix) := by
  rw [createWithin, Adjacency.allocateWithin, Grid.allocateWithin_eq]
  split_ifs <;> rfl

end Graph

/-! ### Sizes in words -/

/-- The arrays have as many entries, and take as many bytes, as words of 64 bits make of the number of vertices. -/
def Plain.Storage.SizedBy (count : UInt64) : Plain.Storage → Prop
  | .lists rows => rows.size = count.toNat ∧ 24 * rows.size = (24 * count).toNat
  | .matrix weights present side =>
    side = count.toNat ∧ weights.size = (count * count).toNat ∧ present.size = (count * count).toNat ∧
      8 * weights.size = (8 * (count * count)).toNat

theorem toNat_mul_of_lt {a b : UInt64} (h : a.toNat * b.toNat < 2 ^ 64) : (a * b).toNat = a.toNat * b.toNat := by
  rw [UInt64.toNat_mul, Nat.mod_eq_of_lt h]

theorem sizedBy_lists {n : Nat} (h : ¬ 2 ^ 63 - 1 < 24 * n) :
    (Adjacency.rows (.empty n)).plain.SizedBy (UInt64.ofNat n) := by
  have hn : (UInt64.ofNat n).toNat = n := UInt64.toNat_ofNat_of_lt' (show n < 2 ^ 64 by omega)
  have hsize : (Rows.empty n).plain.size = n := by simp [Rows.plain]
  have hbytes : ((24 : UInt64) * UInt64.ofNat n).toNat = 24 * n := by
    rw [toNat_mul_of_lt] <;> rw [hn]
    · rfl
    · show 24 * n < 2 ^ 64
      omega
  show (Rows.empty n).plain.size = _ ∧ 24 * (Rows.empty n).plain.size = _
  rw [hsize, hn, hbytes]
  exact ⟨rfl, rfl⟩

theorem sizedBy_matrix {n : Nat} (h : ¬ 2 ^ 30 ≤ n) :
    (Adjacency.grid (.empty n)).plain.SizedBy (UInt64.ofNat n) := by
  have hn : (UInt64.ofNat n).toNat = n := UInt64.toNat_ofNat_of_lt' (show n < 2 ^ 64 by omega)
  have hbytes : 8 * (n * n) < 2 ^ 63 := by
    rw [← Allocation.maxRequest_lt_iff, show Allocation.maxRequest = 2 ^ 63 - 1 from rfl] at h
    omega
  have hcells : (UInt64.ofNat n * UInt64.ofNat n).toNat = n * n := by
    rw [toNat_mul_of_lt] <;> rw [hn]
    omega
  have hweights : ((8 : UInt64) * (UInt64.ofNat n * UInt64.ofNat n)).toNat = 8 * (n * n) := by
    rw [toNat_mul_of_lt] <;> rw [hcells]
    · rfl
    · show 8 * (n * n) < 2 ^ 64
      omega
  show n = _ ∧ (Grid.empty n).weights.toArray.size = _ ∧ (Grid.empty n).present.toArray.size = _ ∧
    8 * (Grid.empty n).weights.toArray.size = _
  rw [Vector.size_toArray, Vector.size_toArray, hn, hcells, hweights]
  exact ⟨rfl, rfl, rfl, rfl⟩

namespace Graph

variable {n : Nat}

theorem sizedBy_of_createWithin {limit : Nat} {kind : GraphKind} {r : Representation} {g : Graph n}
    (h : (createWithin limit n kind r).result = .ok g) : g.plain.storage.SizedBy (UInt64.ofNat n) := by
  cases r with
  | adjacencyList =>
    rw [createWithin_lists] at h
    split_ifs at h with hzero hmax hlimit
    all_goals cases h
    exact sizedBy_lists hmax
  | adjacencyMatrix =>
    rw [createWithin_matrix] at h
    split_ifs at h with hzero hcells hmax hlimit
    all_goals cases h
    exact sizedBy_matrix hmax

/-! ### Graphs made in other ways -/

theorem fromEdges_of_error {kind : GraphKind} {r : Representation} {e : GraphError}
    (h : (create n kind r).result = .error e) (edges : List Edge) : (fromEdges n kind r edges).result = .error e := by
  simp only [fromEdges, Outcome.bind_def, Outcome.result_bind, h]
  rfl

/-- If there is memory for a graph, nothing but the end of an edge is to blame. -/
theorem eq_vertexOutOfRange_of_fromEdges {kind : GraphKind} {r : Representation} {empty : Graph n} {edges : List Edge}
    {e : GraphError} (hempty : (create n kind r).result = .ok empty)
    (h : (fromEdges n kind r edges).result = .error e) : ∃ v, e = .vertexOutOfRange v n := by
  cases hfind : edges.find? (fun e => n ≤ e.source ∨ n ≤ e.target) with
  | none =>
    obtain ⟨g, hg⟩ := (exists_fromEdges_iff hempty).2 (by simpa [Edge.InRange] using hfind)
    rw [hg] at h
    contradiction
  | some d =>
    rw [fromEdges_of_find? hempty hfind] at h
    exact ⟨_, (Except.error.inj h).symm⟩

theorem result_copy_eq_error_iff {g : Graph n} {r : Representation} {e : GraphError} :
    (g.copy r).result = .error e ↔ (create n g.kind r).result = .error e := by
  rw [result_copy]
  cases (create n g.kind r).result <;> simp [Except.map]

theorem result_convert_eq_error_iff {g : Graph n} {r : Representation} (hr : g.representation ≠ r) {e : GraphError} :
    (g.convert r).1.result = .error e ↔ (create n g.kind r).result = .error e := by
  rw [← result_copy_eq_error_iff, convert, if_neg hr]
  cases hcopy : (g.copy r).result <;> simp [hcopy]

/-- What comes of a new graph for any number of vertices and any allocator, and with it of building, copying and
converting a graph and of making one of edges; no size has wrapped around. -/
theorem create_limits (limit n : Nat) (kind : GraphKind) :
    (createWithin limit n kind .adjacencyMatrix =
      if n = 0 then .fail .zeroVertices
      else if 2 ^ 32 ≤ n then .fail (.capacityOverflow n)
      else if 2 ^ 30 ≤ n then .fail (.allocation .capacityExceeded)
      else if limit ≤ 8 * n ^ 2 then .fail (.allocation .refused)
      else .report ⟨kind, .grid (.empty n), 0⟩ (.createdGraph n kind .adjacencyMatrix)) ∧
    (createWithin limit n kind .adjacencyList =
      if n = 0 then .fail .zeroVertices
      else if 2 ^ 63 - 1 < 24 * n then .fail (.allocation .capacityExceeded)
      else if limit ≤ 24 * n then .fail (.allocation .refused)
      else .report ⟨kind, .rows (.empty n), 0⟩ (.createdGraph n kind .adjacencyList)) ∧
    (Allocation.reserveWithin limit (n * n) Grid.weightBytes = .ok () →
      Allocation.reserveWithin limit (n * n) Grid.flagBytes = .ok ()) ∧
    ∀ r : Representation,
      (∀ g, (createWithin limit n kind r).result = .ok g → g.plain.storage.SizedBy (UInt64.ofNat n)) ∧
      create n kind r = createWithin Allocation.addressSpace n kind r ∧
      GraphConfig.build ⟨n, kind, r⟩ = create n kind r ∧
      (∀ edges e, ((create n kind r).result = .error e → (fromEdges n kind r edges).result = .error e) ∧
        ((∃ empty, (create n kind r).result = .ok empty) → (fromEdges n kind r edges).result = .error e →
          ∃ v, e = .vertexOutOfRange v n)) ∧
      ∀ (g : Graph n) (e : GraphError), g.kind = kind →
        ((g.copy r).result = .error e ↔ (create n kind r).result = .error e) ∧
        (g.representation ≠ r → ((g.convert r).1.result = .error e ↔ (create n kind r).result = .error e)) := by
  refine ⟨createWithin_matrix .., createWithin_lists .., Allocation.reserveWithin_of_le (by decide), fun r =>
    ⟨fun g hg => sizedBy_of_createWithin hg, rfl, rfl, fun edges e => ⟨?_, ?_⟩, ?_⟩⟩
  · exact fun h => fromEdges_of_error h edges
  · rintro ⟨empty, hempty⟩ h
    exact eq_vertexOutOfRange_of_fromEdges hempty h
  · rintro g e rfl
    exact ⟨result_copy_eq_error_iff, fun hr => result_convert_eq_error_iff hr⟩

/-- The outcomes change at `2 ^ 30` and at `2 ^ 32` vertices for matrices, and at 384307168202282326 for lists; those of
`2 ^ 32` vertices cannot be copied into a matrix. -/
theorem create_limits_reached :
    (∀ limit, (createWithin limit (2 ^ 32) .directed .adjacencyMatrix).result = .error (.capacityOverflow (2 ^ 32)) ∧
      (createWithin limit (2 ^ 32 - 1) .directed .adjacencyMatrix).result = .error (.allocation .capacityExceeded) ∧
      (createWithin limit (2 ^ 30) .directed .adjacencyMatrix).result = .error (.allocation .capacityExceeded) ∧
      (createWithin limit 384307168202282326 .directed .adjacencyList).result =
        .error (.allocation .capacityExceeded)) ∧
    (createWithin (2 ^ 47) (2 ^ 30 - 1) .directed .adjacencyMatrix).result = .error (.allocation .refused) ∧
    (createWithin (2 ^ 47) 384307168202282325 .directed .adjacencyList).result = .error (.allocation .refused) ∧
    (createWithin 72 3 .directed .adjacencyMatrix).result = .error (.allocation .refused) ∧
    (∃ g, (createWithin 73 3 .directed .adjacencyMatrix).result = .ok g ∧ g.plain.storage.SizedBy 3) ∧
    let lists : Graph (2 ^ 32) := ⟨.directed, .rows (.empty (2 ^ 32)), 0⟩
    (lists.copy .adjacencyMatrix).result = .error (.capacityOverflow (2 ^ 32)) ∧
      (lists.convert .adjacencyMatrix).1.result = .error (.capacityOverflow (2 ^ 32)) ∧
      (fromEdges (2 ^ 32) .directed .adjacencyMatrix [⟨0, 1, 1.0⟩]).result = .error (.capacityOverflow (2 ^ 32)) := by
  have hmatrix (limit n : Nat) := (create_limits limit n .directed).1
  have hlists (limit n : Nat) := (create_limits limit n .directed).2.1
  refine ⟨fun limit => ⟨?_, ?_, ?_, ?_⟩, ?_, ?_, ?_, ?_, ?_⟩
  · rw [hmatrix]
    rfl
  · rw [hmatrix]
    rfl
  · rw [hmatrix]
    rfl
  · rw [hlists]
    rfl
  · rw [hmatrix]
    rfl
  · rw [hlists]
    rfl
  · rw [hmatrix]
    rfl
  · obtain ⟨-, -, -, hmade⟩ := create_limits 73 3 .directed
    have hgranted : (createWithin 73 3 .directed .adjacencyMatrix).result = .ok ⟨.directed, .grid (.empty 3), 0⟩ := by
      rw [hmatrix]
      rfl
    exact ⟨_, hgranted, (hmade .adjacencyMatrix).1 _ hgranted⟩
  · intro lists
    obtain ⟨-, -, -, hmade⟩ := create_limits Allocation.addressSpace (2 ^ 32) .directed
    obtain ⟨-, hcreate, -, hedges, hgraphs⟩ := hmade .adjacencyMatrix
    have herror : (create (2 ^ 32) .directed .adjacencyMatrix).result = .error (.capacityOverflow (2 ^ 32)) := by
      rw [hcreate, hmatrix]
      rfl
    obtain ⟨hcopy, hconvert⟩ := hgraphs lists (.capacityOverflow (2 ^ 32)) rfl
    exact ⟨hcopy.2 herror, (hconvert (by decide)).2 herror, (hedges _ _).1 herror⟩

end Graph

end WeightedGraph
