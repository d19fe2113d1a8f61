import Mathlib
import WeightedGraph.Adjacency.Basic

/-!
# Memory for an adjacency

The cells of a matrix can be counted below `2 ^ 32` vertices, and the bytes of their weights can be named in one
request below `2 ^ 30` vertices (`Allocation.maxCount_lt_iff`, `Allocation.maxRequest_lt_iff`).  So what comes of asking
for an adjacency is known for every number of vertices and for every allocator (`Rows.allocateWithin_eq`,
`Grid.allocateWithin_eq`).  What is had is empty, and its vertices can be counted (`Adjacency.allocateWithin_cases`).
-/

namespace WeightedGraph

/-! ### Requests -/

namespace Allocation

theorem reserveWithin_eq (limit count itemBytes : Nat) :
    reserveWithin limit count itemBytes =
      if maxRequest < itemBytes * count then .error (.allocation .capacityExceeded)
      else if limit ≤ itemBytes * count then .error (.allocation .refused)
      else .ok () := by
  unfold reserveWithin requestWithin
  split_ifs <;> rfl

/-- Where there is room for large items, there is room for as many small ones. -/
theorem reserveWithin_of_le {limit count small large : Nat} (h : small ≤ large)
    (hlarge : reserveWithin limit count large = .ok ()) : reserveWithin limit count small = .ok () := by
  have hbytes : small * count ≤ large * count := Nat.mul_le_mul_right count h
  rw [reserveWithin_eq] at hlarge ⊢
  split_ifs at hlarge with hmax hlimit
  rw [if_neg (by omega), if_neg (by omega)]

/-- The square of a number is too large to be counted if its root has more than 32 digits. -/
theorem maxCount_lt_iff {n : Nat} : maxCount < n * n ↔ 2 ^ 32 ≤ n := by
  have hmax : maxCount + 1 = 2 ^ 32 * 2 ^ 32 := by decide
  rw [← Nat.succ_le_iff, Nat.succ_eq_add_one, hmax]
  exact Nat.mul_self_le_mul_self_iff

theorem maxRequest_lt_iff {n : Nat} : maxRequest < 8 * (n * n) ↔ 2 ^ 30 ≤ n := by
  have hmax : maxRequest + 1 = 8 * (2 ^ 30 * 2 ^ 30) := by decide
  rw [← Nat.succ_le_iff, Nat.succ_eq_add_one, hmax, Nat.mul_le_mul_left_iff (by decide)]
  exact Nat.mul_self_le_mul_self_iff

end Allocation

/-! ### Adjacencies -/

/-- Lists are had unless their rows are too many to be asked for, or for the allocator. -/
theorem Rows.allocateWithin_eq (limit n : Nat) :
    allocateWithin limit n =
      if 2 ^ 63 - 1 < 24 * n then .error (.allocation .capacityExceeded)
      else if limit ≤ 24 * n then .error (.allocation .refused)
      else .ok (empty n) := by
  have hmax : Allocation.maxRequest = 2 ^ 63 - 1 := rfl
  rw [allocateWithin, Allocation.reserveWithin_eq, rowBytes, hmax]
  split_ifs <;> rfl

/-- A matrix is had unless its cells are too many to be counted or to be asked for, or for the allocator, which has
memory for the flags if it has memory for the weights. -/
theorem Grid.allocateWithin_eq (limit n : Nat) :
    allocateWithin limit n =
      if 2 ^ 32 ≤ n then .error (.capacityOverflow n)
      else if 2 ^ 30 ≤ n then .error (.allocation .capacityExceeded)
      else if limit ≤ 8 * n ^ 2 then .error (.allocation .refused)
      else .ok (empty n) := by
  simp only [← Allocation.maxCount_lt_iff, ← Allocation.maxRequest_lt_iff, Nat.pow_two]
  unfold allocateWithin
  by_cases hcells : Allocation.maxCount < n * n
  · simp only [if_pos hcells]
    rfl
  · simp only [if_neg hcells]
    cases hweights : Allocation.reserveWithin limit (n * n) weightBytes with
    | error e =>
      rw [Allocation.reserveWithin_eq, weightBytes] at hweights
      split_ifs at hweights ⊢ <;> cases hweights <;> rfl
    | ok =>
      have hflags := Allocation.reserveWithin_of_le (show flagBytes ≤ weightBytes by decide) hweights
      rw [Allocation.reserveWithin_eq, weightBytes] at hweights
      split_ifs at hweights ⊢
      rw [hflags]
      rfl

namespace Adjacency

variable {n : Nat} {a : Adjacency n}

/-- What is had is empty, and can be named in one request. -/
theorem allocateWithin_cases {limit : Nat} {r : Representation} (h : allocateWithin limit n r = .ok a) :
    a = .rows (.empty n) ∧ 24 * n ≤ 2 ^ 63 - 1 ∨ a = .grid (.empty n) ∧ n < 2 ^ 30 := by
  cases r with
  | adjacencyList =>
    rw [allocateWithin, Rows.allocateWithin_eq] at h
    split_ifs at h with hmax
    all_goals cases h
    exact .inl ⟨rfl, Nat.le_of_not_lt hmax⟩
  | adjacencyMatrix =>
    rw [allocateWithin, Grid.allocateWithin_eq] at h
    split_ifs at h with hcells hmax
    all_goals cases h
    exact .inr ⟨rfl, Nat.lt_of_not_le hmax⟩

theorem eq_empty_of_allocate {r : Representation} (h : allocate n r = .ok a) :
    a = .rows (.empty n) ∨ a = .grid (.empty n) := (allocateWithin_cases h).imp And.left And.left

/-- There is only memory for adjacencies whose vertices can be counted. -/
theorem lt_of_allocate {r : Representation} (h : allocate n r = .ok a) : n < 2 ^ 64 := by
  rcases allocateWithin_cases h with ⟨-, hbytes⟩ | ⟨-, hcells⟩ <;> omega

end Adjacency

end WeightedGraph
