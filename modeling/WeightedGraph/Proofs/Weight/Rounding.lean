import Mathlib

/-!
# Rounding to 53 binary digits

Rounding of natural numbers to the nearest number with at most 53 significant binary digits, ties to the even
one.  Weights are such numbers once they are counted in units of the least positive weight, and the sum of two
weights is the rounded sum.  The key facts: rounding is monotone (`rounded_mono`) and keeps a number with 53
digits (`rounded_mul_two_pow`).
-/

namespace WeightedGraph.Weight

/-- The quotient of `m` by `2 ^ k`, rounded to the nearest number, ties to the even one. -/
def nearest (m k : Nat) : Nat :=
  let q := m / 2 ^ k
  let r := m % 2 ^ k
  if 2 * r < 2 ^ k then q else if 2 * r = 2 ^ k then q + q % 2 else q + 1

theorem nearest_zero (m : Nat) : nearest m 0 = m := by
  unfold nearest
  simp [Nat.mod_one]

/-- The first digit that is dropped decides, and if it is one and no other one is, evenness does. -/
theorem nearest_succ (m k : Nat) :
    nearest m (k + 1) =
      if m / 2 ^ k % 2 = 0 then m / 2 ^ (k + 1)
      else if m % 2 ^ k = 0 then m / 2 ^ (k + 1) + m / 2 ^ (k + 1) % 2 else m / 2 ^ (k + 1) + 1 := by
  have hmod : m % 2 ^ (k + 1) = m % 2 ^ k + 2 ^ k * (m / 2 ^ k % 2) := Nat.mod_pow_succ
  have hlt : m % 2 ^ k < 2 ^ k := Nat.mod_lt _ (Nat.two_pow_pos k)
  have hpow : 2 ^ (k + 1) = 2 * 2 ^ k := Nat.pow_succ'
  rcases Nat.mod_two_eq_zero_or_one (m / 2 ^ k) with h | h
  · rw [h, Nat.mul_zero, Nat.add_zero] at hmod
    unfold nearest
    simp only [hmod]
    rw [if_pos (by omega), if_pos h]
  · rw [h, Nat.mul_one] at hmod
    have h1 : ¬ 2 * (m % 2 ^ k + 2 ^ k) < 2 ^ (k + 1) := by omega
    have h2 : 2 * (m % 2 ^ k + 2 ^ k) = 2 ^ (k + 1) ↔ m % 2 ^ k = 0 := by omega
    unfold nearest
    simp only [hmod, h, h1, h2, if_false, Nat.one_ne_zero]

theorem div_le_nearest (m k : Nat) : m / 2 ^ k ≤ nearest m k := by
  unfold nearest
  simp only
  split
  · exact Nat.le_refl _
  · split <;> omega

theorem nearest_le (m k : Nat) : nearest m k ≤ m / 2 ^ k + 1 := by
  unfold nearest
  simp only
  split
  · omega
  · split <;> omega

theorem nearest_mono {m m' : Nat} (h : m ≤ m') (k : Nat) : nearest m k ≤ nearest m' k := by
  rcases Nat.lt_or_ge (m / 2 ^ k) (m' / 2 ^ k) with hq | hq
  · calc
      nearest m k ≤ m / 2 ^ k + 1 := nearest_le m k
      _ ≤ m' / 2 ^ k := hq
      _ ≤ nearest m' k := div_le_nearest m' k
  · -- with equal quotients the remainders decide
    have hq : m / 2 ^ k = m' / 2 ^ k := Nat.le_antisymm (Nat.div_le_div_right h) hq
    have hr : m % 2 ^ k ≤ m' % 2 ^ k := by
      have e := Nat.div_add_mod m (2 ^ k)
      have e' := Nat.div_add_mod m' (2 ^ k)
      rw [hq] at e
      omega
    unfold nearest
    simp only [hq]
    split_ifs <;> omega

theorem nearest_mul_two_pow (m k : Nat) : nearest (m * 2 ^ k) k = m := by
  unfold nearest
  simp

/-- Zeros at the end of both numbers can be left out. -/
theorem nearest_mul_two_pow_add (m j k : Nat) : nearest (m * 2 ^ j) (j + k) = nearest m k := by
  have hq : m * 2 ^ j / 2 ^ (j + k) = m / 2 ^ k := by
    rw [Nat.pow_add, Nat.mul_comm m, Nat.mul_div_mul_left _ _ (Nat.two_pow_pos j)]
  have hr : m * 2 ^ j % 2 ^ (j + k) = 2 ^ j * (m % 2 ^ k) := by
    rw [Nat.pow_add, Nat.mul_comm m, Nat.mul_mod_mul_left]
  have hlt : 2 * (2 ^ j * (m % 2 ^ k)) < 2 ^ j * 2 ^ k ↔ 2 * (m % 2 ^ k) < 2 ^ k := by
    rw [Nat.mul_left_comm, Nat.mul_lt_mul_left (Nat.two_pow_pos j)]
  have heq : 2 * (2 ^ j * (m % 2 ^ k)) = 2 ^ j * 2 ^ k ↔ 2 * (m % 2 ^ k) = 2 ^ k := by
    rw [Nat.mul_left_comm, Nat.mul_right_inj (Nat.two_pow_pos j).ne']
  unfold nearest
  simp only [hq, hr]
  simp only [Nat.pow_add, hlt, heq]

/-- The number of binary digits of `m` beyond 53. -/
def excess (m : Nat) : Nat := m.log2 - 52

/-- The nearest number with at most 53 significant binary digits, ties to the even one. -/
def rounded (m : Nat) : Nat := nearest m (excess m) * 2 ^ excess m

theorem excess_mono {m m' : Nat} (h : m ≤ m') : excess m ≤ excess m' := by
  unfold excess
  have : m.log2 ≤ m'.log2 := by
    by_cases h0 : m = 0
    · simp [h0]
    · exact (Nat.le_log2 (by omega)).2 (Nat.le_trans (Nat.log2_self_le h0) h)
  omega

/-- Before rounding, a quotient has at most 53 digits. -/
theorem div_excess_lt (m : Nat) : m / 2 ^ excess m < 2 ^ 53 := by
  rw [Nat.div_lt_iff_lt_mul (Nat.two_pow_pos _), ← Nat.pow_add]
  exact Nat.lt_of_lt_of_le Nat.lt_log2_self (Nat.pow_le_pow_right (by decide) (by unfold excess; omega))

/-- A quotient that is not exact has 53 digits. -/
theorem le_div_excess {m : Nat} (h : 0 < excess m) : 2 ^ 52 ≤ m / 2 ^ excess m := by
  have h0 : m ≠ 0 := by
    rintro rfl
    simp [excess] at h
  rw [Nat.le_div_iff_mul_le (Nat.two_pow_pos _), ← Nat.pow_add]
  have : 52 + excess m = m.log2 := by unfold excess at *; omega
  rw [this]
  exact Nat.log2_self_le h0

theorem nearest_excess_le (m : Nat) : nearest m (excess m) ≤ 2 ^ 53 := by
  have h1 := nearest_le m (excess m)
  have h2 := div_excess_lt m
  omega

theorem le_nearest_excess {m : Nat} (h : 0 < excess m) : 2 ^ 52 ≤ nearest m (excess m) :=
  Nat.le_trans (le_div_excess h) (div_le_nearest m _)

theorem rounded_zero : rounded 0 = 0 := by decide

/-- Rounding is monotone. -/
theorem rounded_mono {m m' : Nat} (h : m ≤ m') : rounded m ≤ rounded m' := by
  unfold rounded
  rcases Nat.lt_or_ge (excess m) (excess m') with he | he
  · -- the smaller number is rounded to a finer grid and stays below the first number of the coarser one
    have hlow : 2 ^ 52 ≤ nearest m' (excess m') := le_nearest_excess (by omega)
    calc
      nearest m (excess m) * 2 ^ excess m ≤ 2 ^ 53 * 2 ^ excess m :=
        Nat.mul_le_mul_right _ (nearest_excess_le m)
      _ = 2 ^ 52 * 2 ^ (excess m + 1) := by ring
      _ ≤ 2 ^ 52 * 2 ^ excess m' := Nat.mul_le_mul_left _ (Nat.pow_le_pow_right (by decide) (by omega))
      _ ≤ nearest m' (excess m') * 2 ^ excess m' := Nat.mul_le_mul_right _ hlow
  · have he : excess m = excess m' := Nat.le_antisymm (excess_mono h) he
    rw [he]
    exact Nat.mul_le_mul_right _ (nearest_mono h _)

theorem excess_mul_two_pow_le {m : Nat} (h : m < 2 ^ 53) (k : Nat) : excess (m * 2 ^ k) ≤ k := by
  unfold excess
  by_cases h0 : m = 0
  · simp [h0]
  · have hm : m * 2 ^ k ≠ 0 := Nat.mul_ne_zero h0 (by simp)
    have : (m * 2 ^ k).log2 < 53 + k := by
      rw [Nat.log2_lt hm, Nat.pow_add]
      exact Nat.mul_lt_mul_of_pos_right h (Nat.two_pow_pos k)
    omega

/-- Rounding keeps a number with at most 53 digits and any number of zeros behind them. -/
theorem rounded_mul_two_pow {m : Nat} (h : m < 2 ^ 53) (k : Nat) : rounded (m * 2 ^ k) = m * 2 ^ k := by
  have hk := excess_mul_two_pow_le h k
  obtain ⟨d, hd⟩ : ∃ d, k = d + excess (m * 2 ^ k) := ⟨k - excess (m * 2 ^ k), by omega⟩
  have e : m * 2 ^ k = m * 2 ^ d * 2 ^ excess (m * 2 ^ k) := by
    conv_lhs => rw [hd]
    ring
  unfold rounded
  generalize excess (m * 2 ^ k) = x at e ⊢
  rw [e, nearest_mul_two_pow]

end WeightedGraph.Weight
