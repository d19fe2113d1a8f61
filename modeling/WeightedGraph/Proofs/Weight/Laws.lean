import WeightedGraph.Proofs.Weight.Sum

/-!
# Laws of weights

The order of weights is a strict partial order of all weights and a total preorder of the numbers; infinity is
above them, and nothing else is (`eq_infinity_of_le`).  Adding weights that are not negative gives such a weight
(`IsNonneg.add`), is monotone (`add_le_add_right`) and makes nothing smaller (`le_add_right`).  Only the two zeros
are different and yet not ordered, and no sum that starts at the positive one is the negative one
(`IsUnsigned.add`), so that sums are determined by their order (`eq_of_le_of_le`).
-/

open Float.Model Float.Model.UnpackedFloat

namespace WeightedGraph.Weight

variable {a b c w : Weight}

/-! ### Strict order -/

theorem lt_irrefl (a : Weight) : ¬ a < a := by
  rw [lt_iff]
  rintro ⟨x, y, hx, hy, hxy⟩
  obtain rfl : x = y := Option.some.inj (hx.symm.trans hy)
  exact Int.lt_irrefl x hxy

theorem lt_trans (hab : a < b) (hbc : b < c) : a < c := by
  rw [lt_iff] at *
  obtain ⟨x, y, hx, hy, hxy⟩ := hab
  obtain ⟨y', z, hy', hz, hyz⟩ := hbc
  obtain rfl : y = y' := Option.some.inj (hy.symm.trans hy')
  exact ⟨x, z, hx, hz, Int.lt_trans hxy hyz⟩

theorem isNaN_of_lt (h : a < b) : a.isNaN = false ∧ b.isNaN = false := by
  obtain ⟨x, y, hx, hy, -⟩ := lt_iff.1 h
  exact ⟨isNaN_eq_false_iff.2 ⟨x, hx⟩, isNaN_eq_false_iff.2 ⟨y, hy⟩⟩

theorem compare_eq_lt_iff : a.compare b = .lt ↔ a < b := by
  unfold Weight.compare
  split
  · rename_i h
    exact ⟨fun _ => h, fun _ => rfl⟩
  · rename_i h
    split <;> simp [h]

theorem compare_eq_gt_iff : a.compare b = .gt ↔ b < a := by
  unfold Weight.compare
  split
  · rename_i h
    exact ⟨fun h' => by simp at h', fun h' => absurd (lt_trans h h') (lt_irrefl a)⟩
  · split <;> simp_all

/-! ### Order of the numbers -/

theorem le_refl (ha : a.isNaN = false) : a ≤ a := by
  obtain ⟨x, hx⟩ := isNaN_eq_false_iff.1 ha
  exact le_iff.2 ⟨x, x, hx, hx, Int.le_refl x⟩

theorem le_trans (hab : a ≤ b) (hbc : b ≤ c) : a ≤ c := by
  rw [le_iff] at *
  obtain ⟨x, y, hx, hy, hxy⟩ := hab
  obtain ⟨y', z, hy', hz, hyz⟩ := hbc
  obtain rfl : y = y' := Option.some.inj (hy.symm.trans hy')
  exact ⟨x, z, hx, hz, Int.le_trans hxy hyz⟩

theorem le_of_lt (h : a < b) : a ≤ b := by
  obtain ⟨x, y, hx, hy, hxy⟩ := lt_iff.1 h
  exact le_iff.2 ⟨x, y, hx, hy, Int.le_of_lt hxy⟩

theorem not_lt_iff (ha : a.isNaN = false) (hb : b.isNaN = false) : ¬ a < b ↔ b ≤ a := by
  obtain ⟨x, hx⟩ := isNaN_eq_false_iff.1 ha
  obtain ⟨y, hy⟩ := isNaN_eq_false_iff.1 hb
  simp [lt_iff, le_iff, hx, hy]

theorem lt_of_le_of_lt (hab : a ≤ b) (hbc : b < c) : a < c := by
  obtain ⟨x, y, hx, hy, hxy⟩ := le_iff.1 hab
  obtain ⟨y', z, hy', hz, hyz⟩ := lt_iff.1 hbc
  obtain rfl : y = y' := Option.some.inj (hy.symm.trans hy')
  exact lt_iff.2 ⟨x, z, hx, hz, Int.lt_of_le_of_lt hxy hyz⟩

/-! ### Infinity -/

private theorem unpack_eq_infinity_or_lt_top {x : Int} (h : a.value? = some x) :
    a.toModel.unpack = .infinity .positive ∧ x = top ∨ x < top := by
  have hc := canonical_unpack a.toModel
  have ht := top_pos
  unfold value? at h
  cases hu : a.toModel.unpack with
  | notANumber => simp [hu, unpackedValue?] at h
  | infinity s =>
    cases s <;> simp only [hu, unpackedValue?, Sign.apply, Option.some.injEq] at h
    · omega
    · exact .inl ⟨rfl, h.symm⟩
  | zero s =>
    simp only [hu, unpackedValue?, Option.some.injEq] at h
    omega
  | finite s m e hm =>
    rw [hu] at hc
    simp only [hu, unpackedValue?, Option.some.injEq] at h
    have := apply_scaled_bounds s hc.1 hc.2.2.1
    omega

theorem value?_le_top {x : Int} (h : a.value? = some x) : x ≤ top := by
  rcases unpack_eq_infinity_or_lt_top h with ⟨-, rfl⟩ | hlt
  · exact Int.le_refl _
  · exact Int.le_of_lt hlt

theorem le_infinity (ha : a.isNaN = false) : a ≤ 1.0 / 0.0 := by
  obtain ⟨x, hx⟩ := isNaN_eq_false_iff.1 ha
  exact le_iff.2 ⟨x, top, hx, value?_infinity, value?_le_top hx⟩

theorem lt_infinity_of_isFinite (ha : a.isFinite = true) : a < 1.0 / 0.0 := by
  obtain ⟨x, hx, -, hlt⟩ := isFinite_iff.1 ha
  exact lt_iff.2 ⟨x, top, hx, value?_infinity, hlt⟩

theorem isFinite_iff_not_isInf : a.isFinite = true ↔ a.isNaN = false ∧ a.isInf = false := by
  show a.toModel.unpack.isFinite = true ↔ a.toModel.unpack.isNaN = false ∧ a.toModel.unpack.isInf = false
  cases a.toModel.unpack <;> simp [UnpackedFloat.isFinite, UnpackedFloat.isNaN, UnpackedFloat.isInf]

theorem eq_of_unpack_eq (h : a.toModel.unpack = b.toModel.unpack) : a = b := by
  have hbits := (unpack_inj_of_valid a.toModel.valid b.toModel.valid).1 h
  obtain ⟨⟨⟨x⟩, hx⟩⟩ := a
  obtain ⟨⟨⟨y⟩, hy⟩⟩ := b
  cases hbits
  rfl

/-- Nothing else is as large as infinity. -/
theorem eq_infinity_of_le (h : 1.0 / 0.0 ≤ a) : a = 1.0 / 0.0 := by
  obtain ⟨x, y, hx, hy, hxy⟩ := le_iff.1 h
  obtain rfl : (top : Int) = x := Option.some.inj (value?_infinity.symm.trans hx)
  obtain rfl : y = top := Int.le_antisymm (value?_le_top hy) hxy
  have hinfinity {b : Weight} (hb : b.value? = some (top : Int)) : b.toModel.unpack = .infinity .positive :=
    (unpack_eq_infinity_or_lt_top hb).elim (·.1) fun h => absurd h (Int.lt_irrefl _)
  exact eq_of_unpack_eq ((hinfinity hy).trans (hinfinity value?_infinity).symm)

/-! ### Addition -/

/-- A weight that search for shortest paths is meant for: a number that is not below zero. -/
def IsNonneg (a : Weight) : Prop := a.isNaN = false ∧ ¬ a < 0.0

theorem isNonneg_iff : IsNonneg a ↔ ∃ x : Nat, a.value? = some (x : Int) := by
  constructor
  · rintro ⟨hnan, hlt⟩
    obtain ⟨x, hx⟩ := isNaN_eq_false_iff.1 hnan
    have hx0 : 0 ≤ x := by
      by_contra hneg
      exact hlt (lt_iff.2 ⟨x, 0, hx, value?_zero, Int.not_le.1 hneg⟩)
    exact ⟨x.toNat, by rw [hx, Int.toNat_of_nonneg hx0]⟩
  · rintro ⟨x, hx⟩
    refine ⟨isNaN_eq_false_iff.2 ⟨x, hx⟩, ?_⟩
    rw [lt_iff]
    rintro ⟨x', y, hx', hy, hxy⟩
    obtain rfl : (x : Int) = x' := Option.some.inj (hx.symm.trans hx')
    obtain rfl : (0 : Int) = y := Option.some.inj (value?_zero.symm.trans hy)
    omega

theorem isNonneg_zero : IsNonneg 0.0 := isNonneg_iff.2 ⟨0, value?_zero⟩

theorem isNonneg_infinity : IsNonneg (1.0 / 0.0) := isNonneg_iff.2 ⟨top, value?_infinity⟩

theorem IsNonneg.add (ha : IsNonneg a) (hw : IsNonneg w) : IsNonneg (a + w) := by
  obtain ⟨x, hx⟩ := isNonneg_iff.1 ha
  obtain ⟨y, hy⟩ := isNonneg_iff.1 hw
  exact isNonneg_iff.2 ⟨_, value?_add hx hy⟩

theorem add_le_add_right (ha : IsNonneg a) (hb : IsNonneg b) (hw : IsNonneg w) (h : a ≤ b) : a + w ≤ b + w := by
  obtain ⟨x, hx⟩ := isNonneg_iff.1 ha
  obtain ⟨y, hy⟩ := isNonneg_iff.1 hb
  obtain ⟨z, hz⟩ := isNonneg_iff.1 hw
  have hxy : x ≤ y := by
    obtain ⟨x', y', hx', hy', hxy⟩ := le_iff.1 h
    obtain rfl : (x : Int) = x' := Option.some.inj (hx.symm.trans hx')
    obtain rfl : (y : Int) = y' := Option.some.inj (hy.symm.trans hy')
    omega
  have hle := nearestValue_mono (Nat.add_le_add_right hxy z)
  exact le_iff.2 ⟨_, _, value?_add hx hz, value?_add hy hz, by omega⟩

theorem le_add_right (ha : IsNonneg a) (hw : IsNonneg w) : a ≤ a + w := by
  obtain ⟨x, hx⟩ := isNonneg_iff.1 ha
  obtain ⟨z, hz⟩ := isNonneg_iff.1 hw
  have hle := nearestValue_mono (Nat.le_add_right x z)
  rw [nearestValue_of_value? hx] at hle
  exact le_iff.2 ⟨_, _, hx, value?_add hx hz, by omega⟩

/-! ### Zeros -/

/-- A number that is not negative, nor the negative zero: its value determines it. -/
def IsUnsigned (a : Weight) : Prop := IsNonneg a ∧ a ≠ -0.0

theorem eq_of_value?_eq {x : Nat} (hx : 0 < x) (ha : a.value? = some (x : Int)) (hb : b.value? = some (x : Int)) :
    a = b := by
  apply eq_of_unpack_eq
  rcases unpack_of_value? ha with ⟨hu, htop⟩ | ⟨-, hzero⟩ | ⟨m, e, hm, hu, hval, hlt, hge, hle, hc⟩
  · rcases unpack_of_value? hb with ⟨hu', -⟩ | ⟨-, hzero⟩ | ⟨m', e', hm', hu', hval', hlt', -, hle', -⟩
    · rw [hu, hu']
    · omega
    · have := scaled_lt_top hlt' hle'
      omega
  · omega
  · rcases unpack_of_value? hb with ⟨hu', htop⟩ | ⟨-, hzero⟩ | ⟨m', e', hm', hu', hval', hlt', hge', -, hc'⟩
    · have := scaled_lt_top hlt hle
      omega
    · omega
    · -- equal values have equal exponents and mantissas
      have hcompare := compare_scaled hlt hlt' hge hge' hc hc'
      rw [← hval, ← hval', compare_eq_iff_eq.2 rfl, Ordering.then_eq_eq] at hcompare
      obtain rfl : e = e' := compare_eq_iff_eq.1 hcompare.1
      obtain rfl : m = m' := compare_eq_iff_eq.1 hcompare.2
      rw [hu, hu']

theorem eq_zero_of_value? (h : a.value? = some 0) : a = 0.0 ∨ a = -0.0 := by
  rcases unpack_of_value? (x := 0) h with ⟨-, htop⟩ | ⟨⟨s, hu⟩, -⟩ | ⟨m, e, hm, -, hval, -⟩
  · have := top_pos
    omega
  · cases s with
    | positive => exact .inl (eq_of_unpack_eq hu)
    | negative => exact .inr (eq_of_unpack_eq hu)
  · have := scaled_pos hm e
    omega

theorem isUnsigned_zero : IsUnsigned 0.0 := ⟨isNonneg_zero, by decide⟩

theorem isUnsigned_infinity : IsUnsigned (1.0 / 0.0) := ⟨isNonneg_infinity, by decide⟩

theorem eq_of_le_of_le (ha : IsUnsigned a) (hb : IsUnsigned b) (hab : a ≤ b) (hba : b ≤ a) : a = b := by
  obtain ⟨x, hx⟩ := isNonneg_iff.1 ha.1
  obtain ⟨x', y, hx', hy, hxy⟩ := le_iff.1 hab
  obtain ⟨y', x'', hy', hx'', hyx⟩ := le_iff.1 hba
  rw [hx, Option.some.injEq] at hx' hx''
  rw [hy, Option.some.injEq] at hy'
  obtain rfl : y = x := by omega
  rcases Nat.eq_zero_or_pos x with rfl | hpos
  · rw [(eq_zero_of_value? hx).resolve_right ha.2, (eq_zero_of_value? hy).resolve_right hb.2]
  · exact eq_of_value?_eq hpos hx hy

/-- No sum is the negative zero whose first term is not. -/
theorem IsUnsigned.add (ha : IsUnsigned a) (hw : IsNonneg w) : IsUnsigned (a + w) := by
  refine ⟨ha.1.add hw, fun hzero => ?_⟩
  obtain ⟨x, hx⟩ := isNonneg_iff.1 ha.1
  obtain ⟨y, hy⟩ := isNonneg_iff.1 hw
  have hsum : ((nearestValue (x + y) : Nat) : Int) = 0 := by
    have hvalue : (-0.0 : Weight).value? = some 0 := by rfl
    rw [← hzero, value?_add hx hy] at hvalue
    exact Option.some.inj hvalue
  have hxle := nearestValue_mono (Nat.le_add_right x y)
  have hyle := nearestValue_mono (Nat.le_add_left y x)
  rw [nearestValue_of_value? hx] at hxle
  rw [nearestValue_of_value? hy] at hyle
  obtain rfl : x = 0 := by omega
  obtain rfl : y = 0 := by omega
  obtain rfl := (eq_zero_of_value? hx).resolve_right ha.2
  rcases eq_zero_of_value? hy with rfl | rfl
  · exact absurd hzero (by decide)
  · exact absurd hzero (by decide)

end WeightedGraph.Weight
