import WeightedGraph.Proofs.Weight.Rounding
import WeightedGraph.Weight

/-!
# Weights as integers

Every weight that is a number is a whole multiple of the least positive weight.  `Weight.value?` gives that
multiple, with `top` for infinity, so weights compare as their values (`lt_iff`).
-/

open Float.Model Float.Model.UnpackedFloat

namespace WeightedGraph.Weight

/-- The value of `m * 2 ^ e` in units of `2 ^ (-1074)`. -/
def scaled (m : Nat) (e : Int) : Nat := m * 2 ^ (e + 1074).toNat

/-- The number of binary digits of every finite value, at most. -/
def digits : Nat := 2098

/-- The value of infinity: the first power of two that is too large for a finite weight. -/
@[irreducible]
def top : Nat := 2 ^ digits

/-- What a finite weight looks like unpacked: 53 digits, or the least exponent. -/
def Canonical : UnpackedFloat → Prop
  | .finite _ m e _ => m < 2 ^ 53 ∧ -1074 ≤ e ∧ e ≤ 971 ∧ (2 ^ 52 ≤ m ∨ e = -1074)
  | _ => True

/-- The value of an unpacked weight, if it is a number. -/
def unpackedValue? : UnpackedFloat → Option Int
  | .notANumber => none
  | .infinity s => some (s.apply top)
  | .zero _ => some 0
  | .finite s m e _ => some (s.apply (scaled m e))

/-- The value of a weight in units of the least positive one, if it is a number. -/
def value? (a : Weight) : Option Int := unpackedValue? a.toModel.unpack

theorem scaled_pos {m : Nat} (h : 0 < m) (e : Int) : 0 < scaled m e :=
  Nat.mul_pos h (Nat.two_pow_pos _)

theorem scaled_lt_top {m : Nat} {e : Int} (hm : m < 2 ^ 53) (he : e ≤ 971) : scaled m e < top := by
  have hd : 53 + (e + 1074).toNat ≤ digits := by unfold digits; omega
  unfold top
  refine Nat.lt_of_lt_of_le ?_ (Nat.pow_le_pow_right (by decide) hd)
  rw [Nat.pow_add]
  exact Nat.mul_lt_mul_of_pos_right hm (Nat.two_pow_pos _)

/-- With the larger exponent comes the larger value. -/
theorem scaled_lt_scaled {m m' : Nat} {e e' : Int} (hm : m < 2 ^ 53) (he : -1074 ≤ e) (hlt : e < e')
    (hm' : 2 ^ 52 ≤ m' ∨ e' = -1074) : scaled m e < scaled m' e' := by
  have hm' : 2 ^ 52 ≤ m' := by omega
  unfold scaled
  calc
    m * 2 ^ (e + 1074).toNat < 2 ^ 53 * 2 ^ (e + 1074).toNat := Nat.mul_lt_mul_of_pos_right hm (Nat.two_pow_pos _)
    _ = 2 ^ 52 * 2 ^ ((e + 1074).toNat + 1) := by ring
    _ ≤ 2 ^ 52 * 2 ^ (e' + 1074).toNat := Nat.mul_le_mul_left _ (Nat.pow_le_pow_right (by decide) (by omega))
    _ ≤ m' * 2 ^ (e' + 1074).toNat := Nat.mul_le_mul_right _ hm'

/-- Exponents decide before mantissas. -/
theorem compare_scaled {m m' : Nat} {e e' : Int} (hm : m < 2 ^ 53) (hm' : m' < 2 ^ 53) (he : -1074 ≤ e)
    (he' : -1074 ≤ e') (hc : 2 ^ 52 ≤ m ∨ e = -1074) (hc' : 2 ^ 52 ≤ m' ∨ e' = -1074) :
    (Ord.compare e e').then (Ord.compare m m') = Ord.compare (scaled m e : Int) (scaled m' e') := by
  rcases lt_trichotomy e e' with h | rfl | h
  · have hs : Ord.compare (scaled m e : Int) (scaled m' e') = .lt :=
      compare_lt_iff_lt.2 (Int.ofNat_lt.2 (scaled_lt_scaled hm he h hc'))
    rw [hs, compare_lt_iff_lt.2 h]
    rfl
  · have hp : 0 < 2 ^ (e + 1074).toNat := Nat.two_pow_pos _
    rw [compare_eq_iff_eq.2 rfl]
    show Ord.compare m m' = _
    rcases lt_trichotomy m m' with h | rfl | h
    · have hs : scaled m e < scaled m' e := Nat.mul_lt_mul_of_pos_right h hp
      rw [compare_lt_iff_lt.2 h, compare_lt_iff_lt.2 (Int.ofNat_lt.2 hs)]
    · rw [compare_eq_iff_eq.2 rfl, compare_eq_iff_eq.2 rfl]
    · have hs : scaled m' e < scaled m e := Nat.mul_lt_mul_of_pos_right h hp
      rw [compare_gt_iff_gt.2 h, compare_gt_iff_gt.2 (Int.ofNat_lt.2 hs)]
  · have hs : Ord.compare (scaled m e : Int) (scaled m' e') = .gt :=
      compare_gt_iff_gt.2 (Int.ofNat_lt.2 (scaled_lt_scaled hm' he' h hc))
    rw [hs, compare_gt_iff_gt.2 h]
    rfl

/-- The order of two values, if both are there. -/
def compareValues : Option Int → Option Int → Option Ordering
  | some x, some y => some (Ord.compare x y)
  | _, _ => none

private theorem some_lt {x y : Int} (h : x < y) : some Ordering.lt = some (Ord.compare x y) :=
  congrArg some (compare_lt_iff_lt.2 h).symm

private theorem some_gt {x y : Int} (h : y < x) : some Ordering.gt = some (Ord.compare x y) :=
  congrArg some (compare_gt_iff_gt.2 h).symm

private theorem some_eq (x : Int) : some Ordering.eq = some (Ord.compare x x) :=
  congrArg some (compare_eq_iff_eq.2 rfl).symm

private theorem swap_compare (x y : Int) : (Ord.compare x y).swap = Ord.compare (-x) (-y) := by
  rcases lt_trichotomy x y with h | rfl | h
  · rw [compare_lt_iff_lt.2 h, compare_gt_iff_gt.2 (Int.neg_lt_neg h)]
    rfl
  · rw [compare_eq_iff_eq.2 rfl, compare_eq_iff_eq.2 rfl]
    rfl
  · rw [compare_gt_iff_gt.2 h, compare_lt_iff_lt.2 (Int.neg_lt_neg h)]
    rfl

theorem top_pos : 0 < top := by
  unfold top
  exact Nat.two_pow_pos _

/-- A finite weight lies strictly between the infinities. -/
theorem apply_scaled_bounds (s : Sign) {m : Nat} {e : Int} (hm : m < 2 ^ 53) (he : e ≤ 971) :
    -(top : Int) < s.apply (scaled m e) ∧ s.apply (scaled m e) < top := by
  have h := scaled_lt_top hm he
  cases s <;> simp only [Sign.apply] <;> omega

private theorem compare_infinity (s : Sign) {b : UnpackedFloat} (hb : Canonical b) :
    (UnpackedFloat.infinity s).compare b = compareValues (some (s.apply top)) (unpackedValue? b) := by
  have ht := top_pos
  cases b with
  | notANumber => cases s <;> rfl
  | infinity s' =>
    cases s <;> cases s'
    · exact some_eq _
    · exact some_lt (show -(top : Int) < top by omega)
    · exact some_gt (show -(top : Int) < top by omega)
    · exact some_eq _
  | zero s' =>
    cases s
    · exact some_lt (show -(top : Int) < 0 by omega)
    · exact some_gt (show (0 : Int) < top by omega)
  | finite s' m e hm =>
    have h := apply_scaled_bounds s' hb.1 hb.2.2.1
    cases s
    · exact some_lt h.1
    · exact some_gt h.2

private theorem compare_zero (s : Sign) {b : UnpackedFloat} (hb : Canonical b) :
    (UnpackedFloat.zero s).compare b = compareValues (some 0) (unpackedValue? b) := by
  have ht := top_pos
  cases b with
  | notANumber => rfl
  | infinity s' =>
    cases s'
    · exact some_gt (show -(top : Int) < 0 by omega)
    · exact some_lt (show (0 : Int) < top by omega)
  | zero s' => exact some_eq 0
  | finite s' m e hm =>
    have h := scaled_pos hm e
    cases s'
    · exact some_gt (show -(scaled m e : Int) < 0 by omega)
    · exact some_lt (show (0 : Int) < scaled m e by omega)

private theorem compare_finite (s : Sign) {m : Nat} {e : Int} (hm : 0 < m) {b : UnpackedFloat}
    (ha : Canonical (.finite s m e hm)) (hb : Canonical b) :
    (UnpackedFloat.finite s m e hm).compare b =
      compareValues (some (s.apply (scaled m e))) (unpackedValue? b) := by
  have h := scaled_pos hm e
  cases b with
  | notANumber => cases s <;> rfl
  | infinity s' =>
    have h := apply_scaled_bounds s ha.1 ha.2.2.1
    cases s'
    · cases s <;> exact some_gt h.1
    · cases s <;> exact some_lt h.2
  | zero s' =>
    cases s
    · exact some_lt (show -(scaled m e : Int) < 0 by omega)
    · exact some_gt (show (0 : Int) < scaled m e by omega)
  | finite s' m' e' hm' =>
    have h' := scaled_pos hm' e'
    have hc := compare_scaled ha.1 hb.1 ha.2.1 hb.2.1 ha.2.2.2 hb.2.2.2
    cases s <;> cases s'
    · show some ((Ord.compare e e').then (Ord.compare m m')).swap = some (Ord.compare (-_ : Int) (-_))
      rw [hc, swap_compare]
    · exact some_lt (show -(scaled m e : Int) < scaled m' e' by omega)
    · exact some_gt (show -(scaled m' e' : Int) < scaled m e by omega)
    · exact congrArg some hc

/-- Canonical weights compare as their values. -/
theorem compare_of_canonical {a b : UnpackedFloat} (ha : Canonical a) (hb : Canonical b) :
    a.compare b = compareValues (unpackedValue? a) (unpackedValue? b) := by
  cases a with
  | notANumber => rfl
  | infinity s => exact compare_infinity s hb
  | zero s => exact compare_zero s hb
  | finite s m e hm => exact compare_finite s hm ha hb

theorem toNat_implicit_append {m : BitVec 52} : (1#1 ++ m).toNat = 2 ^ 52 + m.toNat := by
  rw [BitVec.toNat_append, ← Nat.shiftLeft_add_eq_or_of_lt m.isLt]
  rfl

/-- Unpacked weights are canonical. -/
theorem canonical_unpack (a : Float.Model) : Canonical a.unpack := by
  have hm : (@unpackMantissa Format.binary64 a.toBits.toBitVec).toNat < 2 ^ 52 := BitVec.isLt _
  have he : (@unpackExponent Format.binary64 a.toBits.toBitVec).toNat < 2 ^ 11 := BitVec.isLt _
  unfold Float.Model.unpack UnpackedFloat.unpack
  simp only
  split
  · split <;> trivial
  · rename_i hmax
    have hmax : (@unpackExponent Format.binary64 a.toBits.toBitVec).toNat ≠ 2047 :=
      fun h => hmax (BitVec.eq_of_toNat_eq h)
    split
    · rename_i h0
      split
      · trivial
      · rw [Canonical, h0]
        refine ⟨?_, ?_, ?_, .inr ?_⟩ <;> simp [Format.exponentBias]
        omega
    · rename_i h0
      have h0 : (@unpackExponent Format.binary64 a.toBits.toBitVec).toNat ≠ 0 :=
        fun h => h0 (BitVec.eq_of_toNat_eq h)
      rw [Canonical, toNat_implicit_append]
      refine ⟨?_, ?_, ?_, .inl ?_⟩ <;> simp [Format.exponentBias] <;> omega

private theorem compare_unpack (a b : Weight) :
    a.toModel.unpack.compare b.toModel.unpack = compareValues a.value? b.value? :=
  compare_of_canonical (canonical_unpack _) (canonical_unpack _)

/-- Weights are ordered as their values, and what is not a number is not ordered. -/
theorem lt_iff {a b : Weight} : a < b ↔ ∃ x y, a.value? = some x ∧ b.value? = some y ∧ x < y := by
  have h : a < b ↔ compareValues a.value? b.value? = some .lt := by
    rw [← compare_unpack]
    show (decide (_ = true) = true) ↔ _
    rw [decide_eq_true_iff]
    exact beq_iff_eq
  rw [h]
  cases a.value? <;> cases b.value? <;> simp [compareValues, compare_lt_iff_lt]

theorem le_iff {a b : Weight} : a ≤ b ↔ ∃ x y, a.value? = some x ∧ b.value? = some y ∧ x ≤ y := by
  have h : a ≤ b ↔ (compareValues a.value? b.value?).any (·.isLE) = true := by
    rw [← compare_unpack]
    show (decide (_ = true) = true) ↔ _
    rw [decide_eq_true_iff]
    rfl
  rw [h]
  cases a.value? <;> cases b.value? <;> simp [compareValues, Int.isLE_compare]

theorem isNaN_eq_false_iff {a : Weight} : a.isNaN = false ↔ ∃ x, a.value? = some x := by
  show a.toModel.unpack.isNaN = false ↔ ∃ x, unpackedValue? a.toModel.unpack = some x
  cases a.toModel.unpack <;> simp [UnpackedFloat.isNaN, unpackedValue?]

theorem isFinite_iff {a : Weight} : a.isFinite = true ↔ ∃ x, a.value? = some x ∧ -top < x ∧ x < top := by
  show a.toModel.unpack.isFinite = true ↔ ∃ x, unpackedValue? a.toModel.unpack = some x ∧ _
  have ht := top_pos
  have hc := canonical_unpack a.toModel
  cases h : a.toModel.unpack with
  | notANumber => simp [UnpackedFloat.isFinite, unpackedValue?]
  | infinity s => cases s <;> simp [UnpackedFloat.isFinite, unpackedValue?, Sign.apply]
  | zero s => simpa [UnpackedFloat.isFinite, unpackedValue?] using ht
  | finite s m e hm =>
    rw [h] at hc
    simpa [UnpackedFloat.isFinite, unpackedValue?] using apply_scaled_bounds s hc.1 hc.2.2.1

theorem value?_zero : value? 0.0 = some 0 := by rfl

theorem value?_infinity : value? (1.0 / 0.0) = some (top : Int) := by rfl

end WeightedGraph.Weight
