import WeightedGraph.Proofs.Weight.Value

/-!
# Sums of weights

The sum of two weights that are not negative is the rounded sum of their values, or infinity if that is too
large (`value?_add`).  Rounding is monotone (`nearestValue_mono`) and moves no value of a weight
(`nearestValue_of_value?`).  The sum of finite weights of either sign is a number (`isNaN_add`).
-/

open Float.Model Float.Model.UnpackedFloat

namespace WeightedGraph.Weight

/-! ### Rounding a mantissa -/

private theorem shiftRight_succ (em : ExtendedMantissa) (k : Nat) :
    em >>> (k + 1) = (em >>> k).shiftRightOne := rfl

/-- Shifting keeps the first digit that is dropped and whether any other one is not zero. -/
private theorem shiftRight_exact (m k : Nat) :
    (⟨m, false, false⟩ : ExtendedMantissa) >>> (k + 1) =
      ⟨m / 2 ^ (k + 1), m / 2 ^ k % 2 != 0, m % 2 ^ k != 0⟩ := by
  induction k with
  | zero =>
    rw [shiftRight_succ]
    show ExtendedMantissa.shiftRightOne ⟨m, false, false⟩ = _
    simp [ExtendedMantissa.shiftRightOne, Nat.mod_one]
  | succ k ih =>
    have hmod : m % 2 ^ (k + 1) = m % 2 ^ k + 2 ^ k * (m / 2 ^ k % 2) := Nat.mod_pow_succ
    have hpos : 0 < 2 ^ k := Nat.two_pow_pos k
    rw [shiftRight_succ, ih, ExtendedMantissa.shiftRightOne, hmod, Nat.div_div_eq_div_mul, ← Nat.pow_succ]
    congr 1
    rcases Nat.mod_two_eq_zero_or_one (m / 2 ^ k) with h | h <;> simp [h]

/-- Rounding a shifted mantissa is rounding the quotient. -/
private theorem roundedMantissa_shiftRight (m k : Nat) :
    ((⟨m, false, false⟩ : ExtendedMantissa) >>> k).roundedMantissa = nearest m k := by
  cases k with
  | zero => exact (nearest_zero m).symm
  | succ k =>
    rw [shiftRight_exact, nearest_succ]
    by_cases h : m / 2 ^ k % 2 = 0 <;> by_cases h' : m % 2 ^ k = 0 <;>
      simp [bne, beq_eq_decide, h, h', ExtendedMantissa.roundedMantissa, ExtendedMantissa.accuracy,
        Accuracy.roundToNearestEven]

/-! ### Rounding a number -/

private theorem targetExponent_eq (m : Nat) (e : Int) :
    Format.binary64.targetExponent (totalExponent m e) = max (m.log2 + e - 52) (-1074) := by
  simp only [Format.targetExponent, totalExponent, Format.mantissaBits, Format.minExponent]
  norm_num
  omega

private theorem shiftToTargetExponent_eq (m : Nat) (e : Int) :
    shiftToTargetExponent Format.binary64 m e .exact =
      ((⟨m, false, false⟩ : ExtendedMantissa) >>> (max (m.log2 + e - 52) (-1074) - e).toNat,
        e + (max (m.log2 + e - 52) (-1074) - e).toNat) := by
  rw [shiftToTargetExponent, targetExponent_eq]
  rfl

/-- A rounded mantissa keeps its place, unless it has a digit too many. -/
private theorem shiftToTargetExponent_of_le {m : Nat} {e : Int} (hm : m ≤ 2 ^ 53) (he : -1074 ≤ e) :
    ∃ m' e' r s, shiftToTargetExponent Format.binary64 m e .exact = (⟨m', r, s⟩, e') ∧
      m' < 2 ^ 53 ∧ (e' = e ∧ m' = m ∨ e' = e + 1 ∧ m' = 2 ^ 52 ∧ m = 2 ^ 53) := by
  rw [shiftToTargetExponent_eq]
  rcases Nat.lt_or_ge m (2 ^ 53) with h | h
  · have hlog : m.log2 ≤ 52 := by
      by_cases h0 : m = 0
      · simp [h0]
      · have := (Nat.log2_lt h0).2 h
        omega
    have hs : (max (m.log2 + e - 52) (-1074) - e).toNat = 0 := by omega
    rw [hs]
    exact ⟨m, e, false, false, by simp; rfl, h, .inl ⟨rfl, rfl⟩⟩
  · have h : m = 2 ^ 53 := by omega
    subst h
    have hs : (max ((2 ^ 53 : Nat).log2 + e - 52) (-1074) - e).toNat = 1 := by
      rw [Nat.log2_two_pow]
      omega
    rw [hs]
    exact ⟨2 ^ 52, e + 1, false, false, rfl, by decide, .inr ⟨rfl, rfl, rfl⟩⟩

private theorem log2_mul_two_pow {m : Nat} (hm : 0 < m) (k : Nat) : (m * 2 ^ k).log2 = m.log2 + k := by
  have hpos : 0 < m * 2 ^ k := Nat.mul_pos hm (Nat.two_pow_pos k)
  rw [Nat.log2_eq_iff hpos.ne', Nat.add_right_comm, Nat.pow_add, Nat.pow_add]
  exact ⟨Nat.mul_le_mul_right _ (Nat.log2_self_le hm.ne'),
    Nat.mul_lt_mul_of_pos_right Nat.lt_log2_self (Nat.two_pow_pos k)⟩

private theorem scaled_shiftLeft (m j : Nat) {e : Int} (he : -1074 ≤ e - j) :
    scaled (m <<< j) (e - j) = scaled m e := by
  have h : (e + 1074).toNat = j + (e - j + 1074).toNat := by omega
  rw [scaled, scaled, h, Nat.shiftLeft_eq, Nat.pow_add, Nat.mul_assoc]

/-- A mantissa with all the digits that the result needs is rounded as its value. -/
private theorem roundWithAccuracy_eq (s : Sign) {m : Nat} (hm : 0 < m) {e : Int} (he : -1074 ≤ e)
    (hle : e ≤ max (m.log2 + e - 52) (-1074)) :
    ∃ m' e' h, roundWithAccuracy Format.binary64 s m e .exact = .finite s m' e' h ∧
      m' < 2 ^ 53 ∧ -1074 ≤ e' ∧ (2 ^ 52 ≤ m' ∨ e' = -1074) ∧ scaled m' e' = rounded (scaled m e) := by
  generalize hk : (max (m.log2 + e - 52) (-1074) - e).toNat = k
  have hx : excess (scaled m e) = (e + 1074).toNat + k := by
    rw [excess, scaled, log2_mul_two_pow hm]
    omega
  have hr : nearest (scaled m e) (excess (scaled m e)) = nearest m k := by
    rw [hx, scaled, nearest_mul_two_pow_add]
  have hval : scaled (nearest m k) (e + k) = rounded (scaled m e) := by
    rw [rounded, hr, hx, scaled]
    congr 2
    omega
  have hmax : nearest m k ≤ 2 ^ 53 := hr ▸ nearest_excess_le _
  have hpos : 0 < nearest m k := by
    -- one is kept as it is, and nothing larger is rounded to less
    by_contra h0
    have h1 : rounded 1 ≤ rounded (scaled m e) := rounded_mono (scaled_pos hm e)
    have h2 : rounded 1 = 1 := by decide
    rw [← hval, Nat.eq_zero_of_not_pos h0, scaled, Nat.zero_mul, h2] at h1
    exact absurd h1 (by decide)
  have hnorm : 2 ^ 52 ≤ nearest m k ∨ e + k = -1074 := by
    by_cases h0 : 0 < excess (scaled m e)
    · exact .inl (hr ▸ le_nearest_excess h0)
    · exact .inr (by omega)
  -- rounding up may have made a digit too many, which is zero and dropped by the second shift
  obtain ⟨m', e', r, t, hs, hm', hcase⟩ := shiftToTargetExponent_of_le hmax (show -1074 ≤ e + (k : Int) by omega)
  have hpos' : 0 < m' := by omega
  refine ⟨m', e', hpos', ?_, hm', by omega, by omega, ?_⟩
  · unfold roundWithAccuracy
    rw [shiftToTargetExponent_eq, hk]
    simp only [roundedMantissa_shiftRight, hs]
    rw [dif_neg hpos'.ne']
  · rw [← hval]
    rcases hcase with ⟨rfl, rfl⟩ | ⟨rfl, rfl, h⟩
    · rfl
    · have he' : (e + k + 1 + 1074).toNat = (e + k + 1074).toNat + 1 := by omega
      rw [h, scaled, scaled, he']
      ring

/-- A number of either sign is rounded as its value. -/
private theorem round_eq (s : Sign) {m : Nat} (hm : 0 < m) {e : Int} (he : -1074 ≤ e) :
    ∃ m' e' h, UnpackedFloat.round Format.binary64 s m e = .finite s m' e' h ∧
      m' < 2 ^ 53 ∧ -1074 ≤ e' ∧ (2 ^ 52 ≤ m' ∨ e' = -1074) ∧ scaled m' e' = rounded (scaled m e) := by
  generalize hj : (e - max (m.log2 + e - 52) (-1074)).toNat = j
  have hround : UnpackedFloat.round Format.binary64 s m e =
      roundWithAccuracy Format.binary64 s (m <<< j) (e - j) .exact := by
    rw [UnpackedFloat.round, targetExponent_eq, decreaseExponent, hj]
  have hlog : (m <<< j).log2 = m.log2 + j := by rw [Nat.shiftLeft_eq, log2_mul_two_pow hm]
  have hpos : 0 < m <<< j := by
    rw [Nat.shiftLeft_eq]
    exact Nat.mul_pos hm (Nat.two_pow_pos j)
  rw [hround, ← scaled_shiftLeft m j (by omega)]
  exact roundWithAccuracy_eq s hpos (by omega) (by rw [hlog]; omega)

/-! ### Packing what has been rounded -/

private theorem unpackSign_packComponents (spec : Format) (s : Sign) (e : BitVec spec.exponentBits)
    (m : BitVec spec.mantissaBitsWithoutImplicit) :
    Sign.ofBitVec (unpackSign (packComponents spec s e m)) = s := by
  have h : unpackSign (packComponents spec s e m) = s.toBitVec := by
    ext i hi
    obtain rfl : i = 0 := by omega
    simp [unpackSign, packComponents, BitVec.getLsbD_append, BitVec.getElem_append]
  rw [h]
  cases s <;> rfl

private theorem unpack_packedInfinity (s : Sign) :
    UnpackedFloat.unpack Format.binary64 (packedInfinity Format.binary64 s) = .infinity s := by
  unfold UnpackedFloat.unpack packedInfinity
  simp only [unpackMantissa_packComponents, unpackExponent_packComponents, unpackSign_packComponents]
  simp

private theorem unpack_normal (s : Sign) {m : Nat} {e : Int} (hm : 0 < m) (h1 : 2 ^ 52 ≤ m) (h2 : m < 2 ^ 53)
    (he : -1074 ≤ e) (he' : e ≤ 971) :
    UnpackedFloat.unpack Format.binary64
      (packComponents Format.binary64 s (BitVec.ofNat _ (e + 1075).toNat) (BitVec.ofNat _ m)) =
        .finite s m e hm := by
  have hexp : (BitVec.ofNat 11 (e + 1075).toNat).toNat = (e + 1075).toNat := by
    rw [BitVec.toNat_ofNat, Nat.mod_eq_of_lt (by omega)]
  -- the exponent is neither that of infinity nor that of numbers with fewer digits
  have hmax : BitVec.ofNat 11 (e + 1075).toNat ≠ -1#11 := by
    intro h
    have := congrArg BitVec.toNat h
    rw [hexp, show (-1#11).toNat = 2047 from rfl] at this
    omega
  have hzero : BitVec.ofNat 11 (e + 1075).toNat ≠ 0#11 := by
    intro h
    have := congrArg BitVec.toNat h
    rw [hexp, show (0#11).toNat = 0 from rfl] at this
    omega
  have hman : 2 ^ 52 + (BitVec.ofNat 52 m).toNat = m := by
    rw [BitVec.toNat_ofNat]
    omega
  unfold UnpackedFloat.unpack
  simp only [unpackMantissa_packComponents, unpackExponent_packComponents, unpackSign_packComponents,
    hmax, hzero, if_false, toNat_implicit_append, hexp, hman]
  congr 1
  simp only [Format.exponentBias]
  omega

private theorem unpack_subnormal (s : Sign) {m : Nat} (hm : 0 < m) (h : m < 2 ^ 52) :
    UnpackedFloat.unpack Format.binary64
      (packComponents Format.binary64 s 0#11 (BitVec.ofNat _ m)) = .finite s m (-1074) hm := by
  have hman : (BitVec.ofNat 52 m).toNat = m := by
    rw [BitVec.toNat_ofNat]
    omega
  have hzero : BitVec.ofNat 52 m ≠ 0#52 := by
    intro h
    have := congrArg BitVec.toNat h
    rw [hman, show (0#52).toNat = 0 from rfl] at this
    omega
  unfold UnpackedFloat.unpack
  simp only [unpackMantissa_packComponents, unpackExponent_packComponents, unpackSign_packComponents, hzero,
    show (0#11 : BitVec 11) ≠ -1#11 by decide, if_false, if_true, dif_neg, not_false_eq_true, hman]
  rfl

private theorem unpack_pack_zero (s : Sign) : (Float.Model.pack (.zero s)).unpack = .zero s := by
  cases s <;> rfl

private theorem unpack_pack_infinity (s : Sign) : (Float.Model.pack (.infinity s)).unpack = .infinity s := by
  cases s <;> rfl

/-- What has been rounded is packed as it is, unless it is too large. -/
private theorem unpack_pack_finite (s : Sign) {m : Nat} {e : Int} (hm : 0 < m) (h : m < 2 ^ 53)
    (he : -1074 ≤ e) (hc : 2 ^ 52 ≤ m ∨ e = -1074) :
    (Float.Model.pack (.finite s m e hm)).unpack = if e ≤ 971 then .finite s m e hm else .infinity s := by
  show UnpackedFloat.unpack Format.binary64 (UnpackedFloat.pack Format.binary64 (.finite s m e hm)) = _
  have hb : e + Format.binary64.exponentBias + Format.binary64.mantissaBitsWithoutImplicit = e + 1075 := by
    simp only [Format.exponentBias]
    omega
  have hexp : 2 ^ Format.binary64.exponentBits = 2048 := rfl
  have hbits : Format.binary64.mantissaBits = 53 := rfl
  unfold UnpackedFloat.pack
  simp only [hb, hexp, hbits]
  by_cases hmax : e ≤ 971
  · rw [if_neg (by omega), if_pos hmax]
    rcases Nat.lt_or_ge m (2 ^ 52) with hlt | hge
    · have hlog := (Nat.log2_lt hm.ne').2 hlt
      obtain rfl : e = -1074 := by omega
      rw [if_neg (by omega)]
      exact unpack_subnormal s hm hlt
    · have hlog : m.log2 = 52 := (Nat.log2_eq_iff hm.ne').2 ⟨hge, h⟩
      rw [if_pos (by omega)]
      exact unpack_normal s hm hge h he hmax
  · rw [if_pos (by omega), if_neg hmax]
    exact unpack_packedInfinity s

/-- The value of the weight nearest to a number. -/
def nearestValue (n : Nat) : Nat := min (rounded n) top

theorem nearestValue_mono {m n : Nat} (h : m ≤ n) : nearestValue m ≤ nearestValue n := by
  have := rounded_mono h
  unfold nearestValue
  omega

theorem nearestValue_scaled {m : Nat} {e : Int} (hm : m < 2 ^ 53) (he : e ≤ 971) :
    nearestValue (scaled m e) = scaled m e := by
  have h : rounded (scaled m e) = scaled m e := rounded_mul_two_pow hm _
  have := scaled_lt_top hm he
  unfold nearestValue
  omega

theorem nearestValue_of_top_le {n : Nat} (h : top ≤ n) : nearestValue n = top := by
  have htop : rounded (1 * 2 ^ digits) = 1 * 2 ^ digits := rounded_mul_two_pow (by decide) _
  rw [Nat.one_mul] at htop
  have hmono := rounded_mono h
  unfold nearestValue
  unfold top at hmono ⊢
  omega

private theorem unpackedValue?_pack_finite {m : Nat} {e : Int} (hm : 0 < m) (h : m < 2 ^ 53) (he : -1074 ≤ e)
    (hc : 2 ^ 52 ≤ m ∨ e = -1074) :
    unpackedValue? (Float.Model.pack (.finite .positive m e hm)).unpack =
      some ((min (scaled m e) top : Nat) : Int) := by
  rw [unpack_pack_finite _ hm h he hc]
  by_cases hmax : e ≤ 971
  · have := scaled_lt_top h hmax
    rw [if_pos hmax, Nat.min_eq_left this.le]
    rfl
  · have hle : top ≤ scaled m e := by
      have hm' : 2 ^ 52 ≤ m := by omega
      have hd : digits ≤ 52 + (e + 1074).toNat := by unfold digits; omega
      calc
        top = 2 ^ digits := by unfold top; rfl
        _ ≤ 2 ^ (52 + (e + 1074).toNat) := Nat.pow_le_pow_right (by decide) hd
        _ = 2 ^ 52 * 2 ^ (e + 1074).toNat := Nat.pow_add ..
        _ ≤ m * 2 ^ (e + 1074).toNat := Nat.mul_le_mul_right _ hm'
    rw [if_neg hmax, Nat.min_eq_right hle]
    rfl

/-! ### Adding -/

/-- What a weight looks like unpacked whose value is not negative. -/
theorem unpack_of_value? {a : Weight} {x : Nat} (h : a.value? = some (x : Int)) :
    a.toModel.unpack = .infinity .positive ∧ x = top ∨ (∃ s, a.toModel.unpack = .zero s) ∧ x = 0 ∨
      ∃ m e hm, a.toModel.unpack = .finite .positive m e hm ∧ x = scaled m e ∧
        m < 2 ^ 53 ∧ -1074 ≤ e ∧ e ≤ 971 ∧ (2 ^ 52 ≤ m ∨ e = -1074) := by
  have hc := canonical_unpack a.toModel
  have ht := top_pos
  unfold value? at h
  cases hu : a.toModel.unpack with
  | notANumber => simp [hu, unpackedValue?] at h
  | infinity s =>
    cases s <;> simp only [hu, unpackedValue?, Sign.apply, Option.some.injEq] at h
    · omega
    · exact .inl ⟨rfl, by omega⟩
  | zero s =>
    simp only [hu, unpackedValue?, Option.some.injEq] at h
    exact .inr (.inl ⟨⟨s, rfl⟩, by omega⟩)
  | finite s m e hm =>
    rw [hu] at hc
    have hpos := scaled_pos hm e
    cases s <;> simp only [hu, unpackedValue?, Sign.apply, Option.some.injEq] at h
    · omega
    · exact .inr (.inr ⟨m, e, hm, rfl, by omega, hc⟩)

private theorem value?_add_eq (a b : Weight) :
    (a + b).value? = unpackedValue?
      (Float.Model.pack (UnpackedFloat.add Format.binary64 a.toModel.unpack b.toModel.unpack)).unpack :=
  rfl

/-- Both mantissas are moved to the smaller exponent before they are added. -/
private theorem unpackedValue?_pack_add_finite {m m' : Nat} {e e' : Int} (hm : 0 < m) (hm' : 0 < m')
    (he : -1074 ≤ e) (he' : -1074 ≤ e') :
    unpackedValue? (Float.Model.pack
      (UnpackedFloat.add Format.binary64 (.finite .positive m e hm) (.finite .positive m' e' hm'))).unpack =
        some ((nearestValue (scaled m e + scaled m' e') : Nat) : Int) := by
  generalize hk : min e e' = k
  have h1 : scaled (m <<< (e - k).toNat) k = scaled m e := by
    have := scaled_shiftLeft m (e - k).toNat (show -1074 ≤ e - ((e - k).toNat : Int) by omega)
    rwa [show e - ((e - k).toNat : Int) = k by omega] at this
  have h2 : scaled (m' <<< (e' - k).toNat) k = scaled m' e' := by
    have := scaled_shiftLeft m' (e' - k).toNat (show -1074 ≤ e' - ((e' - k).toNat : Int) by omega)
    rwa [show e' - ((e' - k).toNat : Int) = k by omega] at this
  generalize hM : m <<< (e - k).toNat + m' <<< (e' - k).toNat = M
  have hsum : scaled M k = scaled m e + scaled m' e' := by
    rw [← h1, ← h2, ← hM, scaled, scaled, scaled, Nat.add_mul]
  have hpos : 0 < M := by
    by_contra h0
    have := scaled_pos hm e
    rw [Nat.eq_zero_of_not_pos h0, scaled, Nat.zero_mul] at hsum
    omega
  have hadd : UnpackedFloat.add Format.binary64 (.finite .positive m e hm) (.finite .positive m' e' hm') =
      UnpackedFloat.round Format.binary64 .positive M k := by
    simp only [UnpackedFloat.add, decreaseExponent, Sign.apply, hk, UnpackedFloat.normalize]
    rw [← Int.natCast_add, hM, compare_gt_iff_gt.2 (Int.natCast_pos.2 hpos)]
    rfl
  obtain ⟨r, t, hr, hround, hlt, hge, hcase, hval⟩ := round_eq .positive hpos (show -1074 ≤ k by omega)
  rw [hadd, hround, unpackedValue?_pack_finite hr hlt hge hcase, hval, hsum, nearestValue]

private theorem unpackedValue?_pack_infinity {n : Nat} (h : top ≤ n) :
    unpackedValue? (Float.Model.pack (.infinity .positive)).unpack = some ((nearestValue n : Nat) : Int) := by
  rw [unpack_pack_infinity, nearestValue_of_top_le h]
  rfl

private theorem unpackedValue?_pack_zero (s : Sign) :
    unpackedValue? (Float.Model.pack (.zero s)).unpack = some ((nearestValue 0 : Nat) : Int) := by
  have h0 : nearestValue 0 = 0 := by
    unfold nearestValue
    rw [rounded_zero, Nat.zero_min]
  rw [unpack_pack_zero, h0]
  rfl

private theorem unpackedValue?_pack_canonical {m : Nat} {e : Int} (hm : 0 < m) (h : m < 2 ^ 53) (he : -1074 ≤ e)
    (he' : e ≤ 971) (hc : 2 ^ 52 ≤ m ∨ e = -1074) :
    unpackedValue? (Float.Model.pack (.finite .positive m e hm)).unpack =
      some ((nearestValue (scaled m e) : Nat) : Int) := by
  rw [unpack_pack_finite _ hm h he hc, if_pos he', nearestValue_scaled h he']
  rfl

/-- The value of a sum is the rounded sum of the values. -/
theorem value?_add {a b : Weight} {x y : Nat} (ha : a.value? = some (x : Int)) (hb : b.value? = some (y : Int)) :
    (a + b).value? = some ((nearestValue (x + y) : Nat) : Int) := by
  rw [value?_add_eq]
  rcases unpack_of_value? ha with ⟨hu, rfl⟩ | ⟨⟨s, hu⟩, rfl⟩ | ⟨m, e, hm, hu, rfl, hlt, hge, hle, hc⟩
  · -- infinity swallows what is added to it
    rw [hu]
    rcases unpack_of_value? hb with ⟨hu', rfl⟩ | ⟨⟨s', hu'⟩, rfl⟩ | ⟨m', e', hm', hu', rfl, -⟩ <;> rw [hu']
    · exact unpackedValue?_pack_infinity (Nat.le_add_right ..)
    · exact unpackedValue?_pack_infinity (Nat.le_add_right ..)
    · exact unpackedValue?_pack_infinity (Nat.le_add_right ..)
  · rw [hu, Nat.zero_add]
    rcases unpack_of_value? hb with ⟨hu', rfl⟩ | ⟨⟨s', hu'⟩, rfl⟩ | ⟨m', e', hm', hu', rfl, hlt, hge, hle, hc⟩ <;>
      rw [hu']
    · exact unpackedValue?_pack_infinity (Nat.le_refl _)
    · cases s <;> cases s' <;> exact unpackedValue?_pack_zero _
    · exact unpackedValue?_pack_canonical hm' hlt hge hle hc
  · rw [hu]
    rcases unpack_of_value? hb with ⟨hu', rfl⟩ | ⟨⟨s', hu'⟩, rfl⟩ | ⟨m', e', hm', hu', rfl, hlt', hge', -⟩ <;>
      rw [hu']
    · exact unpackedValue?_pack_infinity (Nat.le_add_left ..)
    · exact unpackedValue?_pack_canonical hm hlt hge hle hc
    · exact unpackedValue?_pack_add_finite hm hm' hge hge'

/-- A value is its own nearest value. -/
theorem nearestValue_of_value? {a : Weight} {x : Nat} (h : a.value? = some (x : Int)) : nearestValue x = x := by
  rcases unpack_of_value? h with ⟨-, rfl⟩ | ⟨-, rfl⟩ | ⟨m, e, -, -, rfl, hlt, -, hle, -⟩
  · exact nearestValue_of_top_le (Nat.le_refl _)
  · unfold nearestValue
    rw [rounded_zero, Nat.zero_min]
  · exact nearestValue_scaled hlt hle

/-! ### Finite weights of either sign -/

private theorem exists_unpackedValue?_pack_finite (s : Sign) {m : Nat} {e : Int} (hm : 0 < m) (h : m < 2 ^ 53)
    (he : -1074 ≤ e) (hc : 2 ^ 52 ≤ m ∨ e = -1074) :
    ∃ x, unpackedValue? (Float.Model.pack (.finite s m e hm)).unpack = some x := by
  rw [unpack_pack_finite s hm h he hc]
  split <;> exact ⟨_, rfl⟩

/-- What has been rounded is a number. -/
private theorem exists_unpackedValue?_pack_round (s : Sign) {m : Nat} (hm : 0 < m) {e : Int} (he : -1074 ≤ e) :
    ∃ x, unpackedValue? (Float.Model.pack (UnpackedFloat.round Format.binary64 s m e)).unpack = some x := by
  obtain ⟨r, t, hr, hround, hlt, hge, hcase, -⟩ := round_eq s hm he
  rw [hround]
  exact exists_unpackedValue?_pack_finite s hr hlt hge hcase

private theorem exists_unpackedValue?_pack_normalize (x : Int) {e : Int} (he : -1074 ≤ e) (s : Sign) :
    ∃ y, unpackedValue? (Float.Model.pack (UnpackedFloat.normalize Format.binary64 x e s)).unpack = some y := by
  unfold UnpackedFloat.normalize
  cases hx : Ord.compare x 0 with
  | lt => exact exists_unpackedValue?_pack_round .negative (by have := compare_lt_iff_lt.1 hx; omega) he
  | eq => exact ⟨0, by rw [unpack_pack_zero]; rfl⟩
  | gt => exact exists_unpackedValue?_pack_round .positive (by have := compare_gt_iff_gt.1 hx; omega) he

/-- The sum of finite weights is a number, though it may be infinite. -/
theorem isNaN_add {a b : Weight} (ha : a.isFinite = true) (hb : b.isFinite = true) : (a + b).isNaN = false := by
  rw [isNaN_eq_false_iff, value?_add_eq]
  have hca := canonical_unpack a.toModel
  have hcb := canonical_unpack b.toModel
  have ha : a.toModel.unpack.isFinite = true := ha
  have hb : b.toModel.unpack.isFinite = true := hb
  generalize a.toModel.unpack = ua at ha hca
  generalize b.toModel.unpack = ub at hb hcb
  cases ua with
  | notANumber | infinity => contradiction
  | zero s =>
    cases ub with
    | notANumber | infinity => contradiction
    | zero t => cases s <;> cases t <;> exact ⟨0, rfl⟩
    | finite t m e hm => exact exists_unpackedValue?_pack_finite t hm hcb.1 hcb.2.1 hcb.2.2.2
  | finite s m e hm =>
    cases ub with
    | notANumber | infinity => contradiction
    | zero t => exact exists_unpackedValue?_pack_finite s hm hca.1 hca.2.1 hca.2.2.2
    | finite t m' e' hm' =>
      have hmin : -1074 ≤ min e e' := le_min hca.2.1 hcb.2.1
      simp only [UnpackedFloat.add, decreaseExponent]
      exact exists_unpackedValue?_pack_normalize _ hmin _

end WeightedGraph.Weight
