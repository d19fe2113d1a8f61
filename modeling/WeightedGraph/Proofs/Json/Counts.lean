import Mathlib
import WeightedGraph.Json.Numbers
import WeightedGraph.Proofs.Json.Strings

/-!
# How counts are written

A count is written with its decimal digits and nothing else.  A number is read as a whole number that is not negative
just if it is written so and 64 bits can hold it, and if what follows does not go on with the number
(`readNumber_eq_natural_iff`).
-/

namespace WeightedGraph.Json

variable {cs ds rest : List Char} {n significand : Nat} {isNegative : Bool}

/-- No number goes on with the rest of a text: neither with a digit nor with a fraction nor with an exponent. -/
def EndsNumber (rest : List Char) : Prop :=
  ∀ c ∈ rest.head?, c.isDigit = false ∧ c ≠ '.' ∧ isExponentMark c = false

/-! ### Digits -/

theorem digitChar_digitValue {c : Char} (h : c.isDigit = true) : (digitValue c).digitChar = c ∧ digitValue c < 10 := by
  have hc : Char.ofNat c.toNat = c := Char.ofNat_toNat c
  obtain ⟨hlow, hhigh⟩ : 48 ≤ c.toNat ∧ c.toNat ≤ 57 := Char.isDigit_iff_toNat.1 h
  rw [← hc]
  generalize c.toNat = m at hlow hhigh
  interval_cases m <;> decide

/-- Digits without a superfluous zero in front are those of the number that they make. -/
theorem toDigits_ofDigitChars (hne : ds ≠ []) (hdigits : ∀ c ∈ ds, c.isDigit = true)
    (hzero : ds.head? = some '0' → ds.length = 1) : Nat.toDigits 10 (Nat.ofDigitChars 10 ds 0) = ds := by
  induction ds using List.reverseRecOn with
  | nil => contradiction
  | append_singleton ds c ih =>
    obtain ⟨hc, hlt⟩ := digitChar_digitValue (hdigits c (by simp))
    have hlast : Nat.toDigits 10 (digitValue c) = [c] := by rw [Nat.toDigits_of_lt_base hlt, hc]
    have hvalue : Nat.ofDigitChars 10 (ds ++ [c]) 0 = 10 * Nat.ofDigitChars 10 ds 0 + digitValue c := by
      rw [Nat.ofDigitChars_append, Nat.ofDigitChars_cons, Nat.ofDigitChars_nil]
      rfl
    rw [hvalue]
    cases ds with
    | nil => simpa using hlast
    | cons d ds =>
      have hd : (d :: ds).head? ≠ some '0' := by
        intro hhead
        have := hzero hhead
        simp at this
      have hfront := ih (List.cons_ne_nil d ds) (fun c hc => hdigits c (List.mem_append_left _ hc))
        (fun hhead => absurd hhead hd)
      -- the digits in front make no zero, or they would be its only digit
      have hpos : 0 < Nat.ofDigitChars 10 (d :: ds) 0 := by
        refine Nat.pos_of_ne_zero fun hvalue => hd ?_
        rw [← hfront, hvalue]
        rfl
      rw [← Nat.toDigits_append_toDigits (by decide) hpos hlt, hfront, hlast]

theorem isDigit_of_mem_toDigits {c : Char} (h : c ∈ Nat.toDigits 10 n) : c.isDigit = true :=
  Nat.isDigit_of_mem_toDigits (by decide) (by decide) h

/-- Only zero is written with a zero in front. -/
theorem eq_zero_of_head?_toDigits (h : (Nat.toDigits 10 n).head? = some '0') : n = 0 := by
  induction n using Nat.strong_induction_on with
  | _ n ih =>
    rw [Nat.toDigits_eq_if (by decide)] at h
    split_ifs at h with hn
    · exact Nat.digitChar_eq_zero.1 (Option.some.inj h)
    · rw [List.head?_append_of_ne_nil _ Nat.toDigits_ne_nil] at h
      have := ih (n / 10) (by omega) h
      omega

theorem le_maxCount_iff : n ≤ Allocation.maxCount ↔ n < 2 ^ 64 := by
  have hmax : Allocation.maxCount = 2 ^ 64 - 1 := rfl
  omega

/-- A number is taken up whole just if it is small enough. -/
theorem absorb_eq_iff (hs : significand ≤ Allocation.maxCount) :
    absorb significand ds = (n, 0) ↔ Nat.ofDigitChars 10 ds significand = n ∧ n ≤ Allocation.maxCount := by
  induction ds generalizing significand with
  | nil =>
    simp only [absorb, Nat.ofDigitChars_nil, Prod.mk.injEq, and_true]
    constructor
    · rintro rfl
      exact ⟨rfl, hs⟩
    · exact And.left
  | cons c ds ih =>
    have hlonger : 10 * significand + (c.toNat - '0'.toNat) = significand * 10 + digitValue c := by
      rw [Nat.mul_comm]
      rfl
    rw [Nat.ofDigitChars_cons, hlonger, absorb]
    split
    · rename_i hlarge
      -- further digits only make the number larger
      have hle : significand * 10 + digitValue c ≤ Nat.ofDigitChars 10 ds (significand * 10 + digitValue c) := by
        rw [Nat.ofDigitChars_eq_ofDigitChars_zero]
        have := Nat.one_le_pow ds.length 10 (by decide)
        nlinarith
      constructor
      · intro h
        simp at h
      · rintro ⟨rfl, hn⟩
        omega
    · rename_i hsmall
      exact ih (Nat.le_of_not_lt hsmall)

/-! ### Numbers -/

theorem readDigits_eq_ok_iff : readDigits cs = .ok (ds, rest) ↔
    ds ≠ [] ∧ (∀ c ∈ ds, c.isDigit = true) ∧ (∀ c ∈ rest.head?, c.isDigit = false) ∧ cs = ds ++ rest := by
  unfold readDigits
  constructor
  · intro h
    simp only [List.isEmpty_iff] at h
    split_ifs at h with hempty
    simp only [Except.ok.injEq, Prod.mk.injEq] at h
    obtain ⟨rfl, rfl⟩ := h
    refine ⟨hempty, fun c hc => List.mem_takeWhile_imp hc, fun c hc => ?_, List.takeWhile_append_dropWhile.symm⟩
    have := List.head?_dropWhile_not Char.isDigit cs
    simp_all
  · rintro ⟨hne, hds, hrest, rfl⟩
    obtain ⟨htake, hdrop⟩ : rest.takeWhile Char.isDigit = [] ∧ rest.dropWhile Char.isDigit = rest := by
      cases rest with
      | nil => exact ⟨rfl, rfl⟩
      | cons c rest =>
        have hc : ¬ c.isDigit = true := by simpa using hrest c rfl
        exact ⟨List.takeWhile_cons_of_neg hc, List.dropWhile_cons_of_neg hc⟩
    rw [List.takeWhile_append_of_pos hds, List.dropWhile_append_of_pos hds, htake, hdrop, List.append_nil]
    simp [hne]

theorem scaled_ne_natural {exponent : Int} : scaled isNegative significand exponent ≠ .ok (.natural n) := by
  unfold scaled
  split <;> simp

theorem readExponent_ne_natural {exponent : Int} :
    readExponent isNegative significand exponent cs ≠ .ok (.natural n, rest) := by
  intro h
  have hscaled {e : Int} {rest' : List Char} :
      (scaled isNegative significand e).bind (fun x => .ok (x, rest')) ≠ .ok (.natural n, rest) := by
    intro hbind
    obtain ⟨x, hx, hpair⟩ := bind_eq_ok_iff.1 hbind
    obtain ⟨rfl, -⟩ := Prod.mk.inj (Except.ok.inj hpair)
    exact scaled_ne_natural hx
  unfold readExponent at h
  split at h
  · split at h
    · obtain ⟨p, -, h⟩ := bind_eq_ok_iff.1 h
      exact hscaled h
    · exact hscaled h
  · exact hscaled h

theorem whole_eq_natural_iff {left : Nat} :
    whole isNegative significand left = .ok (.natural n) ↔ isNegative = false ∧ left = 0 ∧ significand = n := by
  unfold whole
  split_ifs with hleft hsign hlarge
  · simp [scaled_ne_natural, hleft]
  · simp_all
  · simp_all
  · simp_all

theorem EndsNumber.not_isDigit (h : EndsNumber rest) : ∀ c ∈ rest.head?, c.isDigit = false := fun c hc => (h c hc).1

/-- What is made of the digits of a number without a fraction and an exponent. -/
theorem bind_whole_eq_natural_iff {rest' : List Char} :
    (whole isNegative (absorb 0 ds).1 (absorb 0 ds).2).bind (fun x => .ok (x, rest')) = .ok (.natural n, rest) ↔
      isNegative = false ∧ absorb 0 ds = (n, 0) ∧ rest' = rest := by
  rw [bind_eq_ok_iff]
  constructor
  · rintro ⟨x, hx, hpair⟩
    obtain ⟨rfl, rfl⟩ := Prod.mk.inj (Except.ok.inj hpair)
    obtain ⟨hsign, hleft, hvalue⟩ := whole_eq_natural_iff.1 hx
    exact ⟨hsign, Prod.ext hvalue hleft, rfl⟩
  · rintro ⟨hsign, habsorb, rfl⟩
    rw [habsorb]
    exact ⟨_, whole_eq_natural_iff.2 ⟨hsign, rfl, rfl⟩, rfl⟩

theorem readUnsigned_eq_natural_iff : readUnsigned isNegative cs = .ok (.natural n, rest) ↔
    isNegative = false ∧ n ≤ Allocation.maxCount ∧ cs = Nat.toDigits 10 n ++ rest ∧ EndsNumber rest := by
  constructor
  · intro h
    simp only [readUnsigned, bind] at h
    obtain ⟨⟨ds, rest'⟩, hdigits, hwhole⟩ := bind_eq_ok_iff.1 h
    obtain ⟨hne, hds, hrest, rfl⟩ := readDigits_eq_ok_iff.1 hdigits
    split at hwhole
    · contradiction
    · rename_i hzero
      have hcount (hends : EndsNumber rest')
          (h : isNegative = false ∧ absorb 0 ds = (n, 0) ∧ rest' = rest) :
          isNegative = false ∧ n ≤ Allocation.maxCount ∧ ds ++ rest' = Nat.toDigits 10 n ++ rest ∧
            EndsNumber rest := by
        obtain ⟨hsign, habsorb, rfl⟩ := h
        obtain ⟨rfl, hn⟩ := (absorb_eq_iff (Nat.zero_le _)).1 habsorb
        rw [toDigits_ofDigitChars hne hds (by simpa using hzero)]
        exact ⟨hsign, hn, rfl, hends⟩
      simp only at hwhole
      -- a fraction or an exponent makes a float of the number, so that it ends with its digits
      split at hwhole
      · obtain ⟨p, -, hexponent⟩ := bind_eq_ok_iff.1 hwhole
        exact absurd hexponent readExponent_ne_natural
      · split at hwhole
        · exact absurd hwhole readExponent_ne_natural
        · rename_i c rest' hdot hmark
          refine hcount (fun d hd => ?_) (bind_whole_eq_natural_iff.1 hwhole)
          obtain rfl : c = d := Option.some.inj hd
          exact ⟨hrest c rfl, hdot, by simpa using hmark⟩
      · exact hcount (by simp [EndsNumber]) (bind_whole_eq_natural_iff.1 hwhole)
  · rintro ⟨rfl, hn, rfl, hrest⟩
    have hdigits : readDigits (Nat.toDigits 10 n ++ rest) = .ok (Nat.toDigits 10 n, rest) :=
      readDigits_eq_ok_iff.2 ⟨Nat.toDigits_ne_nil, fun c hc => isDigit_of_mem_toDigits hc, hrest.not_isDigit, rfl⟩
    have hzero : ¬ ((Nat.toDigits 10 n).head? = some '0' ∧ (Nat.toDigits 10 n).length ≠ 1) := by
      rintro ⟨hhead, hlength⟩
      rw [eq_zero_of_head?_toDigits hhead] at hlength
      exact hlength rfl
    have hwhole : (whole false (absorb 0 (Nat.toDigits 10 n)).1 (absorb 0 (Nat.toDigits 10 n)).2).bind
        (fun x => .ok (x, rest)) = .ok (.natural n, rest) :=
      bind_whole_eq_natural_iff.2 ⟨rfl, (absorb_eq_iff (Nat.zero_le _)).2 ⟨Nat.ofDigitChars_ten_toDigits, hn⟩, rfl⟩
    simp only [readUnsigned, bind, hdigits, Except.bind]
    rw [if_neg (by simpa using hzero)]
    split
    · exact absurd rfl (hrest '.' rfl).2.1
    · rename_i c rest hdot
      rw [if_neg (by simp [(hrest c rfl).2.2])]
      exact hwhole
    · exact hwhole

/-- A number is read as a whole number that is not negative just if it is written with the digits of a count. -/
theorem readNumber_eq_natural_iff : readNumber cs = .ok (.natural n, rest) ↔
    n ≤ Allocation.maxCount ∧ cs = Nat.toDigits 10 n ++ rest ∧ EndsNumber rest := by
  have hminus {cs : List Char} : '-' :: cs ≠ Nat.toDigits 10 n ++ rest := by
    intro h
    have hhead : (Nat.toDigits 10 n).head? = some '-' := by
      rw [← List.head?_append_of_ne_nil _ Nat.toDigits_ne_nil, ← h]
      rfl
    have hdigit := isDigit_of_mem_toDigits (List.mem_of_mem_head? hhead)
    contradiction
  unfold readNumber
  split
  · rw [readUnsigned_eq_natural_iff]
    simp [hminus]
  · rw [readUnsigned_eq_natural_iff]
    simp

end WeightedGraph.Json
