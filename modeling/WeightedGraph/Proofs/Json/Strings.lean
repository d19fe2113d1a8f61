import Mathlib
import WeightedGraph.Json.Characters

/-!
# How strings are written

A character between quotes stands for itself, or it is written as an escape: a letter, or the code unit or units of the
character (`Spelling`).  Reading gives back the characters of exactly the texts that are written so
(`readString_eq_ok_iff`).
-/

namespace WeightedGraph.Json

/-- The digit of a number below 16, in either case. -/
def IsHexDigit (k : Nat) (c : Char) : Prop := k < 16 ∧ (c = k.digitChar ∨ c = k.digitChar.toUpper)

instance (k : Nat) (c : Char) : Decidable (IsHexDigit k c) :=
  inferInstanceAs (Decidable (k < 16 ∧ (c = k.digitChar ∨ c = k.digitChar.toUpper)))

/-- The four hexadecimal digits of a number, the highest first. -/
inductive CodeUnit : Nat → List Char → Prop
  | digits {i j k l : Nat} {a b c d : Char} (ha : IsHexDigit i a) (hb : IsHexDigit j b) (hc : IsHexDigit k c)
    (hd : IsHexDigit l d) : CodeUnit (((i * 16 + j) * 16 + k) * 16 + l) [a, b, c, d]

/-- The letters that make an escape, each with the character that it stands for. -/
def letterEscapes : List (Char × Char) :=
  [('"', '"'), ('\\', '\\'), ('/', '/'), ('b', '\x08'), ('f', '\x0c'), ('n', '\n'), ('r', '\r'), ('t', '\t')]

/-- What stands for a character behind a backslash. -/
inductive Escape : Char → List Char → Prop
  | letter {c d : Char} (h : (d, c) ∈ letterEscapes) : Escape c [d]
  | single {c : Char} {ds : List Char} (h : CodeUnit c.toNat ds) : Escape c ('u' :: ds)
  /-- A character beyond the first 65536 takes a leading and a trailing surrogate. -/
  | pair {c : Char} {ds es : List Char} (hc : 0x10000 ≤ c.toNat)
    (hleading : CodeUnit (0xD800 + (c.toNat - 0x10000) / 0x400) ds)
    (htrailing : CodeUnit (0xDC00 + (c.toNat - 0x10000) % 0x400) es) : Escape c ('u' :: (ds ++ '\\' :: 'u' :: es))

/-- The ways to write a character between quotes. -/
inductive Spelling : Char → List Char → Prop
  | plain {c : Char} (hspace : ' ' ≤ c) (hquote : c ≠ '"') (hbackslash : c ≠ '\\') : Spelling c [c]
  | escaped {c : Char} {w : List Char} (h : Escape c w) : Spelling c ('\\' :: w)

/-- The ways to write characters between quotes, one after the other. -/
inductive Spellings : List Char → List Char → Prop
  | nil : Spellings [] []
  | cons {d : Char} {ds w ws : List Char} (h : Spelling d w) (hs : Spellings ds ws) : Spellings (d :: ds) (w ++ ws)

section

variable {α β : Type} {x : Except ReadError α} {b : β}

theorem bind_eq_ok_iff {f : α → Except ReadError β} : x.bind f = .ok b ↔ ∃ a, x = .ok a ∧ f a = .ok b := by
  cases x <;> simp [Except.bind]

theorem map_eq_ok_iff {f : α → β} : x.map f = .ok b ↔ ∃ a, x = .ok a ∧ f a = b := by
  cases x <;> simp [Except.map]

end

variable {c d : Char} {cs ds rest : List Char} {unit : Nat}

/-! ### Code units -/

theorem hexDigit?_eq_some_iff {k : Nat} : hexDigit? c = some k ↔ IsHexDigit k c := by
  constructor
  · intro h
    have hc : Char.ofNat c.toNat = c := Char.ofNat_toNat c
    unfold hexDigit? at h
    simp only [Bool.and_eq_true, decide_eq_true_eq, Char.le_def, UInt32.le_iff_toNat_le] at h
    change (if 48 ≤ c.toNat ∧ c.toNat ≤ 57 then some (c.toNat - 48)
      else if 97 ≤ c.toNat ∧ c.toNat ≤ 102 then some (c.toNat - 97 + 10)
      else if 65 ≤ c.toNat ∧ c.toNat ≤ 70 then some (c.toNat - 65 + 10) else none) = some k at h
    -- each range holds few numbers, which are gone through one by one
    rw [← hc]
    generalize c.toNat = m at h
    split_ifs at h with hdecimal hlower hupper
    · obtain ⟨hlow, hhigh⟩ := hdecimal
      rw [← Option.some.inj h]
      interval_cases m <;> decide
    · obtain ⟨hlow, hhigh⟩ := hlower
      rw [← Option.some.inj h]
      interval_cases m <;> decide
    · obtain ⟨hlow, hhigh⟩ := hupper
      rw [← Option.some.inj h]
      interval_cases m <;> decide
  · rintro ⟨hk, hc⟩
    have hboth : ∀ k < 16, hexDigit? k.digitChar = some k ∧ hexDigit? k.digitChar.toUpper = some k := by decide
    rcases hc with rfl | rfl
    · exact (hboth k hk).1
    · exact (hboth k hk).2

theorem CodeUnit.lt (h : CodeUnit unit ds) : unit < 0x10000 := by
  obtain ⟨⟨ha, -⟩, ⟨hb, -⟩, ⟨hc, -⟩, ⟨hd, -⟩⟩ := h
  omega

theorem readCodeUnit_eq_ok_iff :
    readCodeUnit cs = .ok (unit, rest) ↔ ∃ ds, CodeUnit unit ds ∧ cs = ds ++ rest := by
  constructor
  · intro h
    unfold readCodeUnit at h
    split at h
    · rename_i a b c d rest'
      split at h
      · rename_i unit' hunit
        obtain ⟨rfl, rfl⟩ : unit' = unit ∧ rest' = rest := by simpa using h
        simp only [codeUnit?, bind, Option.bind_eq_some_iff, pure, Option.some.injEq] at hunit
        obtain ⟨i, hi, j, hj, k, hk, l, hl, rfl⟩ := hunit
        rw [hexDigit?_eq_some_iff] at hi hj hk hl
        exact ⟨[a, b, c, d], .digits hi hj hk hl, rfl⟩
      · contradiction
    · split at h <;> contradiction
  · rintro ⟨ds, ⟨ha, hb, hc, hd⟩, rfl⟩
    rw [← hexDigit?_eq_some_iff] at ha hb hc hd
    simp [readCodeUnit, codeUnit?, ha, hb, hc, hd]

/-! ### Escapes -/

theorem isLeadingSurrogate_iff : isLeadingSurrogate unit = true ↔ 0xD800 ≤ unit ∧ unit < 0xDC00 := by
  simp [isLeadingSurrogate]

theorem isTrailingSurrogate_iff : isTrailingSurrogate unit = true ↔ 0xDC00 ≤ unit ∧ unit < 0xE000 := by
  simp [isTrailingSurrogate]

theorem toNat_ofNat_of_isValidChar {m : Nat} (h : m.isValidChar) : (Char.ofNat m).toNat = m := by
  rw [Char.toNat_ofNat, if_pos h]

/-- The number of a character is no surrogate. -/
theorem not_surrogate (c : Char) : ¬ (0xD800 ≤ c.toNat ∧ c.toNat < 0xE000) := by
  have hvalid : c.toNat.isValidChar := c.valid
  rcases hvalid with h | h <;> omega

/-- The character of a pair of surrogates is the one that they are made from. -/
theorem eq_ofNat_pair_iff {leading trailing : Nat} (hl : 0xD800 ≤ leading ∧ leading < 0xDC00)
    (ht : 0xDC00 ≤ trailing ∧ trailing < 0xE000) :
    c = Char.ofNat (0x10000 + (leading - 0xD800) * 0x400 + (trailing - 0xDC00)) ↔
      0x10000 ≤ c.toNat ∧ leading = 0xD800 + (c.toNat - 0x10000) / 0x400 ∧
        trailing = 0xDC00 + (c.toNat - 0x10000) % 0x400 := by
  obtain ⟨code, hcode⟩ : ∃ code, code = 0x10000 + (leading - 0xD800) * 0x400 + (trailing - 0xDC00) := ⟨_, rfl⟩
  -- a pair makes a number above all surrogates and below the end of the characters
  have hvalid : code.isValidChar := by
    right
    omega
  rw [← hcode]
  constructor
  · intro hc
    rw [hc, toNat_ofNat_of_isValidChar hvalid]
    omega
  · rintro ⟨hbeyond, hleading, htrailing⟩
    have hc : c.toNat = code := by omega
    rw [← hc, Char.ofNat_toNat]

theorem readTrailing_eq_ok_iff {leading : Nat} (hl : 0xD800 ≤ leading ∧ leading < 0xDC00) :
    readTrailing leading cs = .ok (c, rest) ↔
      0x10000 ≤ c.toNat ∧ leading = 0xD800 + (c.toNat - 0x10000) / 0x400 ∧
        ∃ es, CodeUnit (0xDC00 + (c.toNat - 0x10000) % 0x400) es ∧ cs = '\\' :: 'u' :: es ++ rest := by
  constructor
  · intro h
    unfold readTrailing at h
    split at h
    · contradiction
    · contradiction
    · split at h
      · contradiction
      · rename_i trailing rest' hunit
        obtain ⟨es, hes, rfl⟩ := readCodeUnit_eq_ok_iff.1 hunit
        split at h
        · rename_i hsurrogate
          rw [isTrailingSurrogate_iff] at hsurrogate
          simp only [Except.ok.injEq, Prod.mk.injEq] at h
          obtain ⟨hc, rfl⟩ := h
          obtain ⟨hbeyond, hleading, htrailing⟩ := (eq_ofNat_pair_iff hl hsurrogate).1 hc.symm
          rw [htrailing] at hes
          exact ⟨hbeyond, hleading, es, hes, rfl⟩
        · contradiction
    · contradiction
  · rintro ⟨hbeyond, hleading, es, hes, rfl⟩
    have hunit : readCodeUnit (es ++ rest) = .ok (_, rest) := readCodeUnit_eq_ok_iff.2 ⟨es, hes, rfl⟩
    have hsurrogate : 0xDC00 ≤ 0xDC00 + (c.toNat - 0x10000) % 0x400 ∧
        0xDC00 + (c.toNat - 0x10000) % 0x400 < 0xE000 := by omega
    have hc := (eq_ofNat_pair_iff hl hsurrogate).2 ⟨hbeyond, hleading, rfl⟩
    simp only [readTrailing, List.cons_append, hunit, if_pos (isTrailingSurrogate_iff.2 hsurrogate), ← hc]

theorem readUnicode_eq_ok_iff : readUnicode cs = .ok (c, rest) ↔ ∃ w, Escape c ('u' :: w) ∧ cs = w ++ rest := by
  constructor
  · intro h
    unfold readUnicode at h
    split at h
    · contradiction
    · rename_i unit rest' hunit
      obtain ⟨ds, hds, rfl⟩ := readCodeUnit_eq_ok_iff.1 hunit
      split_ifs at h with htrailing hleading
      · rw [isLeadingSurrogate_iff] at hleading
        obtain ⟨hbeyond, rfl, es, hes, rfl⟩ := (readTrailing_eq_ok_iff hleading).1 h
        exact ⟨ds ++ '\\' :: 'u' :: es, .pair hbeyond hds hes, (List.append_assoc ..).symm⟩
      · rw [isTrailingSurrogate_iff] at htrailing
        rw [isLeadingSurrogate_iff] at hleading
        have hlt := hds.lt
        have hvalid : unit.isValidChar := by
          unfold Nat.isValidChar
          omega
        simp only [Except.ok.injEq, Prod.mk.injEq] at h
        obtain ⟨rfl, rfl⟩ := h
        exact ⟨ds, .single (by rwa [toNat_ofNat_of_isValidChar hvalid]), rfl⟩
  · rintro ⟨w, h, rfl⟩
    generalize hw : 'u' :: w = w' at h
    cases h with
    | letter h =>
      obtain ⟨rfl, rfl⟩ := List.cons.inj hw
      simp [letterEscapes] at h
    | single h =>
      obtain ⟨-, rfl⟩ := List.cons.inj hw
      have hunit : readCodeUnit (w ++ rest) = .ok (_, rest) := readCodeUnit_eq_ok_iff.2 ⟨w, h, rfl⟩
      have hc := not_surrogate c
      have htrailing : ¬ isTrailingSurrogate c.toNat = true := by
        rw [isTrailingSurrogate_iff]
        omega
      have hleading : ¬ isLeadingSurrogate c.toNat = true := by
        rw [isLeadingSurrogate_iff]
        omega
      simp only [readUnicode, hunit, if_neg htrailing, if_neg hleading, Char.ofNat_toNat]
    | @pair ds es hbeyond hl ht =>
      obtain ⟨-, rfl⟩ := List.cons.inj hw
      have hlt : c.toNat < 0x110000 := by
        have hvalid : c.toNat.isValidChar := c.valid
        rcases hvalid with h | h <;> omega
      have hunit : readCodeUnit (ds ++ ('\\' :: 'u' :: es ++ rest)) = .ok (_, '\\' :: 'u' :: es ++ rest) :=
        readCodeUnit_eq_ok_iff.2 ⟨ds, hl, rfl⟩
      have hsurrogate : 0xD800 ≤ 0xD800 + (c.toNat - 0x10000) / 0x400 ∧
          0xD800 + (c.toNat - 0x10000) / 0x400 < 0xDC00 := by omega
      have htrailing : ¬ isTrailingSurrogate (0xD800 + (c.toNat - 0x10000) / 0x400) = true := by
        rw [isTrailingSurrogate_iff]
        omega
      have hpair : readTrailing _ ('\\' :: 'u' :: es ++ rest) = .ok (c, rest) :=
        (readTrailing_eq_ok_iff hsurrogate).2 ⟨hbeyond, rfl, es, ht, rfl⟩
      rw [List.append_assoc, readUnicode]
      simp only [hunit, if_neg htrailing, if_pos (isLeadingSurrogate_iff.2 hsurrogate), hpair]

/-- Two surrogates in either case make one character. -/
example : readUnicode ['d', '8', '3', 'D', '\\', 'u', 'D', 'E', '0', '0', '"'] = .ok ('😀', ['"']) := by rfl

theorem letterEscape?_eq_some_iff : letterEscape? d = some c ↔ (d, c) ∈ letterEscapes := by
  constructor
  · intro h
    unfold letterEscape? at h
    split at h <;> cases h <;> simp [letterEscapes]
  · intro h
    have hall : ∀ p ∈ letterEscapes, letterEscape? p.1 = some p.2 := by decide
    exact hall _ h

theorem readEscape_eq_ok_iff : readEscape cs = .ok (c, rest) ↔ ∃ w, Escape c w ∧ cs = w ++ rest := by
  constructor
  · intro h
    unfold readEscape at h
    split at h
    · contradiction
    · rename_i d cs
      split at h
      · subst d
        obtain ⟨w, hw, rfl⟩ := readUnicode_eq_ok_iff.1 h
        exact ⟨'u' :: w, hw, rfl⟩
      · split at h
        · rename_i hletter
          simp only [Except.ok.injEq, Prod.mk.injEq] at h
          obtain ⟨rfl, rfl⟩ := h
          exact ⟨[d], .letter (letterEscape?_eq_some_iff.1 hletter), rfl⟩
        · contradiction
  · rintro ⟨w, h, rfl⟩
    have hunicode {w : List Char} (h : Escape c ('u' :: w)) : readEscape ('u' :: w ++ rest) = .ok (c, rest) := by
      rw [List.cons_append, readEscape, if_pos rfl]
      exact readUnicode_eq_ok_iff.2 ⟨w, h, rfl⟩
    cases h with
    | @letter d h =>
      have hd : d ≠ 'u' := by
        rintro rfl
        simp [letterEscapes] at h
      rw [List.singleton_append, readEscape, if_neg hd, letterEscape?_eq_some_iff.2 h]
    | single h => exact hunicode (.single h)
    | pair hbeyond hl ht => exact hunicode (.pair hbeyond hl ht)

/-! ### Strings -/

theorem readCharacters_quote : readCharacters ('"' :: rest) = .ok ([], rest) := by
  rw [readCharacters]
  rfl

theorem readCharacters_of_spelling {w : List Char} (h : Spelling d w) :
    readCharacters (w ++ cs) = (readCharacters cs).map fun (ds, rest) => (d :: ds, rest) := by
  cases h with
  | plain hspace hquote hbackslash =>
    rw [List.singleton_append, readCharacters, if_neg hquote, if_neg hbackslash, if_neg (not_lt.2 hspace)]
  | @escaped w h =>
    have hread : readEscape (w ++ cs) = .ok (d, cs) := readEscape_eq_ok_iff.2 ⟨w, h, rfl⟩
    rw [List.cons_append, readCharacters, if_neg (by decide), if_pos rfl]
    split
    · rename_i hescape
      rw [hread] at hescape
      contradiction
    · rename_i hescape
      rw [hread] at hescape
      cases hescape
      rfl

/-- What is read ends at once, or it starts with a character that is written in front. -/
theorem readCharacters_cases (h : readCharacters cs = .ok (ds, rest)) :
    ds = [] ∧ cs = '"' :: rest ∨
      ∃ d w cs' es, Spelling d w ∧ cs = w ++ cs' ∧ readCharacters cs' = .ok (es, rest) ∧ ds = d :: es := by
  cases cs with
  | nil =>
    rw [readCharacters] at h
    contradiction
  | cons c cs =>
    rw [readCharacters] at h
    split_ifs at h with hquote hbackslash hcontrol
    · simp only [Except.ok.injEq, Prod.mk.injEq] at h
      obtain ⟨rfl, rfl⟩ := h
      exact .inl ⟨rfl, by rw [hquote]⟩
    · split at h
      · contradiction
      · rename_i d cs' hescape
        obtain ⟨w, hw, rfl⟩ := readEscape_eq_ok_iff.1 hescape
        obtain ⟨⟨es, rest'⟩, hes, hds⟩ := map_eq_ok_iff.1 h
        obtain ⟨rfl, rfl⟩ := Prod.mk.inj hds
        exact .inr ⟨d, '\\' :: w, cs', es, .escaped hw, by rw [hbackslash]; rfl, hes, rfl⟩
    · obtain ⟨⟨es, rest'⟩, hes, hds⟩ := map_eq_ok_iff.1 h
      obtain ⟨rfl, rfl⟩ := Prod.mk.inj hds
      exact .inr ⟨c, [c], cs, es, .plain (not_lt.1 hcontrol) hquote hbackslash, rfl, hes, rfl⟩

theorem readCharacters_eq_ok_iff :
    readCharacters cs = .ok (ds, rest) ↔ ∃ w, Spellings ds w ∧ cs = w ++ '"' :: rest := by
  constructor
  · intro h
    -- by induction on what has been read, since each character of it takes one spelling from the text
    induction ds generalizing cs with
    | nil =>
      rcases readCharacters_cases h with ⟨-, rfl⟩ | ⟨_, _, _, _, _, _, _, hds⟩
      · exact ⟨[], .nil, rfl⟩
      · contradiction
    | cons d ds ih =>
      rcases readCharacters_cases h with ⟨hds, -⟩ | ⟨d', w, cs', es, hw, rfl, hes, hds⟩
      · contradiction
      · obtain ⟨rfl, rfl⟩ := List.cons.inj hds
        obtain ⟨ws, hws, rfl⟩ := ih hes
        exact ⟨w ++ ws, .cons hw hws, (List.append_assoc ..).symm⟩
  · rintro ⟨w, h, rfl⟩
    induction h with
    | nil => exact readCharacters_quote
    | cons h _ ih =>
      rw [List.append_assoc, readCharacters_of_spelling h, ih]
      rfl

theorem readString_eq_ok_iff {s : String} :
    readString cs = .ok (s, rest) ↔ ∃ w, Spellings s.toList w ∧ cs = w ++ '"' :: rest := by
  rw [← readCharacters_eq_ok_iff, readString, map_eq_ok_iff]
  constructor
  · rintro ⟨⟨ds, rest'⟩, hds, h⟩
    obtain ⟨rfl, rfl⟩ := Prod.mk.inj h
    rw [hds, String.toList_ofList]
  · intro h
    exact ⟨_, h, by simp only [String.ofList_toList]⟩

end WeightedGraph.Json
