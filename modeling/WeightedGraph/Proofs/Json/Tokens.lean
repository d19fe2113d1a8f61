import WeightedGraph.Json.Values
import WeightedGraph.Proofs.Json.Counts

/-!
# Tokens of a document

A document is a row of tokens, with blanks around them as one likes (`Begins`).  The readers of values take the tokens
of a value from the front of a text and leave the rest: a count (`readCount_eq_ok_iff`), or a name in one of its two
forms (`readNamed_eq_ok_iff`).
-/

namespace WeightedGraph.Json

/-- The marks around and between values. -/
def marks : List Char := ['[', ']', '\x7b', '\x7d', ':', ',']

inductive Token
  | mark (c : Char) (h : c ∈ marks := by decide)
  | string (s : String)
  | count (n : Nat)
  | null

/-- The ways to write a token. -/
inductive Token.Written : Token → List Char → Prop
  | mark {c : Char} {h : c ∈ marks} : Written (.mark c h) [c]
  | string {s : String} {w : List Char} (h : Spellings s.toList w) : Written (.string s) ('"' :: (w ++ ['"']))
  | count (n : Nat) : Written (.count n) (Nat.toDigits 10 n)
  | null : Written .null ['n', 'u', 'l', 'l']

/-- A text begins with tokens, each with blanks in front of it or without, and goes on with a rest. -/
inductive Begins : List Char → List Token → List Char → Prop
  | nil {cs : List Char} : Begins cs [] cs
  | cons {blanks w cs rest : List Char} {t : Token} {ts : List Token} (hblanks : ∀ c ∈ blanks, isBlank c = true)
    (hw : t.Written w) (h : Begins cs ts rest) : Begins (blanks ++ (w ++ cs)) (t :: ts) rest

/-- The ways to write a name: as a string, or as an object that has it for its only key and `null` behind it. -/
inductive Named (s : String) : List Token → Prop
  | plain : Named s [.string s]
  | tagged : Named s [.mark '\x7b', .string s, .mark ':', .null, .mark '\x7d']

/-- One item or several, with commas between them. -/
inductive Separated {α : Type} (Item : α → List Token → Prop) : List α → List Token → Prop
  | last {a : α} {ts : List Token} (h : Item a ts) : Separated Item [a] ts
  | cons {a : α} {as : List α} {ts us : List Token} (h : Item a ts) (hs : Separated Item as us) :
    Separated Item (a :: as) (ts ++ .mark ',' :: us)

variable {cs mid rest : List Char} {c : Char} {t : Token} {ts us : List Token} {s : String} {n : Nat}

/-! ### Blanks -/

theorem exists_blanks (cs : List Char) : ∃ blanks, (∀ c ∈ blanks, isBlank c = true) ∧ cs = blanks ++ skipBlanks cs :=
  ⟨cs.takeWhile isBlank, fun _ hc => List.mem_takeWhile_imp hc, List.takeWhile_append_dropWhile.symm⟩

theorem skipBlanks_of_not_isBlank (h : isBlank c = false) : skipBlanks (c :: cs) = c :: cs :=
  List.dropWhile_cons_of_neg (by simp [h])

@[simp] theorem skipBlanks_skipBlanks (cs : List Char) : skipBlanks (skipBlanks cs) = skipBlanks cs :=
  List.dropWhile_idempotent ..

theorem not_isBlank_of_mem_marks (h : c ∈ marks) : isBlank c = false := by
  have hall : ∀ c ∈ marks, isBlank c = false := by simp [marks, isBlank]
  exact hall c h

/-- No number goes on with a text whose first token is a mark. -/
theorem endsNumber_of_skipBlanks (hc : c ∈ marks) (h : skipBlanks cs = c :: mid) : EndsNumber cs := by
  intro d hd
  cases cs with
  | nil => contradiction
  | cons x cs =>
    obtain rfl : x = d := Option.some.inj hd
    cases hx : isBlank x with
    | true =>
      simp only [isBlank, Bool.or_eq_true, decide_eq_true_eq] at hx
      obtain ((rfl | rfl) | rfl) | rfl := hx <;> decide
    | false =>
      rw [skipBlanks_of_not_isBlank hx] at h
      obtain rfl := (List.cons.inj h).1
      have hall : ∀ c ∈ marks, c.isDigit = false ∧ c ≠ '.' ∧ isExponentMark c = false := by
        simp [marks, isExponentMark, Char.isDigit]
      exact hall x hc

/-! ### Tokens -/

theorem Token.Written.head {w : List Char} (h : t.Written w) : ∃ c w', w = c :: w' ∧ isBlank c = false := by
  cases h with
  | @mark c h => exact ⟨_, _, rfl, not_isBlank_of_mem_marks h⟩
  | string h => exact ⟨_, _, rfl, rfl⟩
  | null => exact ⟨_, _, rfl, rfl⟩
  | count n =>
    obtain ⟨c, w, hw⟩ := List.exists_cons_of_ne_nil (Nat.toDigits_ne_nil (b := 10) (n := n))
    have hdigit := isDigit_of_mem_toDigits (hw ▸ List.mem_cons_self : c ∈ Nat.toDigits 10 n)
    refine ⟨c, w, hw, ?_⟩
    by_contra hblank
    simp only [Bool.not_eq_false, isBlank, Bool.or_eq_true, decide_eq_true_eq] at hblank
    obtain ((rfl | rfl) | rfl) | rfl := hblank <;> contradiction

theorem begins_nil_iff : Begins cs [] rest ↔ cs = rest := by
  constructor
  · rintro ⟨⟩
    rfl
  · rintro rfl
    exact .nil

theorem begins_cons_iff : Begins cs (t :: ts) rest ↔
    ∃ w mid, t.Written w ∧ skipBlanks cs = w ++ mid ∧ Begins mid ts rest := by
  constructor
  · intro h
    cases h with
    | @cons blanks w mid _ _ _ hblanks hw h =>
      obtain ⟨c, w', rfl, hc⟩ := hw.head
      refine ⟨c :: w', mid, hw, ?_, h⟩
      rw [skipBlanks, List.dropWhile_append_of_pos hblanks]
      exact skipBlanks_of_not_isBlank hc
  · rintro ⟨w, mid, hw, hcs, h⟩
    obtain ⟨blanks, hblanks, hcs'⟩ := exists_blanks cs
    rw [hcs', hcs]
    exact .cons hblanks hw h

theorem begins_append_iff : Begins cs (ts ++ us) rest ↔ ∃ mid, Begins cs ts mid ∧ Begins mid us rest := by
  induction ts generalizing cs with
  | nil =>
    simp only [List.nil_append, begins_nil_iff]
    exact ⟨fun h => ⟨cs, rfl, h⟩, fun ⟨_, hcs, h⟩ => hcs ▸ h⟩
  | cons t ts ih =>
    simp only [List.cons_append, begins_cons_iff, ih]
    constructor
    · rintro ⟨w, m, hw, hcs, mid, hts, hus⟩
      exact ⟨mid, ⟨w, m, hw, hcs, hts⟩, hus⟩
    · rintro ⟨mid, ⟨w, m, hw, hcs, hts⟩, hus⟩
      exact ⟨w, m, hw, hcs, mid, hts, hus⟩

theorem begins_cons_iff_exists : Begins cs (t :: ts) rest ↔ ∃ mid, Begins cs [t] mid ∧ Begins mid ts rest := by
  rw [← begins_append_iff, List.singleton_append]

theorem begins_skipBlanks_iff (hts : ts ≠ []) : Begins (skipBlanks cs) ts rest ↔ Begins cs ts rest := by
  cases ts with
  | nil => contradiction
  | cons t ts => rw [begins_cons_iff, begins_cons_iff, skipBlanks_skipBlanks]

theorem begins_mark_iff {hc : c ∈ marks} :
    Begins cs (.mark c hc :: ts) rest ↔ ∃ mid, skipBlanks cs = c :: mid ∧ Begins mid ts rest := by
  rw [begins_cons_iff]
  constructor
  · rintro ⟨w, mid, ⟨⟩, hcs, h⟩
    exact ⟨mid, hcs, h⟩
  · rintro ⟨mid, hcs, h⟩
    exact ⟨[c], mid, .mark, hcs, h⟩

theorem Begins.endsNumber {hc : c ∈ marks} (h : Begins cs (.mark c hc :: ts) rest) : EndsNumber cs := by
  obtain ⟨mid, hcs, -⟩ := begins_mark_iff.1 h
  exact endsNumber_of_skipBlanks hc hcs

theorem begins_string_iff : Begins cs (.string s :: ts) rest ↔
    ∃ m mid, skipBlanks cs = '"' :: m ∧ readString m = .ok (s, mid) ∧ Begins mid ts rest := by
  rw [begins_cons_iff]
  constructor
  · rintro ⟨w, mid, hw, hcs, h⟩
    cases hw with
    | @string _ w hw =>
      refine ⟨w ++ '"' :: mid, mid, by simpa using hcs, readString_eq_ok_iff.2 ⟨w, hw, rfl⟩, h⟩
  · rintro ⟨m, mid, hcs, hread, h⟩
    obtain ⟨w, hw, rfl⟩ := readString_eq_ok_iff.1 hread
    exact ⟨'"' :: (w ++ ['"']), mid, .string hw, by simpa using hcs, h⟩

theorem begins_count_iff : Begins cs (.count n :: ts) rest ↔
    ∃ mid, skipBlanks cs = Nat.toDigits 10 n ++ mid ∧ Begins mid ts rest := by
  rw [begins_cons_iff]
  constructor
  · rintro ⟨w, mid, ⟨⟩, hcs, h⟩
    exact ⟨mid, hcs, h⟩
  · rintro ⟨mid, hcs, h⟩
    exact ⟨_, mid, .count n, hcs, h⟩

theorem begins_null_iff : Begins cs (.null :: ts) rest ↔
    ∃ mid, skipBlanks cs = 'n' :: 'u' :: 'l' :: 'l' :: mid ∧ Begins mid ts rest := by
  rw [begins_cons_iff]
  constructor
  · rintro ⟨w, mid, ⟨⟩, hcs, h⟩
    exact ⟨mid, hcs, h⟩
  · rintro ⟨mid, hcs, h⟩
    exact ⟨_, mid, .null, hcs, h⟩

theorem separated_singleton_iff {α : Type} {Item : α → List Token → Prop} {a : α} :
    Separated Item [a] ts ↔ Item a ts := by
  constructor
  · rintro (h | ⟨-, ⟨⟩⟩)
    exact h
  · exact .last

theorem separated_cons_cons_iff {α : Type} {Item : α → List Token → Prop} {a b : α} {as : List α} :
    Separated Item (a :: b :: as) ts ↔
      ∃ us vs, Item a us ∧ Separated Item (b :: as) vs ∧ ts = us ++ .mark ',' :: vs := by
  constructor
  · rintro (⟨⟩ | ⟨h, hs⟩)
    exact ⟨_, _, h, hs, rfl⟩
  · rintro ⟨us, vs, h, hs, rfl⟩
    exact .cons h hs

theorem Named.ne_nil (h : Named s ts) : ts ≠ [] := by
  cases h <;> simp

/-- A name begins with a quote or a brace. -/
theorem Named.head (h : Named s ts) (hbegins : Begins cs ts rest) : ∃ c m, skipBlanks cs = c :: m ∧ c ≠ ']' := by
  cases h with
  | plain =>
    obtain ⟨m, -, hm, -⟩ := begins_string_iff.1 hbegins
    exact ⟨_, m, hm, by decide⟩
  | tagged =>
    obtain ⟨m, hm, -⟩ := begins_mark_iff.1 hbegins
    exact ⟨_, m, hm, by decide⟩

/-! ### Readers -/

theorem readWord_eq_ok_iff {word : List Char} : readWord word cs = .ok rest ↔ cs = word ++ rest := by
  induction word generalizing cs with
  | nil => simp [readWord]
  | cons w word ih =>
    cases cs with
    | nil => simp [readWord]
    | cons c cs =>
      rw [readWord]
      split_ifs with hc
      · rw [ih, hc, List.cons_append, List.cons.injEq, and_iff_right rfl]
      · simp [hc]

theorem readNull_eq_ok_iff : readNull cs = .ok rest ↔ Begins cs [.null] rest := by
  simp only [begins_null_iff, begins_nil_iff, exists_eq_right]
  unfold readNull
  split
  · rename_i hcs
    simp [hcs]
  · rename_i m hcs
    rw [readWord_eq_ok_iff, hcs]
    simp
  · rename_i hnull
    constructor
    · intro h
      contradiction
    · intro hcs
      exact absurd hcs (hnull _)

theorem readColon_eq_ok_iff : readColon cs = .ok rest ↔ Begins cs [.mark ':'] rest := by
  rw [begins_mark_iff]
  simp only [begins_nil_iff, exists_eq_right]
  unfold readColon
  split
  · rename_i hcs
    simp [hcs]
  · rename_i m hcs
    simp [hcs]
  · rename_i hcolon
    constructor
    · intro h
      contradiction
    · intro hcs
      exact absurd hcs (hcolon _)

theorem startsNumber_of_readNumber (h : readNumber cs = .ok (.natural n, rest)) :
    ∃ c m, cs = c :: m ∧ startsNumber c = true := by
  obtain ⟨-, rfl, -⟩ := readNumber_eq_natural_iff.1 h
  obtain ⟨c, m, hdigits⟩ := List.exists_cons_of_ne_nil (Nat.toDigits_ne_nil (b := 10) (n := n))
  have hc : c.isDigit = true := isDigit_of_mem_toDigits (hdigits ▸ List.mem_cons_self : c ∈ Nat.toDigits 10 n)
  exact ⟨c, m ++ rest, by rw [hdigits, List.cons_append], by simp [startsNumber, hc]⟩

theorem begins_null_iff_readNull :
    Begins cs (.null :: ts) rest ↔ ∃ mid, readNull cs = .ok mid ∧ Begins mid ts rest := by
  simp only [readNull_eq_ok_iff]
  exact begins_cons_iff_exists

theorem begins_colon_iff :
    Begins cs (.mark ':' :: ts) rest ↔ ∃ mid, readColon cs = .ok mid ∧ Begins mid ts rest := by
  simp only [readColon_eq_ok_iff]
  exact begins_cons_iff_exists

theorem readCount_eq_ok_iff : readCount cs = .ok (n, rest) ↔
    n ≤ Allocation.maxCount ∧ Begins cs [.count n] rest ∧ EndsNumber rest := by
  simp only [begins_count_iff, begins_nil_iff, exists_eq_right]
  rw [← readNumber_eq_natural_iff]
  unfold readCount
  split
  · rename_i hcs
    rw [hcs]
    simp [readNumber, readUnsigned, readDigits, bind, Except.bind]
  · rename_i c m hcs
    rw [hcs]
    split
    · split
      · rename_i hread
        simp [hread]
      · rename_i hread
        simp [hread]
      · rename_i hread
        simp [hread]
      · rename_i hread
        simp [hread]
    · rename_i hc
      constructor
      · intro h
        contradiction
      · intro h
        obtain ⟨c', m', hcons, hstarts⟩ := startsNumber_of_readNumber h
        obtain ⟨rfl, rfl⟩ := List.cons.inj hcons
        contradiction

section

variable {α : Type} {values : List α} {name : α → String} {v : α} (hall : ∀ v, v ∈ values)
  (hname : Function.Injective name)

include hall hname

theorem ofName_eq_ok_iff : ofName values name s = .ok v ↔ name v = s := by
  unfold ofName
  constructor
  · intro h
    split at h
    · rename_i hfind
      obtain rfl := Except.ok.inj h
      simpa using List.find?_some hfind
    · contradiction
  · rintro rfl
    split
    · rename_i v' hfind
      obtain rfl : v' = v := hname (by simpa using List.find?_some hfind)
      rfl
    · rename_i hfind
      have := List.find?_eq_none.1 hfind v (hall v)
      simp at this

theorem readTagged_eq_ok_iff : readTagged values name cs = .ok (v, rest) ↔
    Begins cs [.string (name v), .mark ':', .null, .mark '\x7d'] rest := by
  simp only [begins_string_iff, begins_colon_iff, begins_null_iff_readNull]
  simp only [begins_mark_iff, begins_nil_iff, exists_eq_right]
  rw [readTagged]
  constructor
  · intro h
    split at h
    · contradiction
    · rename_i m hcs
      simp only [bind] at h
      obtain ⟨⟨s, mid⟩, hs, h⟩ := bind_eq_ok_iff.1 h
      obtain ⟨v', hv, h⟩ := bind_eq_ok_iff.1 h
      obtain ⟨m1, hcolon, h⟩ := bind_eq_ok_iff.1 h
      obtain ⟨m2, hnull, h⟩ := bind_eq_ok_iff.1 h
      split at h
      · contradiction
      · rename_i hend
        obtain ⟨rfl, rfl⟩ := Prod.mk.inj (Except.ok.inj h)
        rw [ofName_eq_ok_iff hall hname] at hv
        exact ⟨m, mid, hcs, hv ▸ hs, m1, hcolon, m2, hnull, hend⟩
      · contradiction
    · contradiction
    · contradiction
  · rintro ⟨m, mid, hcs, hs, m1, hcolon, m2, hnull, hend⟩
    simp only [hcs, bind, hs, Except.bind, (ofName_eq_ok_iff hall hname).2 rfl, hcolon, hnull, hend]
    rfl

theorem readNamed_eq_ok_iff : readNamed values name cs = .ok (v, rest) ↔
    ∃ ts, Named (name v) ts ∧ Begins cs ts rest := by
  rw [readNamed]
  constructor
  · intro h
    split at h
    · contradiction
    · rename_i m hcs
      simp only [bind] at h
      obtain ⟨⟨s, mid⟩, hs, h⟩ := bind_eq_ok_iff.1 h
      obtain ⟨v', hv, h⟩ := bind_eq_ok_iff.1 h
      obtain ⟨rfl, rfl⟩ := Prod.mk.inj (Except.ok.inj h)
      rw [ofName_eq_ok_iff hall hname] at hv
      exact ⟨_, .plain, begins_string_iff.2 ⟨m, mid, hcs, hv ▸ hs, .nil⟩⟩
    · rename_i m hcs
      rw [readTagged_eq_ok_iff hall hname] at h
      exact ⟨_, .tagged, begins_mark_iff.2 ⟨m, hcs, h⟩⟩
    · contradiction
  · rintro ⟨ts, hts, h⟩
    cases hts with
    | plain =>
      obtain ⟨m, mid, hcs, hs, h⟩ := begins_string_iff.1 h
      obtain rfl := begins_nil_iff.1 h
      simp only [hcs, bind, hs, Except.bind, (ofName_eq_ok_iff hall hname).2 rfl]
      rfl
    | tagged =>
      obtain ⟨m, hcs, h⟩ := begins_mark_iff.1 h
      simp only [hcs]
      exact (readTagged_eq_ok_iff hall hname).2 h

end

/-- A document is read if its value is, and nothing but blanks is left. -/
theorem readDocument_eq_ok_iff {α : Type} {read : Reader α} {a : α} : readDocument read s = .ok a ↔
    ∃ rest, read s.toList = .ok (a, rest) ∧ ∀ c ∈ rest, isBlank c = true := by
  have hblank (cs : List Char) : skipBlanks cs = [] ↔ ∀ c ∈ cs, isBlank c = true := List.dropWhile_eq_nil_iff
  simp only [← hblank, readDocument, bind, bind_eq_ok_iff]
  constructor
  · rintro ⟨⟨a', rest⟩, hread, h⟩
    simp only at h
    split at h
    · rename_i hrest
      obtain rfl := Except.ok.inj h
      exact ⟨rest, hread, hrest⟩
    · contradiction
  · rintro ⟨rest, hread, hrest⟩
    refine ⟨(a, rest), hread, ?_⟩
    simp only [hrest]
    rfl

end WeightedGraph.Json
