import WeightedGraph.Json.Error

/-!
# Strings in documents

What stands between two double quotes.  An escape is a backslash with a letter, or with the four hexadecimal
digits of a code unit; a character beyond the first 65536 takes two code units, a leading and a trailing
surrogate, one right after the other.
-/

namespace WeightedGraph.Json

/-- The value of a hexadecimal digit of either case. -/
def hexDigit? (c : Char) : Option Nat :=
  if '0' ≤ c && c ≤ '9' then some (c.toNat - '0'.toNat)
  else if 'a' ≤ c && c ≤ 'f' then some (c.toNat - 'a'.toNat + 10)
  else if 'A' ≤ c && c ≤ 'F' then some (c.toNat - 'A'.toNat + 10)
  else none

def codeUnit? (a b c d : Char) : Option Nat := do
  let a ← hexDigit? a
  let b ← hexDigit? b
  let c ← hexDigit? c
  let d ← hexDigit? d
  return ((a * 16 + b) * 16 + c) * 16 + d

def byteCount (cs : List Char) : Nat := cs.foldl (fun bytes c => bytes + c.utf8Size) 0

/-- Reads four hexadecimal digits.  A text with fewer than four bytes left has ended too early. -/
def readCodeUnit (cs : List Char) : Except ReadError (Nat × List Char) :=
  match cs with
  | a :: b :: c :: d :: rest =>
    match codeUnit? a b c d with
    | some unit => .ok (unit, rest)
    | none => .error .invalidEscape
  | _ => if byteCount cs < 4 then .error .endInString else .error .invalidEscape

def isLeadingSurrogate (unit : Nat) : Bool := 0xD800 ≤ unit && unit < 0xDC00

def isTrailingSurrogate (unit : Nat) : Bool := 0xDC00 ≤ unit && unit < 0xE000

/-- Reads the second half of a pair, with its backslash, and gives the character of the pair. -/
def readTrailing (leading : Nat) (cs : List Char) : Except ReadError (Char × List Char) :=
  match cs with
  | [] => .error .endInString
  | ['\\'] => .error .endInString
  | '\\' :: 'u' :: rest =>
    match readCodeUnit rest with
    | .error e => .error e
    | .ok (unit, rest) =>
      if isTrailingSurrogate unit then
        .ok (Char.ofNat (0x10000 + (leading - 0xD800) * 0x400 + (unit - 0xDC00)), rest)
      else .error .loneSurrogate
  | _ => .error .unfinishedSurrogate

/-- Reads what follows a backslash and a `u`. -/
def readUnicode (cs : List Char) : Except ReadError (Char × List Char) :=
  match readCodeUnit cs with
  | .error e => .error e
  | .ok (unit, rest) =>
    if isTrailingSurrogate unit then .error .loneSurrogate
    else if isLeadingSurrogate unit then readTrailing unit rest
    else .ok (Char.ofNat unit, rest)

/-- The character that a letter stands for behind a backslash. -/
def letterEscape? (c : Char) : Option Char :=
  match c with
  | '"' | '\\' | '/' => some c
  | 'b' => some '\x08'
  | 'f' => some '\x0c'
  | 'n' => some '\n'
  | 'r' => some '\r'
  | 't' => some '\t'
  | _ => none

def readEscape (cs : List Char) : Except ReadError (Char × List Char) :=
  match cs with
  | [] => .error .endInString
  | c :: rest =>
    if c = 'u' then readUnicode rest
    else
      match letterEscape? c with
      | some d => .ok (d, rest)
      | none => .error .invalidEscape

theorem length_of_readCodeUnit {cs rest : List Char} {unit : Nat} (h : readCodeUnit cs = .ok (unit, rest)) :
    rest.length < cs.length := by
  unfold readCodeUnit at h
  split at h
  · split at h
    · cases h
      simp only [List.length_cons]
      omega
    · contradiction
  · split at h <;> contradiction

theorem length_of_readTrailing {cs rest : List Char} {leading : Nat} {c : Char}
    (h : readTrailing leading cs = .ok (c, rest)) : rest.length < cs.length := by
  unfold readTrailing at h
  split at h
  · contradiction
  · contradiction
  · split at h
    · contradiction
    · rename_i hu
      have := length_of_readCodeUnit hu
      split at h
      · simp only [Except.ok.injEq, Prod.mk.injEq] at h
        rw [← h.2]
        simp only [List.length_cons]
        omega
      · contradiction
  · contradiction

theorem length_of_readUnicode {cs rest : List Char} {c : Char} (h : readUnicode cs = .ok (c, rest)) :
    rest.length < cs.length := by
  unfold readUnicode at h
  split at h
  · contradiction
  · rename_i hu
    have := length_of_readCodeUnit hu
    split at h
    · contradiction
    · split at h
      · exact Nat.lt_trans (length_of_readTrailing h) this
      · cases h
        exact this

theorem length_of_readEscape {cs rest : List Char} {c : Char} (h : readEscape cs = .ok (c, rest)) :
    rest.length < cs.length := by
  unfold readEscape at h
  split at h
  · contradiction
  · simp only [List.length_cons]
    split at h
    · have := length_of_readUnicode h
      omega
    · split at h
      · cases h
        omega
      · contradiction

/-- Reads the characters of a string up to and with the closing quote; the opening one has been read. -/
def readCharacters (cs : List Char) : Except ReadError (List Char × List Char) :=
  match cs with
  | [] => .error .endInString
  | c :: rest =>
    if c = '"' then .ok ([], rest)
    else if c = '\\' then
      match _ : readEscape rest with
      | .error e => .error e
      | .ok (d, rest) => (readCharacters rest).map fun (ds, rest) => (d :: ds, rest)
    else if c < ' ' then .error .controlCharacter
    else (readCharacters rest).map fun (ds, rest) => (c :: ds, rest)
termination_by cs.length
decreasing_by
  · rename_i h
    have := length_of_readEscape h
    simp only [List.length_cons]
    omega
  · simp

/-- Reads a string up to and with the closing quote; the opening one has been read. -/
def readString (cs : List Char) : Except ReadError (String × List Char) :=
  (readCharacters cs).map fun (ds, rest) => (.ofList ds, rest)

end WeightedGraph.Json
