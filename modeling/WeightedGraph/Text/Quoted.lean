import WeightedGraph.Text.Invisible

/-!
# Quoted texts

A text between double quotes in which every character can be seen: quotes, backslashes and the usual controls
have a short escape, other invisible characters are written by their code point.
-/

namespace WeightedGraph.Text

/-- How a character is written between quotes. -/
def escaped (c : Char) : List Char :=
  if c = '\x00' then ['\\', '0']
  else if c = '\t' then ['\\', 't']
  else if c = '\n' then ['\\', 'n']
  else if c = '\r' then ['\\', 'r']
  else if c = '"' || c = '\\' then ['\\', c]
  else if isInvisible c then ['\\', 'u', '\x7b'] ++ Nat.toDigits 16 c.toNat ++ ['\x7d']
  else [c]

/-- A text between double quotes, with its invisible characters spelled out. -/
def quoted (s : String) : String :=
  .ofList ('"' :: s.toList.flatMap escaped ++ ['"'])

end WeightedGraph.Text
