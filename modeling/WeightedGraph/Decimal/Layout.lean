import WeightedGraph.Decimal.Shortest

/-!
# Layouts of floats

A text of a float shows its shortest decimal.  A `Layout` says the rest: for which sizes the digits are written
positionally and for which with an exponent, whether a whole number keeps a fraction of zero, how an exponent is
signed, and which of two equally near decimals is taken.  Three layouts are in use: `plain` for edges shown to a
reader, `structured` inside structured texts, and `document` for numbers quoted from a document.
-/

namespace WeightedGraph.Decimal

/-- The choices that a text of a float leaves open. -/
structure Layout where
  tie : Tie
  /-- The power of ten of the first digit below which the exponent is written out, if there is one. -/
  positionalFrom : Option Int
  /-- The power of ten of the first digit from which the exponent is written out, if there is one. -/
  positionalBelow : Option Int
  /-- A whole number written positionally ends in `.0`. -/
  pointZero : Bool
  /-- An exponent that is not negative has a plus sign. -/
  plusExponent : Bool

/-- Always positional, and whole numbers without a point. -/
def plain : Layout := ⟨.up, none, none, false, false⟩

/-- Positional from `1e-4` to below `1e16`, with a point in every number written so. -/
def structured : Layout := ⟨.up, some (-4), some 16, true, false⟩

/-- Positional from `1e-5` to below `1e16`, with a point in every number written so and signed exponents. -/
def document : Layout := ⟨.toEven, some (-5), some 16, true, true⟩

namespace Layout

/-- Whether a number whose first digit stands for `10 ^ lead` is written positionally. -/
def isPositional (l : Layout) (lead : Int) : Bool :=
  l.positionalFrom.all (· ≤ lead) && l.positionalBelow.all (lead < ·)

/-- Digits preceded, followed or interrupted by zeros and a point, so that the first digit stands for
`10 ^ lead`. -/
def positional (l : Layout) (digits : List Char) (lead : Int) : List Char :=
  if lead < 0 then ['0', '.'] ++ List.replicate (-lead - 1).toNat '0' ++ digits
  else
    let whole := lead.toNat + 1
    let zeros := List.replicate (whole - digits.length) '0'
    if digits.length ≤ whole then digits ++ zeros ++ (if l.pointZero then ['.', '0'] else [])
    else digits.take whole ++ '.' :: digits.drop whole

/-- One digit, a point and the other digits if there are any, and the exponent. -/
def scientific (l : Layout) (digits : List Char) (lead : Int) : List Char :=
  let rest := digits.drop 1
  let point := if rest.isEmpty then [] else ['.']
  let plus := if l.plusExponent && 0 ≤ lead then ['+'] else []
  digits.take 1 ++ point ++ rest ++ 'e' :: plus ++ (toString lead).toList

/-- The text of a decimal that is not zero. -/
def ofDecimal (l : Layout) (d : Expansion) : String :=
  let digits := Nat.toDigits 10 d.digits
  let lead := d.exponent + (digits.length - 1 : Nat)
  .ofList (if l.isPositional lead then l.positional digits lead else l.scientific digits lead)

/-- The text of a float: `NaN`, or a sign and then `inf`, zero or the shortest decimal. -/
def text (l : Layout) (x : Float) : String :=
  let bits := x.toBits.toNat
  if x.isNaN then "NaN"
  else
    let sign := if bits < Nat.pow 2 63 then "" else "-"
    let size := bits % Nat.pow 2 63
    if size = 0x7ff * Nat.pow 2 52 then sign ++ "inf"
    else
      match (Binary.ofBits size).shortest? l.tie with
      | none => sign ++ (if l.pointZero then "0.0" else "0")
      | some d => sign ++ l.ofDecimal d

end Layout

end WeightedGraph.Decimal
