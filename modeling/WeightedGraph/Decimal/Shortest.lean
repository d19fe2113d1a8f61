/-!
# Shortest decimals

The decimal number with the fewest digits that a binary64 float is nearest to, and of those the one nearest to
the float.  A finite positive float is `significand * 2 ^ exponent`; the reals that round to it form an
interval, whose ends belong to it when the significand is even.  `Binary.shortest?` looks for the coarsest
decimal grid `10 ^ k * ℤ` that has a point in the interval; on it one of the two neighbours of the float is
such a point. Everything is computed with natural numbers, so nothing is rounded on the way.
-/

namespace WeightedGraph.Decimal

/-- The number `significand * 2 ^ exponent`, as a float holds it. -/
structure Binary where
  significand : Nat
  exponent : Int
  /-- The next smaller float is half as far away as the next larger one. -/
  closeBelow : Bool
deriving DecidableEq

/-- The number `digits * 10 ^ exponent`. -/
structure Expansion where
  digits : Nat
  exponent : Int
deriving DecidableEq

/-- Which of two equally near decimals is taken. -/
inductive Tie where
  | up
  | toEven
deriving DecidableEq

namespace Binary

/-- The size of a finite float, read off the bits of its exponent and its fraction. -/
def ofBits (bits : Nat) : Binary :=
  let fraction : Nat := bits % Nat.pow 2 52
  let biased : Nat := bits / Nat.pow 2 52 % Nat.pow 2 11
  if biased = 0 then ⟨fraction, -1074, false⟩
  else ⟨Nat.pow 2 52 + fraction, (biased : Int) - 1075, fraction = 0 && biased != 1⟩

/-- The float, the ends of its interval and the step of a decimal grid, all as multiples of one unit. -/
structure Scaled where
  value : Nat
  low : Nat
  high : Nat
  step : Nat

/-- Measures a float on the grid of step `10 ^ k`, in units small enough for all four numbers to be whole. -/
def onGrid (b : Binary) (k : Int) : Scaled :=
  let twos : Int := b.exponent - 2
  let unit : Nat := Nat.pow 2 twos.toNat * Nat.pow 10 (-k).toNat
  let value := 4 * b.significand
  let below := if b.closeBelow then 1 else 2
  ⟨value * unit, (value - below) * unit, (value + 2) * unit, Nat.pow 2 (-twos).toNat * Nat.pow 10 k.toNat⟩

/-- Whether a number, given in the units of `s`, rounds to the float `b`. -/
def rounds (b : Binary) (s : Scaled) (x : Nat) : Bool :=
  if b.significand % 2 = 0 then s.low ≤ x && x ≤ s.high else s.low < x && x < s.high

/-- The multiple of `10 ^ k` nearest to the float among those that round to it. -/
def nearestOnGrid? (b : Binary) (tie : Tie) (k : Int) : Option Expansion :=
  let s := b.onGrid k
  let down := s.value / s.step
  let up := down + 1
  let upOnTie := match tie with
    | .up => true
    | .toEven => down % 2 = 1
  match down ≠ 0 && b.rounds s (down * s.step), b.rounds s (up * s.step) with
  | false, false => none
  | true, false => some ⟨down, k⟩
  | false, true => some ⟨up, k⟩
  | true, true =>
    let toDown := s.value - down * s.step
    let toUp := up * s.step - s.value
    if toDown < toUp || (toDown = toUp && !upOnTie) then some ⟨down, k⟩ else some ⟨up, k⟩

/-- The first of the grids of step `10 ^ k`, `10 ^ (k - 1)`, … that has a point which rounds to the float. -/
def searchGrids (b : Binary) (tie : Tie) (k : Int) : Nat → Option Expansion
  | 0 => none
  | tries + 1 =>
    match b.nearestOnGrid? tie k with
    | some d => some d
    | none => b.searchGrids tie (k - 1) tries

/-- An exponent `e` with `b < 10 ^ e`, at most three too large: `30103 / 100000` is just above the decimal
logarithm of two. -/
def exponentBound (b : Binary) : Int :=
  let bits : Int := b.exponent + (b.significand.log2 + 1 : Nat)
  bits * 30103 / 100000 + 2

/-- The shortest decimal of a float, and none of zero.  Seventeen digits always suffice, so that the search needs
no more grids than it is given. -/
def shortest? (b : Binary) (tie : Tie) : Option Expansion :=
  if b.significand = 0 then none else b.searchGrids tie b.exponentBound 24

end Binary

end WeightedGraph.Decimal
