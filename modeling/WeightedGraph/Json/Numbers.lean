import WeightedGraph.Allocation
import WeightedGraph.Json.Error

/-!
# Numbers in documents

A number is an optional minus sign, digits without superfluous leading zeros, and then possibly a fraction and
an exponent.  Without these two it is a whole number if 64 bits can hold it.  Otherwise it is a float: as many
digits as fit into 64 bits make a whole number, which is scaled by a power of ten.  A result that is too large
is a problem; one that is too small is zero.
-/

namespace WeightedGraph.Json

/-- The largest power of ten that a float can be. -/
def maxPower : Nat := 308

def powerOfTen (k : Nat) : Float := Float.ofNat (Nat.pow 10 k)

/-- The float `x * 10 ^ exponent`, unless it is too large. -/
def scale? (x : Float) (exponent : Int) : Option Float :=
  if exponent.natAbs ≤ maxPower then
    if 0 ≤ exponent then
      let y := x * powerOfTen exponent.natAbs
      if y.isInf then none else some y
    else some (x / powerOfTen exponent.natAbs)
  else if x == 0.0 then some x
  else if 0 ≤ exponent then none
  else scale? (x / powerOfTen maxPower) (exponent + maxPower)
termination_by exponent.natAbs
decreasing_by
  simp only [maxPower] at *
  omega

/-- The float with the given digits, exponent and sign. -/
def scaled (isNegative : Bool) (significand : Nat) (exponent : Int) : Except ReadError Number :=
  match scale? (Float.ofNat significand) exponent with
  | none => .error .numberOutOfRange
  | some x => .ok (.float (if isNegative then -x else x))

def digitValue (c : Char) : Nat := c.toNat - '0'.toNat

/-- Appends digits to a number as long as 64 bits can hold it, and counts the digits left over. -/
def absorb (significand : Nat) : List Char → Nat × Nat
  | [] => (significand, 0)
  | c :: cs =>
    let longer := significand * 10 + digitValue c
    if Allocation.maxCount < longer then (significand, cs.length + 1) else absorb longer cs

def digitsValue (cs : List Char) : Nat := cs.foldl (fun n c => n * 10 + digitValue c) 0

/-- Reads digits, of which there has to be one. -/
def readDigits (cs : List Char) : Except ReadError (List Char × List Char) :=
  let digits := cs.takeWhile Char.isDigit
  if digits.isEmpty then .error (if cs.isEmpty then .endInValue else .invalidNumber)
  else .ok (digits, cs.dropWhile Char.isDigit)

/-- Reads the sign of an exponent: whether it is a minus. -/
def readSign : List Char → Bool × List Char
  | '+' :: rest => (false, rest)
  | '-' :: rest => (true, rest)
  | rest => (false, rest)

def isExponentMark (c : Char) : Bool := c = 'e' || c = 'E'

/-- Reads an exponent if there is one, and makes a float of what has been read. -/
def readExponent (isNegative : Bool) (significand : Nat) (exponent : Int) : Reader Number := fun cs => do
  match cs with
  | c :: rest =>
    if isExponentMark c then
      let (down, rest) := readSign rest
      let (digits, rest) ← readDigits rest
      let shift : Int := digitsValue digits
      let x ← scaled isNegative significand (if down then exponent - shift else exponent + shift)
      return (x, rest)
    else
      let x ← scaled isNegative significand exponent
      return (x, cs)
  | [] =>
    let x ← scaled isNegative significand exponent
    return (x, [])

/-- A number written with digits only; `left` of them did not fit. -/
def whole (isNegative : Bool) (significand left : Nat) : Except ReadError Number :=
  if left ≠ 0 then scaled isNegative significand left
  else if !isNegative then .ok (.natural significand)
  else if significand = 0 || Nat.pow 2 63 < significand then .ok (.float (-Float.ofNat significand))
  else .ok (.negative significand)

def readUnsigned (isNegative : Bool) : Reader Number := fun cs => do
  let (digits, rest) ← readDigits cs
  if digits.head? = some '0' && digits.length ≠ 1 then throw .invalidNumber
  let (significand, left) := absorb 0 digits
  match rest with
  | '.' :: rest =>
    let (fraction, rest) ← readDigits rest
    let (significand, unused) := absorb significand fraction
    readExponent isNegative significand (left - (fraction.length - unused : Nat)) rest
  | c :: _ =>
    if isExponentMark c then readExponent isNegative significand left rest
    else
      let x ← whole isNegative significand left
      return (x, rest)
  | [] =>
    let x ← whole isNegative significand left
    return (x, rest)

def readNumber : Reader Number
  | '-' :: rest => readUnsigned true rest
  | cs => readUnsigned false cs

def startsNumber (c : Char) : Bool := c = '-' || c.isDigit

end WeightedGraph.Json
