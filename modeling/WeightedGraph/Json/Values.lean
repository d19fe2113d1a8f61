import WeightedGraph.Json.Characters
import WeightedGraph.Json.Numbers

/-!
# Values of a known sort

Reading a document is driven by what should stand where: a count, `null`, or one of several names.  A value of
another sort is read only as far as it takes to say what it is.
-/

namespace WeightedGraph.Json

/-- The characters that may stand between any two tokens. -/
def isBlank (c : Char) : Bool := c = ' ' || c = '\t' || c = '\n' || c = '\r'

def skipBlanks (cs : List Char) : List Char := cs.dropWhile isBlank

def readWord : List Char → List Char → Except ReadError (List Char)
  | [], cs => .ok cs
  | _ :: _, [] => .error .endInValue
  | w :: word, c :: cs => if c = w then readWord word cs else .error .expectedWord

/-- Says what value comes next. -/
def readFound (cs : List Char) : Except ReadError Found :=
  match cs with
  | [] => .error .endInValue
  | 'n' :: rest => (readWord ['u', 'l', 'l'] rest).map fun _ => .null
  | 't' :: rest => (readWord ['r', 'u', 'e'] rest).map fun _ => .bool true
  | 'f' :: rest => (readWord ['a', 'l', 's', 'e'] rest).map fun _ => .bool false
  | '"' :: rest => (readString rest).map fun (s, _) => .string s
  | '[' :: _ => .ok .sequence
  | '\x7b' :: _ => .ok .map
  | c :: _ => if startsNumber c then (readNumber cs).map fun (n, _) => .number n else .error .expectedValue

/-- The problem of a value that is not of the expected sort. -/
def unexpected (expected : String) (cs : List Char) : ReadError :=
  match readFound cs with
  | .error e => e
  | .ok found => .invalidType found expected

def countName : String := "usize"

/-- Reads a count: a whole number that is not negative. -/
def readCount : Reader Nat := fun cs =>
  match skipBlanks cs with
  | [] => .error .endInValue
  | c :: rest =>
    if startsNumber c then
      match readNumber (c :: rest) with
      | .error e => .error e
      | .ok (.natural n, rest) => .ok (n, rest)
      | .ok (.negative size, _) => .error (.invalidValue (.number (.negative size)) countName)
      | .ok (.float x, _) => .error (.invalidType (.number (.float x)) countName)
    else .error (unexpected countName (c :: rest))

def readNull (cs : List Char) : Except ReadError (List Char) :=
  match skipBlanks cs with
  | [] => .error .endInValue
  | 'n' :: rest => readWord ['u', 'l', 'l'] rest
  | rest => .error (unexpected "unit" rest)

def readColon (cs : List Char) : Except ReadError (List Char) :=
  match skipBlanks cs with
  | [] => .error .endInObject
  | ':' :: rest => .ok rest
  | _ => .error .expectedColon

variable {α : Type} (values : List α) (name : α → String)

/-- The value with the given name. -/
def ofName (s : String) : Except ReadError α :=
  match values.find? fun v => name v = s with
  | some v => .ok v
  | none => .error (.unknownVariant s (values.map name))

/-- Reads the rest of an object with a name for its key and `null` for the value. -/
def readTagged : Reader α := fun cs => do
  match skipBlanks cs with
  | [] => throw .endInObject
  | '"' :: rest =>
    let (s, rest) ← readString rest
    let v ← ofName values name s
    let rest ← readNull (← readColon rest)
    match skipBlanks rest with
    | [] => throw .endInObject
    | '\x7d' :: rest => return (v, rest)
    | _ => throw .expectedValue
  | '\x7d' :: _ => throw .expectedValue
  | _ => throw .keyNotString

/-- Reads one of several values by its name: a string, or an object with that key and the value `null`. -/
def readNamed : Reader α := fun cs => do
  match skipBlanks cs with
  | [] => throw .endInValue
  | '"' :: rest =>
    let (s, rest) ← readString rest
    let v ← ofName values name s
    return (v, rest)
  | '\x7b' :: rest => readTagged values name rest
  | _ => throw .expectedValue

omit values name

/-- Reads a whole document: one value, and nothing after it but blanks. -/
def readDocument (read : Reader α) (s : String) : Except ReadError α := do
  let (a, rest) ← read s.toList
  match skipBlanks rest with
  | [] => return a
  | _ => throw .trailingCharacters

end WeightedGraph.Json
