import WeightedGraph.Decimal.Layout
import WeightedGraph.Text.Quoted

/-!
# Why a document cannot be read

Reading goes through a document once, from left to right, and stops at the first problem.  A `ReadError` says
what the problem is; its wording is in `ReadError.message`.
-/

namespace WeightedGraph.Json

/-- A number as a document writes it: a whole number of at most 64 bits, or else a float. -/
inductive Number where
  | natural (n : Nat)
  /-- A whole number below zero, given by its size. -/
  | negative (size : Nat)
  | float (x : Float)

/-- A value that stands where another sort of value should stand. -/
inductive Found where
  | null
  | bool (b : Bool)
  | number (n : Number)
  | string (s : String)
  | sequence
  | map

/-- The first problem of a document. -/
inductive ReadError where
  | endInValue
  | endInString
  | endInObject
  | endInList
  | expectedValue
  /-- A word that is none of `null`, `true` and `false`. -/
  | expectedWord
  | keyNotString
  | expectedColon
  | expectedCommaOrBrace
  | expectedCommaOrBracket
  | trailingComma
  | trailingCharacters
  | invalidNumber
  | numberOutOfRange
  /-- A backslash with something after it that makes no escape. -/
  | invalidEscape
  | controlCharacter
  /-- Half of a surrogate pair without the half that belongs to it. -/
  | loneSurrogate
  /-- The first half of a surrogate pair with no escape after it. -/
  | unfinishedSurrogate
  | invalidType (found : Found) (expected : String)
  /-- A value of the right sort that is not possible. -/
  | invalidValue (found : Found) (expected : String)
  | invalidLength (length : Nat) (expected : String)
  | unknownField (field : String) (possible : List String)
  | duplicateField (field : String)
  | missingField (field : String)
  | unknownVariant (variant : String) (possible : List String)

def backquoted (s : String) : String := "\x60" ++ s ++ "\x60"

def Found.describe : Found → String
  | .null => "null"
  | .bool b => "boolean " ++ backquoted (toString b)
  | .number (.natural n) => "integer " ++ backquoted (toString n)
  | .number (.negative size) => "integer " ++ backquoted ("-" ++ toString size)
  | .number (.float x) => "floating point " ++ backquoted (Decimal.document.text x)
  | .string s => "string " ++ Text.quoted s
  | .sequence => "sequence"
  | .map => "map"

/-- The names that are possible, joined by "or" if there are two. -/
def describePossible : List String → String
  | [a, b] => backquoted a ++ " or " ++ backquoted b
  | names => "one of " ++ ", ".intercalate (names.map backquoted)

/-- What a reader is told. -/
def ReadError.message : ReadError → String
  | .endInValue => "EOF while parsing a value"
  | .endInString => "EOF while parsing a string"
  | .endInObject => "EOF while parsing an object"
  | .endInList => "EOF while parsing a list"
  | .expectedValue => "expected value"
  | .expectedWord => "expected ident"
  | .keyNotString => "key must be a string"
  | .expectedColon => "expected " ++ backquoted ":"
  | .expectedCommaOrBrace => "expected " ++ backquoted "," ++ " or " ++ backquoted "\x7d"
  | .expectedCommaOrBracket => "expected " ++ backquoted "," ++ " or " ++ backquoted "]"
  | .trailingComma => "trailing comma"
  | .trailingCharacters => "trailing characters"
  | .invalidNumber => "invalid number"
  | .numberOutOfRange => "number out of range"
  | .invalidEscape => "invalid escape"
  | .controlCharacter => "control character (\\u0000-\\u001F) found while parsing a string"
  | .loneSurrogate => "lone leading surrogate in hex escape"
  | .unfinishedSurrogate => "unexpected end of hex escape"
  | .invalidType found expected => "invalid type: " ++ found.describe ++ ", expected " ++ expected
  | .invalidValue found expected => "invalid value: " ++ found.describe ++ ", expected " ++ expected
  | .invalidLength length expected => "invalid length " ++ toString length ++ ", expected " ++ expected
  | .unknownField field possible =>
    "unknown field " ++ backquoted field ++ ", expected " ++ describePossible possible
  | .duplicateField field => "duplicate field " ++ backquoted field
  | .missingField field => "missing field " ++ backquoted field
  | .unknownVariant variant possible =>
    "unknown variant " ++ backquoted variant ++ ", expected " ++ describePossible possible

/-- Takes a value from the front of a text and gives the rest of the text. -/
abbrev Reader (α : Type) := List Char → Except ReadError (α × List Char)

end WeightedGraph.Json
