import WeightedGraph.Config.Basic
import WeightedGraph.Json.Values

/-!
# Configurations as documents

A configuration is written as an object with all its fields in a fixed order.  It is read from an object with
the fields in any order, or from a list of their values in the fixed order; the kind and the representation
may be left out.
-/

namespace WeightedGraph

open Json

/-- A name between quotes; names have no characters that need an escape. -/
def nameToJson (name : String) : String := "\"" ++ name ++ "\""

def GraphKind.toJson (k : GraphKind) : String := nameToJson k.name

def Representation.toJson (r : Representation) : String := nameToJson r.name

namespace GraphConfig

inductive Field where
  | vertexCount
  | kind
  | representation
deriving DecidableEq

def Field.name : Field → String
  | .vertexCount => "vertex_count"
  | .kind => "kind"
  | .representation => "representation"

/-- All fields, in the order in which they are written. -/
def Field.values : List Field := [.vertexCount, .kind, .representation]

/-- The document of a configuration, without blanks. -/
def toJson (c : GraphConfig) : String :=
  let field (f : Field) (value : String) := nameToJson f.name ++ ":" ++ value
  "\x7b" ++ ",".intercalate [field .vertexCount (toString c.vertexCount), field .kind c.kind.toJson,
    field .representation c.representation.toJson] ++ "\x7d"

structure Draft where
  vertexCount : Option Nat := none
  kind : Option GraphKind := none
  representation : Option Representation := none

def Draft.readField (d : Draft) : Field → Reader Draft
  | .vertexCount, cs => (readCount cs).map fun (n, rest) => ({ d with vertexCount := some n }, rest)
  | .kind, cs =>
    (readNamed GraphKind.values GraphKind.name cs).map fun (k, rest) => ({ d with kind := some k }, rest)
  | .representation, cs =>
    (readNamed Representation.values Representation.name cs).map fun (r, rest) =>
      ({ d with representation := some r }, rest)

/-- The configuration that has been read, which needs a vertex count. -/
def Draft.finish (d : Draft) : Except ReadError GraphConfig :=
  match d.vertexCount with
  | none => .error (.missingField Field.vertexCount.name)
  | some n => .ok ⟨n, d.kind.getD default, d.representation.getD default⟩

/-- Reads fields from behind the opening quote of a key to the end of the object.  Each field may come once,
so those that have not been read yet bound the number of fields to come. -/
def readFields (unread : List Field) (d : Draft) : Reader GraphConfig := fun cs =>
  match readString cs with
  | .error e => .error e
  | .ok (key, rest) =>
    match Field.values.find? fun f => f.name = key with
    | none => .error (.unknownField key (Field.values.map Field.name))
    | some f =>
      if _ : f ∈ unread then
        match readColon rest >>= d.readField f with
        | .error e => .error e
        | .ok (d, rest) =>
          match skipBlanks rest with
          | [] => .error .endInObject
          | '\x7d' :: rest => d.finish.map fun c => (c, rest)
          | ',' :: rest =>
            match skipBlanks rest with
            | [] => .error .endInValue
            | '"' :: rest => readFields (unread.erase f) d rest
            | '\x7d' :: _ => .error .trailingComma
            | _ => .error .keyNotString
          | _ => .error .expectedCommaOrBrace
      else .error (.duplicateField f.name)
termination_by unread.length
decreasing_by
  have h : f ∈ unread := by assumption
  have := List.length_erase_of_mem h
  have := List.length_pos_of_mem h
  omega

def readObject : Reader GraphConfig := fun cs =>
  match skipBlanks cs with
  | [] => .error .endInObject
  | '"' :: rest => readFields Field.values {} rest
  | '\x7d' :: rest => Draft.finish {} |>.map fun c => (c, rest)
  | _ => .error .keyNotString

/-- What a document should hold. -/
def expectedName : String := "struct GraphConfig"

/-- Reads one more element of a list, if there is one; its end is not passed. -/
def readElement {α : Type} (read : Reader α) : Reader (Option α) := fun cs =>
  match skipBlanks cs with
  | [] => .error .endInList
  | ']' :: rest => .ok (none, ']' :: rest)
  | ',' :: rest =>
    match skipBlanks rest with
    | [] => .error .endInValue
    | ']' :: _ => .error .trailingComma
    | rest => (read rest).map fun (a, rest) => (some a, rest)
  | _ => .error .expectedCommaOrBracket

/-- Reads the end of a list that has all its elements. -/
def readListEnd (cs : List Char) : Except ReadError (List Char) :=
  match skipBlanks cs with
  | [] => .error .endInList
  | ']' :: rest => .ok rest
  | ',' :: rest =>
    match skipBlanks rest with
    | ']' :: _ => .error .trailingComma
    | _ => .error .trailingCharacters
  | _ => .error .trailingCharacters

def readList : Reader GraphConfig := fun cs => do
  match skipBlanks cs with
  | [] => throw .endInList
  | ']' :: _ =>
    throw (.invalidLength 0 (expectedName ++ " with " ++ toString Field.values.length ++ " elements"))
  | rest =>
    let (n, rest) ← readCount rest
    let (kind, rest) ← readElement (readNamed GraphKind.values GraphKind.name) rest
    let (representation, rest) ← readElement (readNamed Representation.values Representation.name) rest
    let rest ← readListEnd rest
    return (⟨n, kind.getD default, representation.getD default⟩, rest)

def read : Reader GraphConfig := fun cs =>
  match skipBlanks cs with
  | [] => .error .endInValue
  | '[' :: rest => readList rest
  | '\x7b' :: rest => readObject rest
  | rest => .error (unexpected expectedName rest)

/-- The configuration that a document describes, if it describes one and a graph can have that shape. -/
def ofJson (s : String) : Except GraphError GraphConfig := do
  let c ← (readDocument read s).mapError fun e => .invalidConfig e.message
  c.validate
  return c

end GraphConfig

def GraphKind.ofJson (s : String) : Except GraphError GraphKind :=
  (readDocument (readNamed GraphKind.values GraphKind.name) s).mapError fun e => .invalidConfig e.message

def Representation.ofJson (s : String) : Except GraphError Representation :=
  (readDocument (readNamed Representation.values Representation.name) s).mapError fun e =>
    .invalidConfig e.message

end WeightedGraph
