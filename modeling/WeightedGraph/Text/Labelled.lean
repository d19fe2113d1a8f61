/-!
# Structured texts

A value shown as its name and its labelled fields, on one line (`Labelled.inline`) or with a line for every field
(`Labelled.block`).  Lists and optional values inside such a text have a form of their own.
-/

namespace WeightedGraph.Text

/-- A name and the texts of labelled fields. -/
structure Labelled where
  name : String
  fields : List (String × String)

namespace Labelled

/-- Everything on one line, with commas between the fields. -/
def inline (t : Labelled) : String :=
  t.name ++ " \x7b " ++ ", ".intercalate (t.fields.map fun (label, value) => label ++ ": " ++ value) ++ " \x7d"

/-- A line for every field, indented by four spaces and ended by a comma. -/
def block (t : Labelled) : String :=
  t.name ++ " \x7b\n" ++ .join (t.fields.map fun (label, value) => "    " ++ label ++ ": " ++ value ++ ",\n")
    ++ "\x7d"

end Labelled

/-- The texts of the elements of a list, in square brackets. -/
def listed (elements : List String) : String :=
  "[" ++ ", ".intercalate elements ++ "]"

def optional : Option String → String
  | none => "None"
  | some value => "Some(" ++ value ++ ")"

end WeightedGraph.Text
