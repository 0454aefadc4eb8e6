import SchemaCompiler.Json.Reading
import SchemaCompiler.Keyed
import SchemaCompiler.Number.Binary64

/-!
# Plain data

What a JSON value means once spelling is forgotten: numbers are binary, members are in order of
their keys and occur once.  `Datum.show` is how messages and templates print it.
-/

namespace SchemaCompiler

inductive Datum where
  | null
  | bool (value : Bool)
  | number (value : Binary64)
  | text (value : String)
  | list (items : List Datum)
  | map (members : List (String × Datum))
  deriving Repr, Inhabited

namespace Datum

mutual

/-- Reads any value; a number out of range is a mismatch. -/
def read : Json → Json.Reading Datum
  | .null => .clean null
  | .bool value => .clean (bool value)
  | .num spelling =>
    match Binary64.parse? spelling with
    | some value => .clean (number value)
    | none => .mismatch null ⟨"number " ++ spelling, "float64", "", []⟩
  | .str spelling => .clean (text (Json.unescape spelling))
  | .arr items => (readItems items).andThen fun items => .clean (list items)
  | .obj members => (readMembers [] members).andThen fun members => .clean (map members)

def readItems : List Json → Json.Reading (List Datum)
  | [] => .clean []
  | item :: rest =>
    (read item).andThen fun first =>
      (readItems rest).andThen fun others => .clean (first :: others)

def readMembers (old : List (String × Datum)) :
    List (String × Json) → Json.Reading (List (String × Datum))
  | [] => .clean old
  | (key, value) :: rest =>
    (read value).andThen fun value =>
      readMembers (Keyed.insert (Json.unescape key) value old) rest

end

mutual

def «show» : Datum → String
  | null => "<nil>"
  | bool true => "true"
  | bool false => "false"
  | number value => value.text
  | text value => value
  | list items => "[" ++ Text.joinWith " " (showItems items) ++ "]"
  | map members => "map[" ++ Text.joinWith " " (showMembers members) ++ "]"

def showItems : List Datum → List String
  | [] => []
  | item :: rest => item.show :: showItems rest

def showMembers : List (String × Datum) → List String
  | [] => []
  | (key, value) :: rest => (key ++ ":" ++ value.show) :: showMembers rest

end

end Datum

end SchemaCompiler
