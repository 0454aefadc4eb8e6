import SchemaCompiler.Datum
import SchemaCompiler.Files.Tree

/-!
# Template values

What a template works on: plain data, whole numbers and the list of tables.  A value can be
absent, which is not the same as `null`: `null` is found in data, an absent value where nothing
was given.
-/

namespace SchemaCompiler.Template

inductive Value where
  | absent
  | null
  | bool (value : Bool)
  | int (value : Int)
  | number (value : Binary64)
  | text (value : String)
  /-- Text that is not valid. -/
  | bytes (value : List UInt8)
  | list (items : List Value)
  /-- A list that holds maps only. -/
  | records (items : List Value)
  | map (members : List (String × Value))
  deriving Repr, Inhabited

namespace Value

mutual

def ofDatum : Datum → Value
  | .null => null
  | .bool value => bool value
  | .number value => number value
  | .text value => text value
  | .list items => list (ofData items)
  | .map members => map (ofMembers members)

def ofData : List Datum → List Value
  | [] => []
  | d :: rest => ofDatum d :: ofData rest

def ofMembers : List (String × Datum) → List (String × Value)
  | [] => []
  | (key, d) :: rest => (key, ofDatum d) :: ofMembers rest

end

mutual

/-- The text of a value. -/
def «show» : Value → String
  | absent | null => "<nil>"
  | bool value | int value => toString value
  | number value => value.text
  | text value => value
  | bytes _ => "�"
  | list items | records items => "[" ++ Text.joinWith " " (showItems items) ++ "]"
  | map members => "map[" ++ Text.joinWith " " (showMembers members) ++ "]"

def showItems : List Value → List String
  | [] => []
  | item :: rest => item.show :: showItems rest

def showMembers : List (String × Value) → List String
  | [] => []
  | (key, value) :: rest => (key ++ ":" ++ value.show) :: showMembers rest

end

/-- How a value is printed where it is the result of an action. -/
def printed : Value → Content
  | absent | null => .text "<no value>"
  | bytes value => .bytes value
  | v => .text v.show

/-- Whether a condition holds for a value: numbers other than zero, what is not empty. -/
def truth : Value → Bool
  | absent | null => false
  | bool value => value
  | int value => value ≠ 0
  | number value => value.mantissa ≠ 0
  | text value => value ≠ ""
  | bytes value => !value.isEmpty
  | list items | records items => !items.isEmpty
  | map members => !members.isEmpty

/-- The result of a pipeline: `null` is as good as nothing. -/
def settled : Value → Value
  | null => absent
  | v => v

def typeName : Value → String
  | absent | null => "<nil>"
  | bool _ => "bool"
  | int _ => "int"
  | number _ => "float64"
  | text _ | bytes _ => "string"
  | list _ => "[]interface {}"
  | records _ => "[]map[string]interface {}"
  | map _ => "map[string]interface {}"

/-- A value with its type, as formats tell of values they have no place for. -/
def described : Value → String
  | absent | null => "<nil>"
  | v => v.typeName ++ "=" ++ v.show

def ofContent : Content → Value
  | .text s => text s
  | .bytes b => bytes b

end Value

end SchemaCompiler.Template
