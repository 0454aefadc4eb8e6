import SchemaCompiler.Text
import SchemaCompiler.Text.LetterCase

/-!
# Query schemas

A query schema defines object types with fields, unions of object types, enumerations and
scalars.  Types of fields are named types and lists, each of them required or not.
-/

namespace SchemaCompiler.Sdl

inductive TypeRef where
  | named (name : String) (required : Bool)
  | list (item : TypeRef) (required : Bool)
  deriving DecidableEq, Repr

/-- The name below all lists. -/
def TypeRef.name : TypeRef → String
  | named name _ => name
  | list item _ => item.name

def TypeRef.text : TypeRef → String
  | named name required => name ++ (if required then "!" else "")
  | list item required => "[" ++ item.text ++ "]" ++ (if required then "!" else "")

structure Member where
  name : String
  description : String
  type : TypeRef
  deriving DecidableEq, Repr

inductive Body where
  | object (members : List Member)
  | union (alternatives : List String)
  | enumeration (values : List String)
  | scalar
  deriving DecidableEq, Repr

structure Definition where
  name : String
  description : String
  body : Body
  deriving DecidableEq, Repr

/-- The names of types that a definition uses. -/
def Definition.uses (d : Definition) : List String :=
  match d.body with
  | .object members => members.map (·.type.name)
  | .union alternatives => alternatives
  | .enumeration _ | .scalar => []

abbrev Document := List Definition

/-- The scalars that every schema has. -/
def builtinScalars : List String := ["String", "Int", "Float", "Boolean", "ID"]

/-!
## Sound query schemas

A document is sound when its types have distinct names of their own, every type that is used is
defined, unions list object types, and no object or enumeration is empty.
-/

/-- The types that describe schemas themselves. -/
def introspectionTypes : List String :=
  ["__Schema", "__Type", "__Field", "__InputValue", "__EnumValue", "__TypeKind", "__Directive",
    "__DirectiveLocation"]

/-- Names that start with two underscores are taken. -/
def isFree (name : String) : Bool := !Text.startsWith "__" name

def isObject (d : Document) (name : String) : Bool :=
  d.any fun e => e.name = name && match e.body with
    | .object _ => true
    | _ => false

def isDefined (d : Document) (name : String) : Bool :=
  builtinScalars.contains name || introspectionTypes.contains name
    || d.any fun e => e.name = name

def isSoundBody (d : Document) : Body → Bool
  | .object members =>
    !members.isEmpty && (members.map (·.name)).Nodup
      && members.all fun m => isFree m.name && isDefined d m.type.name
  | .union alternatives => alternatives.all (isObject d)
  | .enumeration values =>
    !values.isEmpty && values.all fun v => v ≠ "true" && v ≠ "false" && v ≠ "null"
  | .scalar => true

def isSound (d : Document) : Bool :=
  (d.map (·.name)).Nodup
    && d.all fun e =>
      isFree e.name && !builtinScalars.contains e.name && isSoundBody d e.body

/-!
## The text of a query schema

Definitions follow one another in order.  Members are indented by four blanks, and a description
stands between lines of three quotes.
-/

def indentation : String := "    "

def line (indent text : String) : String := indent ++ text ++ "\n"

def descriptionText (indent description : String) : String :=
  if description = "" then ""
  else
    line indent "\"\"\"" ++ String.join ((Text.splitOn '\n' description).map (line indent))
      ++ line indent "\"\"\""

/-- Names that start with two underscores belong to the language itself and are not written. -/
def memberText (m : Member) : String :=
  if Text.startsWith "__" m.name then ""
  else
    descriptionText indentation m.description
      ++ line indentation (Text.trim m.name ++ ": " ++ Text.trim m.type.text)

def blockText (parts : List String) : String :=
  if parts.isEmpty then "" else " \x7b\n" ++ String.join parts ++ "\x7d"

def Definition.text (d : Definition) : String :=
  let name := Text.trim d.name
  descriptionText "" d.description
    ++ (match d.body with
      | .object members => "type " ++ name ++ blockText (members.map memberText)
      | .union alternatives =>
        "union " ++ name
          ++ (if alternatives.isEmpty then ""
            else " = " ++ Text.trim (Text.joinWith " | " alternatives))
      | .enumeration values =>
        "enum " ++ name ++ blockText (values.map fun v => line indentation (Text.trim v))
      | .scalar => "scalar " ++ name)
    ++ "\n"

def documentText (d : Document) : String := String.join (d.map Definition.text)

end SchemaCompiler.Sdl
