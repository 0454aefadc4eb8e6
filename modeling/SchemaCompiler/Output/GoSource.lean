import SchemaCompiler.Text
import SchemaCompiler.Text.LetterCase
import SchemaCompiler.Text.Quoted

/-!
# Go source files

A source file of type declarations in the layout that is customary for the language: fields and
constants in columns, a blank line before documented types and where types and constants meet.
-/

namespace SchemaCompiler.GoSource

open Text

inductive FieldType where
  | named (name : String)
  | json
  | void
  | pointer (inner : FieldType)
  | slice (inner : FieldType)
  | map (inner : FieldType)
  deriving DecidableEq, Repr

namespace FieldType

def text : FieldType → String
  | named name => name
  | json => "json.RawMessage"
  | void => "struct\x7b\x7d"
  | pointer inner => "*" ++ inner.text
  | slice inner => "[]" ++ inner.text
  | map inner => "map[string]" ++ inner.text

def usesJson : FieldType → Bool
  | named _ => false
  | json => true
  | void => false
  | pointer inner | slice inner | map inner => inner.usesJson

/-- Types that can stand in a struct without a name. -/
def isEmbeddable : FieldType → Bool
  | named _ | json | pointer (named _) | pointer json => true
  | _ => false

end FieldType

structure StructField where
  /-- Empty for an embedded type. -/
  name : String
  type : FieldType
  /-- The key of the field in documents. -/
  key : String
  deriving DecidableEq, Repr

inductive TypeBody where
  | struct (fields : List StructField)
  /-- Constants by name, with their values. -/
  | enumeration (constants : List (String × String))
  deriving DecidableEq, Repr

structure TypeDecl where
  name : String
  doc : String
  body : TypeBody
  deriving DecidableEq, Repr

structure File where
  packageName : String
  types : List TypeDecl
  deriving Repr

/-! ## Names -/

def keywords : List String :=
  ["break", "case", "chan", "const", "continue", "default", "defer", "else", "fallthrough", "for",
    "func", "go", "goto", "if", "import", "interface", "map", "package", "range", "return",
    "select", "struct", "switch", "type", "var"]

def isIdentifier (name : String) : Bool :=
  match name.toList with
  | [] => false
  | c :: rest =>
    (isLetter c || c = '_') && rest.all isWordChar && !keywords.contains name

def StructField.isValid (f : StructField) : Bool :=
  if f.name = "" then f.type.isEmbeddable else isIdentifier f.name

def TypeDecl.isValid (t : TypeDecl) : Bool :=
  isIdentifier t.name && match t.body with
    | .struct fields => fields.all StructField.isValid
    | .enumeration constants => constants.all fun (name, _) => isIdentifier name

def File.isValid (f : File) : Bool :=
  isIdentifier f.packageName && f.packageName ≠ "_"
    && f.types.all fun t => t.isValid && !(contains "\n" t.doc && contains "*/" t.doc)

/-! ## Comments -/

def isGrave (c : Char) : Bool := c.toNat = 0x60

/-- Two grave accents open a quotation and two apostrophes close it; longer runs of grave accents
stay. -/
def quotations (inRun : Bool) : List Char → List Char
  | [] => []
  | [c] => [c]
  | c :: d :: rest =>
    if isGrave c && isGrave d then
      if inRun || rest.head?.any isGrave then c :: quotations true (d :: rest)
      else '“' :: quotations false rest
    else if c = '\'' && d = '\'' then '”' :: quotations false rest
    else c :: quotations false (d :: rest)

def isIndented (line : String) : Bool :=
  match line.toList with
  | ' ' :: _ | '\t' :: _ => true
  | _ => false

def trimEnd (line : String) : String :=
  String.ofList (line.toList.reverse.dropWhile isSpaceChar).reverse

inductive Passage where
  | paragraph (lines : List String)
  | code (lines : List String)
  deriving DecidableEq, Repr

/-- The passages of a comment: blank lines part paragraphs, indented lines are code. -/
def passages (open' : Option Passage) : List String → List Passage
  | [] => open'.toList
  | line :: rest =>
    if trim line = "" then
      match open' with
      | some (.code lines) =>
        if (rest.find? fun l => trim l ≠ "").any isIndented then
          passages (some (.code (lines ++ [""]))) rest
        else Passage.code lines :: passages none rest
      | some p => p :: passages none rest
      | none => passages none rest
    else if isIndented line then
      match open' with
      | some (.code lines) => passages (some (.code (lines ++ [line]))) rest
      | p => p.toList ++ passages (some (.code [line])) rest
    else
      match open' with
      | some (.paragraph lines) => passages (some (.paragraph (lines ++ [line]))) rest
      | p => p.toList ++ passages (some (.paragraph [line])) rest

/-- The white space that all lines start with. -/
def commonIndent : List (List Char) → List Char
  | [] => []
  | [line] => line.takeWhile fun c => c = ' ' || c = '\t'
  | line :: rest =>
    let indent := commonIndent rest
    ((line.zip indent).takeWhile fun (a, b) => a = b).map (·.1)

def Passage.lines : Passage → List String
  | paragraph lines => lines.map fun l => trimEnd (String.ofList (quotations false l.toList))
  | code lines =>
    let indent := commonIndent ((lines.filter (· ≠ "")).map String.toList)
    lines.map fun l =>
      if l = "" then "" else trimEnd ("\t" ++ String.ofList (l.toList.drop indent.length))

def passageLines : List Passage → List String
  | [] => []
  | [p] => p.lines
  | p :: rest => p.lines ++ "" :: passageLines rest

def commentLines (t : TypeDecl) : List String :=
  if t.doc = "" then []
  else
    let text := t.name ++ " " ++ t.doc
    if contains "\n" text then
      ["/*"] ++ passageLines (passages none (splitOn '\n' text)) ++ ["*/"]
    else [trimEnd ("// " ++ String.ofList (quotations false text.toList))]

/-! ## Declarations -/

def tagText (f : StructField) : String :=
  let tag := "json:" ++ quoted f.key
  if tag.toList.all fun c => (0x20 ≤ c.toNat || c = '\t') && c.toNat ≠ 0x60 && c.toNat ≠ 0x7f
      && c.toNat ≠ 0xfeff then
    "\x60" ++ tag ++ "\x60"
  else quoted tag

def longest (texts : List String) : Nat := (texts.map String.length).foldl max 0

/-- The widest type among the fields up to the next embedded one. -/
def typeWidth (fields : List StructField) : Nat :=
  longest ((fields.takeWhile (·.name ≠ "")).map (·.type.text))

/-- The lines of fields; `width` is that of the types around. -/
def fieldLines (nameWidth width : Nat) : List StructField → List String
  | [] => []
  | f :: rest =>
    if f.name = "" then
      (padRight nameWidth f.type.text ++ " " ++ tagText f)
        :: fieldLines nameWidth (typeWidth rest) rest
    else
      (padRight nameWidth f.name ++ " " ++ padRight width f.type.text ++ " "
        ++ tagText f) :: fieldLines nameWidth width rest

def structLines (name : String) (fields : List StructField) : List String :=
  if fields.isEmpty then ["type " ++ name ++ " struct\x7b\x7d"]
  else
    let nameWidth := longest (fields.map fun f => if f.name = "" then f.type.text else f.name)
    ["type " ++ name ++ " struct \x7b"]
      ++ (fieldLines nameWidth (typeWidth fields) fields).map ("\t" ++ ·) ++ ["\x7d"]

def constantLines (type : String) (constants : List (String × String)) : List String :=
  if constants.isEmpty then ["const ()"]
  else
    let width := longest (constants.map (·.1))
    ["const ("] ++ (constants.map fun (name, value) =>
      "\t" ++ padRight width name ++ " " ++ type ++ " = " ++ quoted value) ++ [")"]

/-- The lines of a type; a blank line stands before one that is documented or follows
constants. -/
def typeLines (afterConstants : Bool) (t : TypeDecl) : List String :=
  let comment := commentLines t
  (if afterConstants || !comment.isEmpty then [""] else []) ++ comment
    ++ match t.body with
      | .struct fields => structLines t.name fields
      | .enumeration constants =>
        ["type " ++ t.name ++ " string", ""] ++ constantLines t.name constants

def isEnumeration (t : TypeDecl) : Bool :=
  match t.body with
  | .enumeration _ => true
  | .struct _ => false

def bodyLines (afterConstants : Bool) : List TypeDecl → List String
  | [] => []
  | t :: rest => typeLines afterConstants t ++ bodyLines (isEnumeration t) rest

def usesJson (f : File) : Bool :=
  f.types.any fun t => match t.body with
    | .struct fields => fields.any fun f => f.type.usesJson
    | .enumeration _ => false

def File.lines (f : File) : List String :=
  ["// Code generated by adlschema. DO NOT EDIT.", "", "package " ++ f.packageName]
    ++ (if usesJson f then ["", "import \"encoding/json\""] else [])
    ++ match bodyLines false f.types with
      | [] => []
      | "" :: body | body => "" :: body

/-- The source, unless a name in it is none of the language. -/
def File.text? (f : File) : Option String :=
  if f.isValid then some (String.join (f.lines.map (· ++ "\n"))) else none

end SchemaCompiler.GoSource
