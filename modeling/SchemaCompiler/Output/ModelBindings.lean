import SchemaCompiler.Files.Tree
import SchemaCompiler.Naming
import SchemaCompiler.Yaml.Parse
import SchemaCompiler.Yaml.Text

/-!
# Model bindings

A file that tells a server generator which schema files there are, and which models stand for the
types of the schema.  What is there is kept; what is missing is added.
-/

namespace SchemaCompiler

open Yaml.Node

structure GeneratedFile where
  filename : String
  package : String
  deriving DecidableEq, Repr

structure ModelBindings where
  schema : List String
  exec : GeneratedFile
  model : GeneratedFile
  autobind : List String
  /-- The models of each type; without a table no type can be bound. -/
  models : Option (List (String × List String))
  deriving DecidableEq, Repr

namespace ModelBindings

def blank : ModelBindings := ⟨[], ⟨"", ""⟩, ⟨"", ""⟩, [], none⟩

/-- The bindings with a table, which is empty if there was none. -/
def withTable (b : ModelBindings) : ModelBindings :=
  { b with models := some (b.models.getD []) }

/-- Adds a text to a list unless it is there. -/
def addTo (texts : List String) (text : String) : List String :=
  if texts.contains text then texts else texts ++ [text]

def addSchema (b : ModelBindings) (path : String) : ModelBindings :=
  { b with schema := addTo b.schema path }

def modelsOf? (b : ModelBindings) (type : String) : Option (List String) :=
  b.models.bind (·.lookup type)

def put (models : List (String × List String)) (type : String) (new : List String) :
    List (String × List String) :=
  match models with
  | [] => [(type, new)]
  | (t, old) :: rest => if t = type then (t, new) :: rest else (t, old) :: put rest type new

def addModel (b : ModelBindings) (type model : String) : Outcome ModelBindings :=
  match b.models with
  | none => .error (.panic none)
  | some models =>
    .ok { b with models := some (put models type (addTo ((b.modelsOf? type).getD []) model)) }

/-- The scalar of maps, and its model. -/
def mapScalar : String := "StringMap"

def mapModel : String := "github.com/99designs/gqlgen/graphql.Map"

/-- Binds a type to a model of a package, unless it is bound. -/
def bindType (package : String) (b : ModelBindings) (type : String) : Outcome ModelBindings :=
  if type = mapScalar then b.addModel type mapModel
  else if (b.modelsOf? type).isSome then .ok b
  else b.addModel type (package ++ "." ++ Naming.exported type)

/-- Adds a schema file and binds types to the models of a package. -/
def bind (b : ModelBindings) (schemaFile package : String) (types : List String) :
    Outcome ModelBindings :=
  types.foldlM (bindType package) (b.addSchema schemaFile)

/-! ## Documents -/

/-- One text or a list of texts. -/
def readTexts (old : List String) : Yaml.Node → Json.Reading (List String)
  | .scalar text plain =>
    if (scalar text plain).isNull then .clean [] else .clean [text]
  | .sequence items => do
    return (← readTexts? (some old) (.sequence items)).getD []
  | .mapping _ => .error (.plain "expected string or list, got 4")

def readFile (old : GeneratedFile) (n : Yaml.Node) : Json.Reading GeneratedFile :=
  readRecord (fun f name n =>
    match name with
    | "filename" => do return { f with filename := ← readText f.filename n }
    | "package" => do return { f with package := ← readText f.package n }
    | _ => .clean f) old n

def readModel (n : Yaml.Node) : Json.Reading (List String) :=
  readRecord (fun models name n =>
    match name with
    | "model" => readTexts models n
    | _ => .clean models) [] n

def readModels (n : Yaml.Node) : Json.Reading (List (String × List String)) :=
  readRecord (fun models name n => do
    return models ++ [(name, ← readModel n)]) [] n

def readAll (n : Yaml.Node) : Json.Reading ModelBindings :=
  readRecord (fun b name n =>
    match name with
    | "schema" => do return { b with schema := ← readTexts b.schema n }
    | "exec" => do return { b with exec := ← readFile b.exec n }
    | "model" => do return { b with model := ← readFile b.model n }
    | "autobind" => do
      return { b with autobind := (← readTexts? (some b.autobind) n).getD [] }
    | "models" => do return { b with models := some (← readModels n) }
    | _ => .clean b) blank n

def parse (text : String) : Outcome ModelBindings :=
  match (Yaml.parse text).bind fun n => Yaml.finish (readAll n) with
  | .ok b => .ok b.withTable
  | .error failure => .error (.context "parse gqlgen config" failure)

/-- The bindings in a file; a file that is not there holds none. -/
def stored (tree : FileTree) (path : String) : Outcome ModelBindings :=
  match tree.at? path with
  | .error .missing => .ok blank.withTable
  | _ =>
    match tree.read path with
    | .error failure => .error (.context "read gqlgen config" failure)
    | .ok content => parse content.toText

def textNode (text : String) : Yaml.Node := .scalar text false

/-- One text as itself, several as a list. -/
def textsNode : List String → Yaml.Node
  | [text] => textNode text
  | texts => .sequence (texts.map textNode)

def textEntry (name text : String) : List (String × Yaml.Node) :=
  if text = "" then [] else [(name, textNode text)]

def fileEntry (name : String) (f : GeneratedFile) : List (String × Yaml.Node) :=
  let entries := textEntry "filename" f.filename ++ textEntry "package" f.package
  if entries.isEmpty then [] else [(name, .mapping entries)]

def modelNode (models : List String) : Yaml.Node :=
  .mapping (if models.isEmpty then [] else [("model", textsNode models)])

def toNode (b : ModelBindings) : Yaml.Node :=
  .mapping ((if b.schema.isEmpty then [] else [("schema", textsNode b.schema)])
    ++ fileEntry "exec" b.exec ++ fileEntry "model" b.model
    ++ (if b.autobind.isEmpty then [] else [("autobind", .sequence (b.autobind.map textNode))])
    ++ (if (b.models.getD []).isEmpty then []
      else [("models", .mapping (Yaml.sortEntries ((b.models.getD []).map fun (type, models) =>
        (type, modelNode models))))]))

def text (b : ModelBindings) : String := Yaml.render b.toNode

end ModelBindings

end SchemaCompiler
