import SchemaCompiler.Files.Tree
import SchemaCompiler.Yaml.Parse

/-!
# Project files

What a project asks for: its inputs and modules, and a section for each output and for the database.
A section that is not there leaves its output at the standard settings.  Paths are relative to the
directory of the file.
-/

namespace SchemaCompiler

open Yaml

/-- A list of texts, if one is given. -/
abbrev GivenTexts := Option (List String)

structure TemplateSection where
  path : String
  output : String
  deriving DecidableEq, Repr

structure SqlSection where
  profile : String
  extensions : GivenTexts
  create : String
  views : String
  metadata : String
  templates : Option (List TemplateSection)
  deriving DecidableEq, Repr

structure PlanSection where
  profile : String
  dialect : String
  file : String
  snapshot : String
  allow : GivenTexts
  deriving DecidableEq, Repr

structure ApplySection where
  dialect : String
  source : String
  schema : String
  deriving DecidableEq, Repr

structure PrismaSection where
  file : String
  extensions : GivenTexts
  deriving DecidableEq, Repr

structure BindingSection where
  package : String
  base : String
  deriving DecidableEq, Repr

structure QuerySection where
  file : String
  bindings : Option BindingSection
  deriving DecidableEq, Repr

structure DiagramSection where
  file : String
  deriving DecidableEq, Repr

structure ModelSection where
  file : String
  package : String
  deriving DecidableEq, Repr

structure DocumentSection where
  file : String
  modules : GivenTexts
  deriving DecidableEq, Repr

structure ProjectFile where
  inputs : GivenTexts
  modules : GivenTexts
  focus : GivenTexts
  target : String
  header : String
  workers : Int
  referenceWrappers : GivenTexts
  sql : Option SqlSection
  plan : Option PlanSection
  apply : Option ApplySection
  prisma : Option PrismaSection
  query : Option QuerySection
  diagram : Option DiagramSection
  models : Option ModelSection
  document : Option DocumentSection
  /-- The directory that paths are relative to. -/
  directory : String
  deriving DecidableEq, Repr

/-! ## Reading -/

open Yaml.Node (readText readTexts? readRecord readRecord? readList?)

namespace TemplateSection

def blank : TemplateSection := ⟨"", ""⟩

def read (s : TemplateSection) (n : Node) : Json.Reading TemplateSection :=
  readRecord (fun s name n =>
    match name with
    | "path" => do return { s with path := ← readText s.path n }
    | "output" => do return { s with output := ← readText s.output n }
    | _ => .clean s) s n

end TemplateSection

namespace SqlSection

def blank : SqlSection := ⟨"", none, "", "", "", none⟩

def readPart (s : SqlSection) (name : String) (n : Node) : Json.Reading SqlSection :=
  match name with
  | "profile" => do return { s with profile := ← readText s.profile n }
  | "extensions" => do return { s with extensions := ← readTexts? s.extensions n }
  | "create" => do return { s with create := ← readText s.create n }
  | "views" => do return { s with views := ← readText s.views n }
  | "metadata" => do return { s with metadata := ← readText s.metadata n }
  | "templates" => do
    return { s with templates := ← readList? TemplateSection.read .blank s.templates n }
  | _ => .clean s

end SqlSection

namespace PlanSection

def blank : PlanSection := ⟨"", "", "", "", none⟩

def readPart (s : PlanSection) (name : String) (n : Node) : Json.Reading PlanSection :=
  match name with
  | "profile" => do return { s with profile := ← readText s.profile n }
  | "dialect" => do return { s with dialect := ← readText s.dialect n }
  | "file" => do return { s with file := ← readText s.file n }
  | "snapshot" => do return { s with snapshot := ← readText s.snapshot n }
  | "allow" => do return { s with allow := ← readTexts? s.allow n }
  | _ => .clean s

end PlanSection

namespace ApplySection

def blank : ApplySection := ⟨"", "", ""⟩

def readPart (s : ApplySection) (name : String) (n : Node) : Json.Reading ApplySection :=
  match name with
  | "dialect" => do return { s with dialect := ← readText s.dialect n }
  | "dsn" => do return { s with source := ← readText s.source n }
  | "schema" => do return { s with schema := ← readText s.schema n }
  | _ => .clean s

end ApplySection

namespace PrismaSection

def blank : PrismaSection := ⟨"", none⟩

def readPart (s : PrismaSection) (name : String) (n : Node) : Json.Reading PrismaSection :=
  match name with
  | "file" => do return { s with file := ← readText s.file n }
  | "extensions" => do return { s with extensions := ← readTexts? s.extensions n }
  | _ => .clean s

end PrismaSection

namespace BindingSection

def blank : BindingSection := ⟨"", ""⟩

def readPart (s : BindingSection) (name : String) (n : Node) : Json.Reading BindingSection :=
  match name with
  | "package" => do return { s with package := ← readText s.package n }
  | "base" => do return { s with base := ← readText s.base n }
  | _ => .clean s

end BindingSection

namespace QuerySection

def blank : QuerySection := ⟨"", none⟩

def readPart (s : QuerySection) (name : String) (n : Node) : Json.Reading QuerySection :=
  match name with
  | "file" => do return { s with file := ← readText s.file n }
  | "gqlgen" => do
    return { s with bindings := ← readRecord? BindingSection.readPart .blank s.bindings n }
  | _ => .clean s

end QuerySection

namespace DiagramSection

def blank : DiagramSection := ⟨""⟩

def readPart (s : DiagramSection) (name : String) (n : Node) : Json.Reading DiagramSection :=
  match name with
  | "file" => do return { s with file := ← readText s.file n }
  | _ => .clean s

end DiagramSection

namespace ModelSection

def blank : ModelSection := ⟨"", ""⟩

def readPart (s : ModelSection) (name : String) (n : Node) : Json.Reading ModelSection :=
  match name with
  | "file" => do return { s with file := ← readText s.file n }
  | "package" => do return { s with package := ← readText s.package n }
  | _ => .clean s

end ModelSection

namespace DocumentSection

def blank : DocumentSection := ⟨"", none⟩

def readPart (s : DocumentSection) (name : String) (n : Node) :
    Json.Reading DocumentSection :=
  match name with
  | "file" => do return { s with file := ← readText s.file n }
  | "modules" => do return { s with modules := ← readTexts? s.modules n }
  | _ => .clean s

end DocumentSection

namespace ProjectFile

/-- A project that asks for nothing, in the working directory. -/
def empty : ProjectFile :=
  ⟨none, none, none, "", "", 0, none, none, none, none, none, none, none, none, none, "."⟩

def readPart (f : ProjectFile) (name : String) (n : Node) : Json.Reading ProjectFile :=
  match name with
  | "inputs" => do return { f with inputs := ← readTexts? f.inputs n }
  | "modules" => do return { f with modules := ← readTexts? f.modules n }
  | "focus" => do return { f with focus := ← readTexts? f.focus n }
  | "target" => do return { f with target := ← readText f.target n }
  | "header" => do return { f with header := ← readText f.header n }
  | "workers" => do return { f with workers := ← Node.readInt f.workers n }
  | "referenceWrappers" => do
    return { f with referenceWrappers := ← readTexts? f.referenceWrappers n }
  | "sql" => do return { f with sql := ← readRecord? SqlSection.readPart .blank f.sql n }
  | "plan" => do return { f with plan := ← readRecord? PlanSection.readPart .blank f.plan n }
  | "apply" => do return { f with apply := ← readRecord? ApplySection.readPart .blank f.apply n }
  | "prisma" => do
    return { f with prisma := ← readRecord? PrismaSection.readPart .blank f.prisma n }
  | "graphql" => do return { f with query := ← readRecord? QuerySection.readPart .blank f.query n }
  | "mermaid" => do
    return { f with diagram := ← readRecord? DiagramSection.readPart .blank f.diagram n }
  | "go" => do return { f with models := ← readRecord? ModelSection.readPart .blank f.models n }
  | "ast" => do
    return { f with document := ← readRecord? DocumentSection.readPart .blank f.document n }
  | _ => .clean f

def ofText (text : String) : Outcome ProjectFile :=
  (parse text).bind fun n => finish (readRecord readPart empty n)

end ProjectFile

/-! ## Checks -/

/-- What a part of a project file must be. -/
inductive Constraint where
  | required
  | notNegative
  | qualified
  | oneOf (values : List String)
  deriving DecidableEq, Repr

namespace Constraint

/-- The name that violations give a constraint. -/
def tag : Constraint → String
  | required => "required"
  | notNegative => "gte"
  | qualified => "contains"
  | oneOf _ => "oneof"

def admits : Constraint → String → Bool
  | required, text => text ≠ ""
  | notNegative, _ => true
  | qualified, text => Text.contains "." text
  | oneOf values, text => values.contains text

end Constraint

/-- A part that is not what it must be. -/
structure Violation where
  /-- The section that holds the part. -/
  place : String
  part : String
  constraint : Constraint
  deriving DecidableEq, Repr

namespace Violation

def text (v : Violation) : String :=
  "Key: '" ++ v.place ++ "." ++ v.part ++ "' Error:Field validation for '" ++ v.part
    ++ "' failed on the '" ++ v.constraint.tag ++ "' tag"

def ofText (place part : String) (constraint : Constraint) (text : String) : List Violation :=
  if constraint.admits text then [] else [⟨place, part, constraint⟩]

def ofItemsFrom (place part : String) (constraint : Constraint) : Nat → List String → List Violation
  | _, [] => []
  | i, text :: rest =>
    ofText place (part ++ "[" ++ toString i ++ "]") constraint text
      ++ ofItemsFrom place part constraint (i + 1) rest

def ofItems (place part : String) (constraint : Constraint) (items : GivenTexts) :
    List Violation :=
  ofItemsFrom place part constraint 0 (items.getD [])

/-- A text that may be left out. -/
def ofOptional (place part : String) (constraint : Constraint) (text : String) : List Violation :=
  if text = "" then [] else ofText place part constraint text

end Violation

namespace ProjectFile

def dialects : Constraint := .oneOf ["postgres", "mysql", "sqlite"]

def allowances : Constraint :=
  .oneOf ["drop_table", "drop_column", "drop_index", "null_to_not_null", "all"]

def templateViolations : Nat → List TemplateSection → List Violation
  | _, [] => []
  | i, t :: rest =>
    let place := "File.SQL.Templates[" ++ toString i ++ "]"
    Violation.ofText place "Path" .required t.path
      ++ Violation.ofText place "Output" .required t.output ++ templateViolations (i + 1) rest

def sectionViolations {α : Type} (f : α → List Violation) : Option α → List Violation
  | none => []
  | some s => f s

/-- All violations in order of the parts. -/
def violations (f : ProjectFile) : List Violation :=
  Violation.ofItems "File" "Inputs" .required f.inputs
    ++ Violation.ofItems "File" "Modules" .required f.modules
    ++ Violation.ofItems "File" "Focus" .required f.focus
    ++ (if f.workers < 0 then [⟨"File", "Workers", .notNegative⟩] else [])
    ++ Violation.ofItems "File" "ReferenceWrappers" .qualified f.referenceWrappers
    ++ sectionViolations (fun s => templateViolations 0 (s.templates.getD [])) f.sql
    ++ sectionViolations (fun s => Violation.ofOptional "File.Plan" "Dialect" dialects s.dialect
      ++ Violation.ofItems "File.Plan" "Allow" allowances s.allow) f.plan
    ++ sectionViolations
      (fun s => Violation.ofOptional "File.Apply" "Dialect" dialects s.dialect) f.apply
    ++ sectionViolations (fun s => sectionViolations
      (fun b => Violation.ofText "File.GraphQL.GQLGen" "Package" .required b.package)
        s.bindings) f.query

/-- Reads and checks a project file. -/
def parse (text : String) : Outcome ProjectFile := do
  let f ← ofText text
  match f.violations with
  | [] => return f
  | found => .error (.plain (Text.joinWith "\n" (found.map Violation.text)))

/-- The project file of a path; one that is not there asks for nothing. -/
def load (tree : FileTree) (path : String) : Outcome ProjectFile :=
  match tree.at? path with
  | .error .missing => .ok empty
  | _ => do
    let content ← tree.read path
    match parse content.toText with
    | .error failure => .error (.context ("config: " ++ path) failure)
    | .ok f => return { f with directory := Path.directory path }

/-- A path of the file, seen from the working directory. -/
def resolve (f : ProjectFile) (path : String) : String :=
  if path = "" || Path.isAbsolute path then path else Path.join [f.directory, path]

def inputPaths (f : ProjectFile) : List String :=
  (f.inputs.getD []).map f.resolve

end ProjectFile

end SchemaCompiler
