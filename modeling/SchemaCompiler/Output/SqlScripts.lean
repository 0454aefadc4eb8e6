import SchemaCompiler.Output.Target
import SchemaCompiler.Ddl.Catalog
import SchemaCompiler.Ddl.Script
import SchemaCompiler.Template.Run

/-!
# SQL scripts

The scripts that create the tables and the views of a schema, a script that fills its catalog, and
texts rendered of templates.
-/

namespace SchemaCompiler

/-- A template, given as text or as a file, and the file that is rendered of it. -/
structure ScriptTemplate where
  path : String
  text : String
  output : String
  deriving Repr

namespace SqlScripts

structure Options where
  profile : Profile
  extensions : List String
  createFile : String
  viewsFile : String
  /-- None if empty. -/
  catalogFile : String
  templates : List ScriptTemplate

def standard : Options := ⟨.postgresql2, [], "create.sql", "views.sql", "", []⟩

def profileOption (name : String) : Outcome Profile :=
  match Profile.ofName name with
  | .ok profile => .ok profile
  | .error failure => .error (.config "Profile" (some name) failure.message)

def withProfile (o : Options) (name : String) : Outcome Options := do
  return { o with profile := ← profileOption name }

def withExtensions (o : Options) (names : List String) : Options :=
  { o with extensions := o.extensions ++ names }

def withCreateFile (o : Options) (name : String) : Outcome Options :=
  if name = "" then .error (.config "CreateFile" (some name) "file name cannot be empty")
  else .ok { o with createFile := name }

def withViewsFile (o : Options) (name : String) : Outcome Options :=
  if name = "" then .error (.config "ViewsFile" (some name) "file name cannot be empty")
  else .ok { o with viewsFile := name }

def withCatalogFile (o : Options) (name : String) : Options :=
  { o with catalogFile := name }

def checkTemplate (t : ScriptTemplate) : Outcome Unit :=
  if t.output = "" then
    .error (.config "Templates" (some t.path) "template output cannot be empty")
  else if t.path = "" && t.text = "" then
    .error (.config "Templates" (some t.output) "template has neither path nor text")
  else .ok ()

def withTemplates (o : Options) (templates : List ScriptTemplate) : Outcome Options := do
  templates.forM checkTemplate
  return { o with templates := o.templates ++ templates }

def annotationValue : RawValue → Template.Value
  | .absent => .null
  | .unreadable text => .text text
  | .json j =>
    match (Datum.read j).finish with
    | .ok d => .ofDatum d
    | .error _ => .text j.render

/-- A table inside a template: its name and the annotations of its declaration. -/
def tableRecord (t : Table) : Template.Value :=
  .map (t.decl.decl.decl.annotations.foldl
    (fun members a => Keyed.insert a.key.name (annotationValue a.value) members)
    [("tablename", .text t.name)])

def templateData (s : Schema) : Template.Value :=
  .map [("tables", .records (s.tables.map tableRecord))]

/-- The name of a template is the last part of its path. -/
def templateName (path : String) : String :=
  if path = "" then "template" else Path.base path

def renderTemplate (files : FileTree) (s : Schema) (t : ScriptTemplate) : Outcome OutputFile := do
  let text ←
    if t.text ≠ "" then pure t.text
    else
      match files.read t.path with
      | .ok content => pure content.toText
      | .error failure => .error (.generation "template" t.output "read template" (some failure))
  match Template.render? (templateName t.path) text (templateData s) with
  | some content => return ⟨t.output, content⟩
  | none => .error (.generation "template" t.output "" (some (.malformed .template)))

def files (o : Options) (g : Graph) (tree : FileTree) : Outcome (List OutputFile) := do
  let s ← Schema.build g o.profile
  let catalog ←
    if o.catalogFile = "" then pure []
    else
      match Ddl.catalogScript g.store s with
      | .ok script => pure [⟨o.catalogFile, .text script⟩]
      | .error failure => .error (.generation "metadata" o.catalogFile "" (some failure))
  let rendered ← o.templates.mapM (renderTemplate tree s)
  return [⟨o.createFile, .text (Ddl.createScript s o.extensions)⟩,
    ⟨o.viewsFile, .text (Ddl.viewsScript s)⟩] ++ catalog ++ rendered

def target (o : Options) : Target := .plain "sql" (files o)

end SqlScripts

end SchemaCompiler
