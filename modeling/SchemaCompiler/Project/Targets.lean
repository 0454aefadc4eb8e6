import SchemaCompiler.Diagram.Text
import SchemaCompiler.Output.AugmentedDocument
import SchemaCompiler.Output.GoModels
import SchemaCompiler.Output.MigrationPlan
import SchemaCompiler.Output.PrismaSchema
import SchemaCompiler.Output.QuerySchema
import SchemaCompiler.Project.File

/-!
# Targets of a project

The choices and the outputs that a project file asks for.
-/

namespace SchemaCompiler.ProjectFile

/-- Changes options by a text, unless it is empty. -/
def unlessEmpty {α : Type} (text : String) (apply : α → String → Outcome α) (options : α) :
    Outcome α :=
  if text = "" then .ok options else apply options text

/-- A choice of a list, unless it is empty. -/
def listChoice (items : GivenTexts) (choice : List String → Choice) : List Choice :=
  match items with
  | some (item :: rest) => [choice (item :: rest)]
  | _ => []

def choices (f : ProjectFile) : List Choice :=
  (if f.target = "" then [] else [.target (f.resolve f.target)])
    ++ (if f.header = "" then [] else [.header f.header])
    ++ listChoice f.modules .modules ++ listChoice f.focus .focus
    ++ (if 0 < f.workers then [.workers f.workers] else [])
    ++ listChoice f.referenceWrappers .referenceWrappers

def scriptTemplate (f : ProjectFile) (t : TemplateSection) : ScriptTemplate :=
  ⟨f.resolve t.path, "", t.output⟩

def sqlOptions (f : ProjectFile) : Outcome SqlScripts.Options :=
  match f.sql with
  | none => .ok SqlScripts.standard
  | some s => do
    let o ← unlessEmpty s.profile SqlScripts.withProfile SqlScripts.standard
    let o := SqlScripts.withExtensions o (s.extensions.getD [])
    let o ← unlessEmpty s.create SqlScripts.withCreateFile o
    let o ← unlessEmpty s.views SqlScripts.withViewsFile o
    let o := if s.metadata = "" then o else SqlScripts.withCatalogFile o s.metadata
    SqlScripts.withTemplates o ((s.templates.getD []).map f.scriptTemplate)

/-- The profile of the plan, which is that of the scripts unless it has one of its own. -/
def planProfile (f : ProjectFile) : String :=
  let p := f.plan.getD .blank
  if p.profile = "" then (f.sql.map (·.profile)).getD "" else p.profile

/-- The file that a migration is written to. -/
def planFile (f : ProjectFile) : String :=
  let p := f.plan.getD .blank
  if p.file = "" then MigrationPlan.standard.planFile else p.file

def snapshotFile (f : ProjectFile) : String :=
  let p := f.plan.getD .blank
  if p.snapshot = "" then MigrationPlan.standard.snapshotFile else p.snapshot

/-- The options of a plan that is written to a directory, where the last snapshot lies. -/
def planOptions (f : ProjectFile) (directory : String) : Outcome MigrationPlan.Options := do
  let p := f.plan.getD .blank
  let o ← unlessEmpty f.planProfile MigrationPlan.withProfile MigrationPlan.standard
  let o ← unlessEmpty p.dialect MigrationPlan.withDialect o
  let o ← MigrationPlan.withFiles o f.planFile f.snapshotFile
  let o := if directory = "" then o
    else MigrationPlan.withStored o (Path.join [directory, f.snapshotFile])
  return MigrationPlan.withAllowed o ((p.allow.getD []).filterMap Snapshot.Allowance.ofName?)

def prismaTarget (f : ProjectFile) : Outcome Target :=
  match f.prisma with
  | none => .ok (PrismaSchema.target PrismaSchema.standard)
  | some s => do
    let o ← unlessEmpty s.file PrismaSchema.withFile PrismaSchema.standard
    return PrismaSchema.target (PrismaSchema.withExtensions o (s.extensions.getD []))

def queryTarget (f : ProjectFile) : Outcome Target :=
  match f.query with
  | none => .ok (QuerySchema.target QuerySchema.standard)
  | some s => do
    let o ← unlessEmpty s.file QuerySchema.withFile QuerySchema.standard
    match s.bindings with
    | none => return QuerySchema.target o
    | some b =>
      return QuerySchema.target (← QuerySchema.withBindings o b.package (f.resolve b.base))

def diagramTarget (f : ProjectFile) : Outcome Target := do
  let file := (f.diagram.map (·.file)).getD ""
  return DiagramFile.target (← unlessEmpty file DiagramFile.withFile DiagramFile.standard)

def modelsTarget (f : ProjectFile) : Outcome Target :=
  match f.models with
  | none => .ok (GoModels.target GoModels.standard)
  | some s => do
    let o ← unlessEmpty s.file GoModels.withFile GoModels.standard
    return GoModels.target (← unlessEmpty s.package GoModels.withPackage o)

def documentTarget (f : ProjectFile) : Outcome Target :=
  match f.document with
  | none => .ok (AugmentedDocument.target AugmentedDocument.standard)
  | some s => do
    let o ← unlessEmpty s.file AugmentedDocument.withFile AugmentedDocument.standard
    return AugmentedDocument.target { o with modules := s.modules.getD [] }

/-- The target of a name; `directory` is where its files will be written. -/
def targetOf (f : ProjectFile) (directory name : String) : Outcome Target :=
  match name with
  | "sql" => f.sqlOptions.map SqlScripts.target
  | "plan" => (f.planOptions directory).bind MigrationPlan.target
  | "prisma" => f.prismaTarget
  | "graphql" => f.queryTarget
  | "mermaid" => f.diagramTarget
  | "go" => f.modelsTarget
  | "ast" => f.documentTarget
  | _ => .error (.config "Target" (some name) "unknown target")

end SchemaCompiler.ProjectFile
