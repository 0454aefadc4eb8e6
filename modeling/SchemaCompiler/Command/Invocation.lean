import SchemaCompiler.Command.Flag
import SchemaCompiler.Project.File

/-!
# Invocations

The commands of the program and what a command line asks of them.
-/

namespace SchemaCompiler

/-- What every command can be told; it counts more than the project file. -/
structure CommonFlags where
  projectPath : String
  inputs : List String
  modules : List String
  focus : List String
  output : String
  verbose : Bool
  watch : Bool
  logFormat : String
  deriving DecidableEq, Repr

structure ApplyFlags where
  dialect : String
  /-- The name of the data source. -/
  source : String
  schema : String
  /-- Runs the statements outside a transaction. -/
  direct : Bool
  /-- A statement that takes longer is logged. -/
  slow : Duration
  /-- The script to run; the planned migration if empty. -/
  script : String
  deriving DecidableEq, Repr

inductive Command where
  | sql (profile : String) (extensions : List String)
  | plan (profile dialect : String) (allow : List String)
  | apply (flags : ApplyFlags)
  | prisma
  | query (package : String)
  | diagram
  | models (package : String)
  | document
  | all
  deriving DecidableEq, Repr

structure Invocation where
  common : CommonFlags
  command : Command
  deriving DecidableEq, Repr

namespace Invocation

def program : String := "adlschema"

def textFlag (short : Option Char) (long description : String) : Flag :=
  ⟨short, long, .text, [], "", "", description⟩

def textsFlag (short : Option Char) (long description : String) : Flag :=
  ⟨short, long, .texts, [], "", "", description⟩

def switchFlag (short : Option Char) (long description : String) : Flag :=
  ⟨short, long, .switch, [], "", "", description⟩

def standardProject : String := "adlschema.yaml"

def commonFlags : List Flag :=
  [{ textFlag (some 'c') "config" "project file" with default := standardProject },
    textsFlag (some 'i') "input" "adlc AST file or directory",
    textsFlag (some 'm') "module" "module whose declarations are generated",
    textsFlag (some 'f') "focus" "focus module",
    textFlag (some 'o') "output" "output directory",
    switchFlag (some 'v') "verbose" "log debug messages and every written file",
    switchFlag (some 'w') "watch" "regenerate when an input changes",
    { textFlag none "log-format" "log format" with
      choices := ["auto", "text", "json"], default := "auto" }]

def profileFlag : Flag := textFlag (some 'p') "profile" "column type profile"

def dialectFlag (description : String) : Flag :=
  { textFlag (some 'd') "dialect" description with choices := ["postgres", "mysql", "sqlite"] }

def sqlFlags : List Flag :=
  [profileFlag, textsFlag none "extension" "database extension to create"]

def planFlags : List Flag :=
  [profileFlag, dialectFlag "dialect the migration is planned for",
    { textsFlag none "allow" "breaking change to allow" with
      choices := ["drop_table", "drop_column", "drop_index", "null_to_not_null", "all"] }]

def sourceVariable : String := "ADLSCHEMA_DSN"

def applyFlags : List Flag :=
  [dialectFlag "database dialect",
    { textFlag none "dsn" "data source name" with environment := sourceVariable },
    textFlag none "schema" "postgres schema the statements run in",
    switchFlag none "no-tx" "run statements outside a transaction",
    { textFlag none "slow" "log statements slower than this" with
      kind := .duration, default := "1s" }]

/-- A command with the flags that all have and those of its own. -/
def spec (name summary description : String) (own : List Flag)
    (positional : Option Positional := none) : CommandSpec :=
  ⟨name, summary, description, commonFlags ++ own, positional⟩

def commands : List CommandSpec :=
  [spec "sql" "Generate SQL DDL"
      "Writes the create, views and metadata scripts and user templates." sqlFlags,
    spec "plan" "Plan a migration"
      "Diffs the tables against the stored snapshot and writes the migration." planFlags,
    spec "apply" "Apply a SQL script"
      "Runs a migration or create script against a database." applyFlags
      (some ⟨"script", "SQL script, the planned migration by default"⟩),
    spec "prisma" "Generate a Prisma schema"
      "Writes schema.prisma from the tables and the PrismaBlocks module annotation." [],
    spec "graphql" "Generate a GraphQL schema"
      "Writes the SDL of the concrete declarations and, optionally, gqlgen.yml."
      [textFlag none "gqlgen" "Go package of the models bound in gqlgen.yml"],
    spec "mermaid" "Generate a class diagram"
      "Writes a Mermaid class diagram of the selected modules." [],
    spec "go" "Generate Go models"
      "Writes Go types whose JSON encoding follows the ADL serialization."
      [textFlag none "package" "package name of the generated file"],
    spec "ast" "Write the augmented AST"
      "Writes the loaded modules with derived annotations and generic instances." [],
    spec "all" "Run every target"
      "Runs sql, graphql, mermaid and go, plus the targets the project file configures." []]

def commonOf (line : CommandLine) : CommonFlags where
  projectPath := line.value "config" standardProject
  inputs := line.values "input"
  modules := line.values "module"
  focus := line.values "focus"
  output := line.value "output" ""
  verbose := line.isGiven "verbose"
  watch := line.isGiven "watch"
  logFormat := line.value "log-format" "auto"

def durationOf (text : String) : Duration :=
  match Duration.parse text with
  | .ok d => d
  | .error _ => 0

def applyOf (line : CommandLine) (source : Option String) : ApplyFlags where
  dialect := line.value "dialect" ""
  source := line.value "dsn" (source.getD "")
  schema := line.value "schema" ""
  direct := line.isGiven "no-tx"
  slow := durationOf (line.value "slow" "1s")
  script := line.loose.headD ""

def commandOf (name : String) (line : CommandLine) (source : Option String) : Command :=
  match name with
  | "sql" => .sql (line.value "profile" "") (line.values "extension")
  | "plan" => .plan (line.value "profile" "") (line.value "dialect" "") (line.values "allow")
  | "apply" => .apply (applyOf line source)
  | "prisma" => .prisma
  | "graphql" => .query (line.value "gqlgen" "")
  | "mermaid" => .diagram
  | "go" => .models (line.value "package" "")
  | "ast" => .document
  | _ => .all

/-- Reads a command line; `source` is the data source that the environment names. -/
def ofArgs (source : Option String) (args : List String) : Except UsageFault Invocation := do
  let (command, line) ← CommandLine.read commands args
  return ⟨commonOf line, commandOf command.name line source⟩

end Invocation

/-! ## Project files under an invocation -/

namespace CommonFlags

/-- The project file with the modules that the flags name instead. -/
def override (c : CommonFlags) (f : ProjectFile) : ProjectFile :=
  let f := if c.modules.isEmpty then f else { f with modules := some c.modules }
  if c.focus.isEmpty then f else { f with focus := some c.focus }

def project (c : CommonFlags) (tree : FileTree) : Outcome ProjectFile :=
  (ProjectFile.load tree c.projectPath).map c.override

/-- The inputs; those of the flags are relative to the working directory. -/
def inputPaths (c : CommonFlags) (f : ProjectFile) : List String :=
  if c.inputs.isEmpty then f.inputPaths else c.inputs

/-- The directory that files are written to. -/
def outputDirectory (c : CommonFlags) (f : ProjectFile) : String :=
  if c.output ≠ "" then c.output
  else if f.target ≠ "" then f.resolve f.target
  else "."

end CommonFlags

namespace Command

/-- Adds texts behind those that are given. -/
def append (items : GivenTexts) (more : List String) : GivenTexts :=
  if more.isEmpty then items else some (items.getD [] ++ more)

/-- The project file with the sections that the command changes. -/
def override : Command → ProjectFile → ProjectFile
  | sql profile extensions, f =>
    let s := f.sql.getD .blank
    { f with sql := some { s with
      profile := if profile = "" then s.profile else profile
      extensions := append s.extensions extensions } }
  | plan profile dialect allow, f =>
    let p := f.plan.getD .blank
    { f with plan := some { p with
      profile := if profile = "" then p.profile else profile
      dialect := if dialect = "" then p.dialect else dialect
      allow := append p.allow allow } }
  | query package, f =>
    if package = "" then f
    else
      let q := f.query.getD .blank
      { f with query := some { q with bindings := some { q.bindings.getD .blank with package } } }
  | models package, f =>
    if package = "" then f else { f with models := some { f.models.getD .blank with package } }
  | _, f => f

def targets : Command → ProjectFile → List String
  | sql .., _ => ["sql"]
  | plan .., _ => ["plan"]
  | apply _, _ => []
  | prisma, _ => ["prisma"]
  | query _, _ => ["graphql"]
  | diagram, _ => ["mermaid"]
  | models _, _ => ["go"]
  | document, _ => ["ast"]
  | all, f =>
    ["sql", "graphql", "mermaid", "go"] ++ (if f.prisma.isSome then ["prisma"] else [])
      ++ (if f.plan.isSome then ["plan"] else []) ++ (if f.document.isSome then ["ast"] else [])

end Command

end SchemaCompiler
