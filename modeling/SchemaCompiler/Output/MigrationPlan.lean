import SchemaCompiler.Migration.Finding
import SchemaCompiler.Migration.Statement
import SchemaCompiler.Output.SqlScripts

/-!
# Migration plans

The script that moves a database from a stored snapshot to the tables of a graph, and the snapshot
to be stored for the next time.  Changes that lose data are refused unless they are allowed.
-/

namespace SchemaCompiler.MigrationPlan

structure Options where
  profile : Profile
  /-- Given by the profile if none. -/
  dialect : Option Dialect
  /-- The path of the stored snapshot; none if empty. -/
  storedPath : String
  planFile : String
  snapshotFile : String
  allowed : List Snapshot.Allowance
  planners : Dialect → Planner

def standard : Options :=
  ⟨.postgresql2, none, "", "migrate.sql", "schema.snapshot.json", [], Dialect.planner⟩

def withProfile (o : Options) (name : String) : Outcome Options := do
  return { o with profile := ← SqlScripts.profileOption name }

def withDialect (o : Options) (name : String) : Outcome Options :=
  match Dialect.ofName? name with
  | some d => .ok { o with dialect := some d }
  | none => .error (.config "Dialect" (some name) "unsupported dialect")

def withStored (o : Options) (path : String) : Options :=
  { o with storedPath := path }

def withFiles (o : Options) (plan snapshot : String) : Outcome Options :=
  if plan = "" || snapshot = "" then
    .error (.config "PlanFiles" (some (plan ++ "," ++ snapshot)) "file name cannot be empty")
  else .ok { o with planFile := plan, snapshotFile := snapshot }

def withAllowed (o : Options) (allowed : List Snapshot.Allowance) : Options :=
  { o with allowed := o.allowed ++ allowed }

/-- The dialect of the plan. -/
def dialectOf (o : Options) : Outcome Dialect :=
  match o.dialect with
  | some d => .ok d
  | none =>
    match Dialect.ofProfile o.profile.name with
    | .ok d => .ok d
    | .error failure => .error (.config "Profile" (some o.profile.name) failure.message)

/-- The snapshot to start from. -/
def stored (o : Options) (tree : FileTree) : Outcome Snapshot :=
  if o.storedPath = "" then .ok .empty
  else
    match Snapshot.stored tree o.storedPath with
    | .ok s => .ok s
    | .error failure => .error (.generation "plan" o.storedPath "read snapshot" (some failure))

def profileLog (current desired : Snapshot) : List LogLine :=
  if current.profile ≠ "" && current.profile ≠ desired.profile then
    [⟨.warn, "snapshot profile differs",
      [("snapshot", current.profile), ("profile", desired.profile)]⟩]
  else []

def header (d : Dialect) (modules : List String) (found : Findings) : List String :=
  ("Migration planned for " ++ d.name ++ " from adl modules: " ++ Text.joinWith ", " modules)
    :: found.warnings.map fun w => "warning: " ++ w.text

def planLog (d : Dialect) (m : Migration) (found : Findings) : LogLine :=
  ⟨.debug, "migration planned",
    [("dialect", d.name), ("changes", toString m.statements.length),
      ("warnings", toString found.warnings.length)]⟩

/-- A failure that is passed on as it is, or becomes the cause of one in a file. -/
def inFile (file : String) : Failure → Failure
  | .panic message => .panic message
  | failure => .generation "plan" file "" (some failure)

/-- Plans the migration between two snapshots. -/
def planned (o : Options) (d : Dialect) (modules : List String) (current desired : Snapshot) :
    List LogLine × Outcome (List OutputFile) :=
  let found := Snapshot.compare current desired o.allowed
  let logs := profileLog current desired
  if found.hasErrors then
    (logs, .error (.generation "plan" o.planFile "breaking changes" found.failure?))
  else
    match Migration.between o.planners d.name (Text.dropTail ".sql" o.planFile) current desired with
    | .error failure => (logs, .error (inFile o.planFile failure))
    | .ok m =>
      (logs ++ [planLog d m found],
        .ok [⟨o.planFile, .text (m.script (header d modules found))⟩,
          ⟨o.snapshotFile, .text desired.text⟩])

/-- Plans the migration from the stored snapshot to the tables of a schema. -/
def forSchema (o : Options) (d : Dialect) (tree : FileTree) (s : Schema) :
    List LogLine × Outcome (List OutputFile) :=
  let desired := Snapshot.ofSchema s
  let found := desired.check
  if found.hasErrors then
    ([], .error (.generation "plan" o.snapshotFile "invalid schema" found.failure?))
  else
    match stored o tree with
    | .error failure => ([], .error failure)
    | .ok current => planned o d s.modules current desired

def render (o : Options) (d : Dialect) (g : Graph) (tree : FileTree) (shapes : Shapes) :
    Rendered :=
  match Schema.build g o.profile with
  | .error failure => ⟨shapes, [], .error failure⟩
  | .ok s =>
    let (logs, files) := forSchema o d tree s
    ⟨shapes, logs, files⟩

def target (o : Options) : Outcome Target := do
  let d ← dialectOf o
  return ⟨"plan", render o d⟩

end SchemaCompiler.MigrationPlan
