import SchemaCompiler.Command.Generate
import SchemaCompiler.Database.Apply

/-!
# Applying scripts

The apply command runs a script against a database: the planned migration, unless it is told
another.  After a planned migration it looks whether all tables of the snapshot are there.
-/

namespace SchemaCompiler

open Database MigrationPlan

namespace ProjectFile

/-- The first text that is not empty. -/
def firstOf : List String → String
  | [] => ""
  | text :: rest => if text = "" then firstOf rest else text

/-- The profile that a script was made with. -/
def appliedProfile (f : ProjectFile) : String :=
  match f.plan.filter (·.profile ≠ ""), f.sql with
  | some plan, _ => plan.profile
  | none, some scripts => scripts.profile
  | none, none => ""

/-- The dialect that a script is applied in: one that is named, else that of the profile. -/
def applyDialect (f : ProjectFile) (named : String) : Outcome String :=
  match firstOf [named, (f.apply.map (·.dialect)).getD "", (f.plan.map (·.dialect)).getD ""] with
  | "" =>
    match Dialect.ofProfile f.appliedProfile with
    | .ok d => .ok d.name
    | .error failure => .error (.config "Dialect" (some f.appliedProfile) failure.message)
  | name => .ok name

/-- The files that are looked for: the planned migration and the snapshot. -/
def appliedFiles (f : ProjectFile) : String × String :=
  match f.plan with
  | none => (standard.planFile, standard.snapshotFile)
  | some plan =>
    (firstOf [plan.file, standard.planFile],
      firstOf [plan.snapshot, standard.snapshotFile])

end ProjectFile

/-- A script to be applied. -/
structure ApplyJob where
  dialect : String
  source : String
  schema : String
  direct : Bool
  slow : Duration
  verbose : Bool
  /-- The path of the script. -/
  script : String
  text : String
  /-- The snapshot to be checked; none for a script of one's own. -/
  snapshot : Option String

namespace ApplyJob

def ofProject (c : CommonFlags) (a : ApplyFlags) (tree : FileTree) (f : ProjectFile) :
    Outcome ApplyJob := do
  let dialect ← f.applyDialect a.dialect
  let source := ProjectFile.firstOf [a.source, (f.apply.map (·.source)).getD ""]
  if source = "" then
    .error (.config "DSN" none "missing data source name, use --dsn or apply.dsn")
  let directory := c.outputDirectory f
  let planned := a.script = ""
  let (planFile, snapshotFile) := f.appliedFiles
  let script := if planned then Path.join [directory, planFile] else a.script
  let content ← tree.read script
  let schema := ProjectFile.firstOf [a.schema, (f.apply.map (·.schema)).getD ""]
  return ⟨dialect, source, schema, a.direct, a.slow, c.verbose, script, content.toText,
    if planned then some (Path.join [directory, snapshotFile]) else none⟩

def ofInvocation (c : CommonFlags) (a : ApplyFlags) (tree : FileTree) : Outcome ApplyJob := do
  ofProject c a tree (← c.project tree)

/-- Looks whether the tables of the snapshot are there, and counts them. -/
def verify (job : ApplyJob) (d : Driver) (ctx : Context) (tree : FileTree)
    (path : String) : Session (Outcome Nat) := do
  match Snapshot.stored tree path with
  | .error failure => return .error failure
  | .ok snapshot =>
    let wanted := snapshot.tables.map (·.name)
    if wanted.isEmpty then return .ok 0
    else
      match ← missingTables d ctx wanted with
      | .error failure => return .error failure
      | .ok [] => return .ok wanted.length
      | .ok missing =>
        return .error (.generation "apply" job.script
          ("tables of " ++ Path.base path ++ " missing after migration: "
            ++ Text.joinWith ", " missing) none)

/-- Checks the snapshot, if there is one to be checked. -/
def check (job : ApplyJob) (d : Driver) (ctx : Context) (tree : FileTree) :
    Session (Outcome (Option Nat)) :=
  match job.snapshot with
  | none => return .ok none
  | some path => do return (← job.verify d ctx tree path).map some

def driver (job : ApplyJob) : Driver :=
  let counted := (Driver.plain job.dialect).counted
  if job.verbose then counted.logged else counted

def session (job : ApplyJob) (tree : FileTree) : Session (Option Failure) := do
  let d := job.driver
  let ctx := if job.schema ≠ "" && job.dialect = Dialect.postgres.name then
    Context.plain.withSearchPath job.schema else .plain
  let applied ← apply d ctx ⟨job.schema, job.direct⟩ job.text
  if let some failure := applied.failure then return some failure
  match ← job.check d ctx tree with
  | .error failure => return some failure
  | .ok tables =>
    let statistics := (← get).statistics
    Session.log ⟨.info, "migration applied",
      [("statements", toString applied.count)]
        ++ (tables.map fun n => ("tables", toString n)).toList
        ++ [("stats", statistics.text)]⟩
    return none

/-- Applies the script to a database. -/
def perform (job : ApplyJob) (database : Oracle) (tree : FileTree) : Performed :=
  let (failure, world) := (job.session tree).run database (.new job.slow)
  ⟨tree, world.logs.map fun l => { l with attributes := ("script", job.script) :: l.attributes },
    failure⟩

end ApplyJob

end SchemaCompiler
