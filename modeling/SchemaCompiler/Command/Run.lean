import SchemaCompiler.Command.Apply
import SchemaCompiler.Command.Help

/-!
# Running commands

A command line, run once against the files of the working directory.
-/

namespace SchemaCompiler

/-- What a run can reach beside the files. -/
structure Surroundings where
  /-- The data source that the environment names. -/
  source : Option String
  /-- The database of a dialect and a data source. -/
  connect : String → String → Outcome Database.Oracle

/-- What a run shows and leaves behind. -/
structure RunResult where
  exitCode : Nat
  output : String
  /-- The message of a failure; empty if there is none. -/
  complaint : String
  logs : List LogLine
  tree : FileTree

namespace RunResult

def complain (message : String) : String :=
  Invocation.program ++ ": " ++ message ++ "\n"

def ofPerformed (p : Performed) : RunResult :=
  match p.failure with
  | none => ⟨0, "", "", p.logs, p.tree⟩
  | some failure => ⟨1, "", complain failure.message, p.logs, p.tree⟩

def ofFault (tree : FileTree) : UsageFault → RunResult
  | .help command =>
    ⟨0, Help.text Invocation.program Invocation.commands command ++ "\n", "", [], tree⟩
  | fault => ⟨1, "", complain fault.message, [], tree⟩

end RunResult

namespace Invocation

/-- Applies a script, if there is a database for it. -/
def applyScript (i : Invocation) (a : ApplyFlags) (s : Surroundings) (tree : FileTree) :
    Outcome Performed := do
  let job ← ApplyJob.ofInvocation i.common a tree
  return job.perform (← s.connect job.dialect job.source) tree

def generateFiles (i : Invocation) (tree : FileTree) : Outcome Performed := do
  let job ← GenerateJob.ofInvocation i tree
  return (job.perform (.caching 0) tree).1

def perform (i : Invocation) (s : Surroundings) (tree : FileTree) : Performed :=
  let done := match i.command with
    | .apply a => i.applyScript a s tree
    | _ => i.generateFiles tree
  match done with
  | .ok p => p
  | .error failure => ⟨tree, [], some failure⟩

end Invocation

/-! ## Files outside -/

/-- The files and directories that a run may read once the project file is known. -/
def Invocation.readPaths (i : Invocation) (f : ProjectFile) : List String :=
  let f := i.command.override f
  let directory := i.common.outputDirectory f
  let planned := [f.planFile, f.snapshotFile].map fun file => Path.join [directory, file]
  match i.command with
  | .apply a => a.script :: planned
  | _ =>
    i.common.inputPaths f ++ planned
      ++ ((f.sql.bind (·.templates)).getD []).map (f.resolve ·.path)
      ++ ((f.query.bind (·.bindings)).map (f.resolve ·.base)).toList

/-- The files of a tree that are new or differ from those of an earlier one. -/
def changedFiles (before after : FileTree) : List (String × Content) :=
  after.files.filter fun (path, content) => before.files.lookup path ≠ some content

/-- The path of a written file as the output directory spells it. -/
def placedBelow (directory path : String) : String :=
  let top := FileTree.segments directory
  let way := FileTree.segments path
  if top.isPrefixOf way then Path.join (directory :: way.drop top.length) else path

def logText (format : String) (l : LogLine) : String :=
  if format = "text" then
    Text.joinWith " " ([("level", l.level.text), ("msg", Text.quoted l.message)] ++ l.attributes
      |>.map fun (k, v) => k ++ "=" ++ v)
  else
    (Json.object ([("level", .text l.level.text), ("msg", .text l.message)]
      ++ l.attributes.map fun (k, v) => (k, .text v))).render

/-- The lines that are shown. -/
def shownLogs (verbose : Bool) (logs : List LogLine) : List LogLine :=
  logs.filter (LogLine.atLeast (if verbose then .debug else .info))

def runCommand (s : Surroundings) (args : List String) (tree : FileTree) : RunResult :=
  match Invocation.ofArgs s.source args with
  | .error fault => .ofFault tree fault
  | .ok i => .ofPerformed (i.perform s tree)

end SchemaCompiler
