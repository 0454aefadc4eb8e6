import SchemaCompiler.Command.Run

/-!
# The program

Fetches the files that a command line needs, runs it, and writes the files that it changed.
-/

namespace SchemaCompiler.Program

def put (tree : FileTree) (path : String) (content : Content) : FileTree :=
  match (tree.makeDirectories (Path.directory path)).bind (·.write path content) with
  | .ok tree => tree
  | .error _ => tree

/-- Adds the file of a path to a tree, if it is there.  Directories are not searched: their files
are named one by one. -/
def fetch (tree : FileTree) (path : String) : IO FileTree := do
  try
    let bytes ← IO.FS.readBinFile path
    return put tree path (.ofBytes bytes.toList)
  catch _ => return tree

def fetchAll (paths : List String) (tree : FileTree) : IO FileTree :=
  (paths.filter (· ≠ "")).foldlM fetch tree

def store (path : String) (content : Content) : IO Unit := do
  IO.FS.createDirAll (Path.directory path)
  IO.FS.writeBinFile path (ByteArray.mk content.toBytes.toArray)

/-- There is no database to connect to. -/
def surroundings (source : Option String) : Surroundings :=
  ⟨source, fun dialect _ => .error (.plain ("no driver for " ++ dialect))⟩

def report (verbose : Bool) (format : String) (logs : List LogLine) : IO Unit :=
  (shownLogs verbose logs).forM fun l => IO.eprintln (logText format l)

/-- Runs again whenever the inputs have changed. -/
partial def watch (c : CommonFlags) (job : GenerateJob) (directory : String) (paths : List String)
    (loader : Loader) (last : FileTree) : IO Unit := do
  IO.sleep 200
  let tree ← fetchAll paths .empty
  let contents (t : FileTree) : List (Option Content) :=
    job.inputs.map fun p => (t.read p).toOption
  if contents tree = contents last then watch c job directory paths loader last
  else
    let (done, loader) := job.perform loader tree
    report c.verbose c.logFormat done.logs
    for (path, content) in changedFiles tree done.tree do
      store (placedBelow directory path) content
    if let some failure := done.failure then
      IO.eprintln (RunResult.complain failure.message)
    watch c job directory paths loader tree

/-- Runs a command that has been understood. -/
def run (i : Invocation) (source : Option String) (args : List String) : IO UInt32 := do
  let tree ← fetchAll [i.common.projectPath] .empty
  let f := (i.common.project tree).toOption.getD .empty
  let paths := i.common.projectPath :: i.readPaths f
  let tree ← fetchAll paths tree
  let r := runCommand (surroundings source) args tree
  let directory := i.common.outputDirectory (i.command.override f)
  report i.common.verbose i.common.logFormat r.logs
  for (path, content) in changedFiles tree r.tree do
    store (placedBelow directory path) content
  IO.print r.output
  IO.eprint r.complaint
  match i.common.watch, GenerateJob.ofInvocation i tree with
  | true, .ok job => watch i.common job directory paths (.caching 0) tree
  | _, _ => pure ()
  return UInt32.ofNat r.exitCode

end SchemaCompiler.Program

open SchemaCompiler in
def main (args : List String) : IO UInt32 := do
  let source ← IO.getEnv Invocation.sourceVariable
  match Invocation.ofArgs source args with
  | .ok i => Program.run i source args
  | .error fault =>
    let r := RunResult.ofFault .empty fault
    IO.print r.output
    IO.eprint r.complaint
    return UInt32.ofNat r.exitCode
