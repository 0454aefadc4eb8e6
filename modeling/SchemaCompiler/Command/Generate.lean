import SchemaCompiler.Command.Invocation
import SchemaCompiler.Loader
import SchemaCompiler.Project.Targets

/-!
# Generating files

A command that generates loads the modules of its inputs, resolves them, renders its targets and
writes their files.
-/

namespace SchemaCompiler

/-- What a command leaves behind. -/
structure Performed where
  tree : FileTree
  logs : List LogLine
  failure : Option Failure

/-- A run of targets that has been set up. -/
structure GenerateJob where
  inputs : List String
  targets : List Target
  settings : Settings
  report : LogLine

namespace GenerateJob

/-- Sets up a run from the command line and the project file. -/
def ofInvocation (i : Invocation) (tree : FileTree) : Outcome GenerateJob := do
  let f := i.command.override (← i.common.project tree)
  let names := i.command.targets f
  let inputs := i.common.inputPaths f
  if inputs.isEmpty then
    .error (.config "Inputs" none
      ("no input given, use --input or the inputs of " ++ i.common.projectPath))
  let directory := i.common.outputDirectory f
  let targets ← names.mapM (f.targetOf directory)
  let settings ← Settings.ofChoices
    (f.choices ++ [.target directory, .verbose i.common.verbose])
  return ⟨inputs, targets, settings,
    ⟨.info, "generated", [("targets", LogLine.listText names), ("output", directory)]⟩⟩

/-- Renders the targets of a graph and writes their files. -/
def write (job : GenerateJob) (g : Graph) (tree : FileTree) : Performed :=
  if job.settings.target = "" then
    ⟨tree, [], some (.config "Target" none "missing target directory in config")⟩
  else
    match Target.generate g tree job.targets with
    | (logs, .error failure) => ⟨tree, logs, some failure⟩
    | (logs, .ok files) =>
      let (w, failure) := writeOutputs tree job.settings.target job.settings.verbose files
      ⟨w.tree, logs ++ w.logs ++ (if failure.isNone then [job.report] else []), failure⟩

/-- Runs once; the loader keeps its cache for the next run. -/
def perform (job : GenerateJob) (loader : Loader) (tree : FileTree) : Performed × Loader :=
  match loader.load 0 tree job.inputs with
  | (.error failure, loader) => (⟨tree, loader.logs, some failure⟩, { loader with logs := [] })
  | (.ok store, loader) =>
    let before := loader.logs
    let after := { loader with logs := [] }
    match Graph.build job.settings store with
    | .error failure => (⟨tree, before, some failure⟩, after)
    | .ok g =>
      let done := job.write g tree
      (⟨done.tree, before ++ g.report :: done.logs, done.failure⟩, after)

end GenerateJob

end SchemaCompiler
