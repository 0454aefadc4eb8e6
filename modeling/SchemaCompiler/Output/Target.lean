import SchemaCompiler.Files.Tree
import SchemaCompiler.Graph.Shape

/-!
# Outputs

A target renders a graph into files.  Targets run one after the other; the shapes that one of
them projects are there for the next.  No two files may have one path.
-/

namespace SchemaCompiler

structure OutputFile where
  /-- Relative to the output directory. -/
  path : String
  content : Content
  deriving Repr

/-- What a target leaves behind, whether it succeeds or not. -/
structure Rendered where
  shapes : Shapes
  logs : List LogLine
  files : Outcome (List OutputFile)

structure Target where
  name : String
  /-- Renders a graph, with the files at hand and the shapes known so far. -/
  render : Graph → FileTree → Shapes → Rendered

namespace Target

/-- A target that neither asks for shapes nor reports anything. -/
def plain (name : String) (render : Graph → FileTree → Outcome (List OutputFile)) : Target where
  name
  render g files shapes := ⟨shapes, [], render g files⟩

/-- Runs targets up to the first failure. -/
def renderAll (g : Graph) (files : FileTree) : Shapes → List Target →
    List LogLine × Outcome (List (String × List OutputFile))
  | _, [] => ([], .ok [])
  | shapes, t :: rest =>
    let rendered := t.render g files shapes
    match rendered.files with
    | .error (.panic _) => (rendered.logs, .error (.panic none))
    | .error failure => (rendered.logs, .error (.generation t.name "" "" (some failure)))
    | .ok found =>
      let (logs, more) := renderAll g files rendered.shapes rest
      (rendered.logs ++ logs, more.map ((t.name, found) :: ·))

/-- The files of all targets in order; a path may occur once. -/
def distinct (seen : List (String × String)) :
    List (String × OutputFile) → Outcome (List OutputFile)
  | [] => .ok []
  | (target, f) :: rest =>
    match seen.lookup f.path with
    | some earlier =>
      .error (.generation target f.path ("file already generated by " ++ earlier) none)
    | none =>
      match distinct ((f.path, target) :: seen) rest with
      | .error failure => .error failure
      | .ok more => .ok (f :: more)

/-- The files that targets render of a graph, and what they report. -/
def generate (g : Graph) (files : FileTree) (targets : List Target) :
    List LogLine × Outcome (List OutputFile) :=
  if targets.isEmpty then ([], .error (.config "Targets" none "no target selected"))
  else
    let (logs, found) := renderAll g files [] targets
    (logs, found.bind fun found =>
      distinct [] (found.flatMap fun (target, files) => files.map (target, ·)))

end Target

def outputPaths (files : List OutputFile) : List String :=
  Text.sort (files.map (·.path))

/-!
## Writing outputs

Files are written below an output directory, which is made when it is not there.  A path that
leaves the directory is refused.
-/

/-- What has been written. -/
structure Writing where
  tree : FileTree
  written : Nat
  bytes : Nat
  logs : List LogLine

/-- Writes one file; what was written before stays. -/
def Writing.writeFile (directory : String) (verbose : Bool) (w : Writing) (f : OutputFile) :
    Writing × Option Failure :=
  if !Path.isLocal f.path then
    (w, some (.generation "write" f.path "path must be relative to the output directory" none))
  else
    let path := Path.join [directory, f.path]
    match w.tree.makeDirectories (Path.directory path) with
    | .error failure => (w, some (.context ("create directory for " ++ f.path) failure))
    | .ok tree =>
      let logs := if verbose then w.logs ++ [⟨.info, "writing file", [("path", path)]⟩]
        else w.logs
      match tree.write path f.content with
      | .error failure =>
        ({ w with tree, logs }, some (.context ("write " ++ f.path) failure))
      | .ok tree => (⟨tree, w.written + 1, w.bytes + f.content.size, logs⟩, none)

/-- Writes files in order up to the first that is refused. -/
def Writing.writeFiles (directory : String) (verbose : Bool) : Writing → List OutputFile →
    Writing × Option Failure
  | w, [] => (w, none)
  | w, f :: rest =>
    match w.writeFile directory verbose f with
    | (w, some failure) => (w, some failure)
    | (w, none) => writeFiles directory verbose w rest

def writeOutputs (tree : FileTree) (directory : String) (verbose : Bool)
    (files : List OutputFile) : Writing × Option Failure :=
  match tree.makeDirectories directory with
  | .error failure => (⟨tree, 0, 0, []⟩, some (.context "create output directory" failure))
  | .ok tree => Writing.writeFiles directory verbose ⟨tree, 0, 0, []⟩ files

end SchemaCompiler
