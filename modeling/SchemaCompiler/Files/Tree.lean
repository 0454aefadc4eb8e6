import SchemaCompiler.Failure
import SchemaCompiler.Keyed

/-!
# File trees

A directory as a value: files hold content, directories hold entries by name.  Operations refuse
what a file system refuses, in its words.
-/

/-!
## Paths

Paths with slashes: cleaning removes empty and dot segments and resolves parent segments as far as
the text allows; joining cleans what it joined.
-/

namespace SchemaCompiler.Path

/-- One segment after cleaned segments, which are held backwards. -/
def cleanStep (rooted : Bool) (done : List String) (segment : String) : List String :=
  if segment = "" || segment = "." then done
  else if segment = ".." then
    match done with
    | [] => if rooted then [] else [".."]
    | last :: rest => if last = ".." then ".." :: done else rest
  else segment :: done

def isAbsolute (path : String) : Bool :=
  Text.startsWith "/" path

def cleanSegments (path : String) : List String :=
  ((Text.splitOn '/' path).foldl (cleanStep (isAbsolute path)) []).reverse

/-- The shortest equal path; the empty path becomes a dot. -/
def clean (path : String) : String :=
  let segments := Text.joinWith "/" (cleanSegments path)
  if isAbsolute path then "/" ++ segments
  else if segments = "" then "." else segments

def join (parts : List String) : String :=
  match parts.filter (· ≠ "") with
  | [] => ""
  | parts => clean (Text.joinWith "/" parts)

/-- The path of the directory that holds a file. -/
def directory (path : String) : String :=
  match Text.splitLast? '/' path.toList with
  | some (head, _) => clean (String.ofList head ++ "/")
  | none => "."

/-- The last segment of a path. -/
def base (path : String) : String :=
  if path = "" then "."
  else
    match ((Text.splitOn '/' path).filter (· ≠ "")).getLast? with
    | some name => name
    | none => "/"

/-- Whether a path stays below the directory it is relative to. -/
def isLocal (path : String) : Bool :=
  path ≠ "" && !isAbsolute path && (cleanSegments path).head? ≠ some ".."

end SchemaCompiler.Path

namespace SchemaCompiler

/-- What a file holds: text, or bytes that are no text. -/
inductive Content where
  | text (value : String)
  | bytes (value : List UInt8)
  deriving DecidableEq, Repr

namespace Content

def toBytes : Content → List UInt8
  | text value => value.toUTF8.toList
  | bytes value => value

/-- Bytes as text when they are text. -/
def ofBytes (value : List UInt8) : Content :=
  match String.fromUTF8? (ByteArray.mk value.toArray) with
  | some value => text value
  | none => bytes value

def size (c : Content) : Nat :=
  match c with
  | text value => value.utf8ByteSize
  | bytes value => value.length

/-- The text of a file; bytes that are no text count as empty. -/
def toText : Content → String
  | text value => value
  | bytes _ => ""

end Content

/-- Why a file system refuses an operation. -/
inductive FileFault where
  | missing
  | notDirectory
  | isDirectory
  deriving DecidableEq, Repr

def FileFault.text : FileFault → String
  | missing => "no such file or directory"
  | notDirectory => "not a directory"
  | isDirectory => "is a directory"

def FileFault.failure (operation path : String) (fault : FileFault) : Failure :=
  .plain (operation ++ " " ++ path ++ ": " ++ fault.text)

inductive FileTree where
  | file (content : Content)
  | directory (entries : List (String × FileTree))
  deriving Repr, Inhabited

namespace FileTree

def empty : FileTree := directory []

/-- The way from the top to a path. -/
def segments (path : String) : List String :=
  Path.cleanSegments ("/" ++ path)

def atSegments : FileTree → List String → Except FileFault FileTree
  | node, [] => .ok node
  | file _, _ :: _ => .error .notDirectory
  | directory entries, name :: rest =>
    match Keyed.find? name entries with
    | none => .error .missing
    | some node => atSegments node rest

/-- The node of a path. -/
def at? (tree : FileTree) (path : String) : Except FileFault FileTree :=
  if path = "" then .error .missing else tree.atSegments (segments path)

def read (tree : FileTree) (path : String) : Outcome Content :=
  match tree.at? path with
  | .error fault => .error (fault.failure "open" path)
  | .ok (directory _) => .error (FileFault.failure "read" path .isDirectory)
  | .ok (file content) => .ok content

def putSegments (new : FileTree) : FileTree → List String → Except FileFault FileTree
  | directory _, [] => .error .isDirectory
  | file _, [] => .ok new
  | file _, _ :: _ => .error .notDirectory
  | directory entries, name :: rest =>
    match Keyed.find? name entries, rest with
    | none, [] => .ok (directory (Keyed.insert name new entries))
    | none, _ :: _ => .error .missing
    | some node, rest =>
      match putSegments new node rest with
      | .error fault => .error fault
      | .ok node => .ok (directory (Keyed.insert name node entries))

def write (tree : FileTree) (path : String) (content : Content) : Outcome FileTree :=
  if path = "" then .error (FileFault.failure "open" path .missing)
  else
    match putSegments (file content) tree (segments path) with
    | .error fault => .error (fault.failure "open" path)
    | .ok tree => .ok tree

/-- Makes a directory in a directory that is there, unless it is there already. -/
def makeDirectory (tree : FileTree) (path : String) : Outcome FileTree :=
  match tree.at? path with
  | .ok (directory _) => .ok tree
  | .ok (file _) => .error (FileFault.failure "mkdir" path .notDirectory)
  | .error _ =>
    match putSegments empty tree (segments path) with
    | .error fault => .error (fault.failure "mkdir" path)
    | .ok tree => .ok tree

/-- The texts of a path up to each of its segments. -/
def pathPrefixes (path : String) : List String :=
  let parts := Text.splitOn '/' path
  ((List.range parts.length).map fun i => Text.joinWith "/" (parts.take (i + 1))).filter (· ≠ "")

/-- Makes a directory and all that lead to it. -/
def makeDirectories (tree : FileTree) (path : String) : Outcome FileTree :=
  if path = "" then .error (FileFault.failure "mkdir" path .missing)
  else (pathPrefixes path).foldlM makeDirectory tree

def removeSegments : FileTree → List String → FileTree
  | tree, [] => tree
  | file content, _ => file content
  | directory entries, [name] => directory (entries.filter (·.1 ≠ name))
  | directory entries, name :: rest =>
    directory (entries.map fun (k, node) => if k = name then (k, node.removeSegments rest)
      else (k, node))
termination_by _ path => path.length

def remove (tree : FileTree) (path : String) : FileTree :=
  tree.removeSegments (segments path)

mutual

/-- The files below a node with their paths, by name and depth first. -/
def walk (path : String) : FileTree → List (String × Content)
  | file content => [(path, content)]
  | directory entries => walkEntries path entries

def walkEntries (path : String) : List (String × FileTree) → List (String × Content)
  | [] => []
  | (name, node) :: rest =>
    walk (if path = "" then name else path ++ "/" ++ name) node ++ walkEntries path rest

end

/-- All files in order of a walk. -/
def files (tree : FileTree) : List (String × Content) :=
  tree.walk ""

end FileTree

end SchemaCompiler
