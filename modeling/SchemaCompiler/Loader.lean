import SchemaCompiler.Cache.Bundle
import SchemaCompiler.Cache.Entries
import SchemaCompiler.Files.Tree
import SchemaCompiler.Store

/-!
# Loading modules

Reads the module documents among files, through a cache when there is one.  Of each file the cache
keeps the modules of its last content, so a file that has not changed is not read again.
-/

namespace SchemaCompiler

structure Loader where
  /-- The bundles of earlier loads, when there is a cache. -/
  cache : Option (Cache (List UInt8))
  /-- How long a bundle is kept, in nanoseconds. -/
  life : Int
  logs : List LogLine

namespace Loader

/-- A loader without a cache. -/
def plain : Loader := ⟨none, 0, []⟩

def caching (life : Int) : Loader := ⟨some .empty, life, []⟩

def log (l : Loader) (level : LogLevel) (message : String) (attributes : List (String × String)) :
    Loader :=
  { l with logs := l.logs ++ [⟨level, message, attributes⟩] }

/-- The files of a path: the path itself, or the documents below a directory. -/
def filesOf (tree : FileTree) (path : String) : Outcome (List String) :=
  match tree.at? path with
  | .error fault => .error (.context "load" (fault.failure "stat" path))
  | .ok (.file _) => .ok [path]
  | .ok node =>
    let top := if Path.clean path = "." then "" else Path.clean path
    .ok (((node.walk top).map (·.1)).filter (Text.endsWith ".json"))

/-- The files of several paths, each once, in order of their names. -/
def expand (tree : FileTree) (paths : List String) : Outcome (List String) := do
  return Text.sortedSet (← paths.mapM (filesOf tree)).flatten

def keyOf (path : String) (content : Content) : CacheKey :=
  ⟨path, Digest.hex content.toBytes⟩

/-- What the cache holds of a content. -/
def cached? (l : Loader) (now : Int) (key : CacheKey) : Option (List UInt8) :=
  match l.cache with
  | none => none
  | some cache => cache.get? now key.text

/-- Replaces what the cache held of a file. -/
def keep (l : Loader) (now : Int) (key : CacheKey) (bundle : List UInt8) : Loader :=
  { l with cache := l.cache.map fun c =>
      (c.deleteUnder key.head).set now key.text bundle l.life }

def countText (modules : List SchemaModule) : String := toString modules.length

/-- Reads a document and keeps its modules in the cache. -/
def decodeFile (l : Loader) (now : Int) (path : String) (content : Content) :
    Outcome (List SchemaModule) × Loader :=
  match SchemaModule.decode path content.toText with
  | .error failure => (.error failure, l)
  | .ok modules =>
    let l := l.log .debug "decoded ast" [("source", path), ("modules", countText modules)]
    if l.cache.isNone then (.ok modules, l)
    else
      match Bundle.encode modules with
      | .error failure => (.error failure, l)
      | .ok bundle => (.ok modules, l.keep now (keyOf path content) bundle)

/-- The modules of a content: from the cache if they can be had there, else from the document. -/
def loadContent (l : Loader) (now : Int) (path : String) (content : Content) :
    Outcome (List SchemaModule) × Loader :=
  match l.cache.bind fun _ => l.cached? now (keyOf path content) with
  | none => l.decodeFile now path content
  | some bundle =>
    match Bundle.decode? bundle with
    | some modules =>
      (.ok modules,
        l.log .debug "loaded from cache" [("source", path), ("modules", countText modules)])
    | none =>
      (l.log .warn "discarding corrupt cache entry" [("source", path)]).decodeFile now path content

def loadFile (l : Loader) (now : Int) (tree : FileTree) (path : String) :
    Outcome (List SchemaModule) × Loader :=
  match tree.read path with
  | .error failure => (.error (.context ("load: read " ++ path) failure), l)
  | .ok content => l.loadContent now path content

/-- Loads file after file; one that fails does not keep the others from being loaded. -/
def loadFiles (now : Int) (tree : FileTree) :
    Loader → List String → List (Outcome (List SchemaModule)) × Loader
  | l, [] => ([], l)
  | l, path :: rest =>
    let (one, l) := l.loadFile now tree path
    let (others, l) := loadFiles now tree l rest
    (one :: others, l)

def failures : List (Outcome (List SchemaModule)) → List Failure
  | [] => []
  | .ok _ :: rest => failures rest
  | .error failure :: rest => failure :: failures rest

/-- The modules of all files in order of their names, or what went wrong with any of them. -/
def gather (outcomes : List (Outcome (List SchemaModule))) : Outcome (List SchemaModule) :=
  match failures outcomes with
  | [] => do
    return (← outcomes.mapM id).flatten.mergeSort fun a b => Text.le a.name b.name
  | causes =>
    match causes.find? (· matches .panic _) with
    | some failure => .error failure
    | none => .error (.aggregate causes)

def loadModules (l : Loader) (now : Int) (tree : FileTree) (paths : List String) :
    Outcome (List SchemaModule) × Loader :=
  match expand tree paths with
  | .error failure => (.error failure, l)
  | .ok files =>
    let (outcomes, l) := loadFiles now tree l files
    (gather outcomes, l)

def load (l : Loader) (now : Int) (tree : FileTree) (paths : List String) :
    Outcome Store × Loader :=
  let (modules, l) := l.loadModules now tree paths
  (modules.bind Store.ofModules, l)

end Loader

end SchemaCompiler
