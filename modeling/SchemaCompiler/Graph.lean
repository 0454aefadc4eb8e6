import SchemaCompiler.Metadata
import SchemaCompiler.Settings

/-!
# Graphs

The resolved working set of a run: the closure of the roots, the instances of generic
declarations, and the metadata of both.
-/

namespace SchemaCompiler

structure Graph where
  settings : Settings
  store : Store
  /-- The closure of the roots; generic declarations have open parameters. -/
  decls : List Projection
  /-- The instances of generic declarations. -/
  instances : List Projection
  metadata : Metadata
  tracker : Tracker

namespace Graph

def resolver (g : Graph) : Resolver := ⟨g.store, g.settings.wrappers⟩

def all (g : Graph) : List Projection := g.decls ++ g.instances

/-- All but the generic declarations, in order of qualified names. -/
def concrete (g : Graph) : List Projection :=
  Projection.sort (g.all.filter (!·.generic))

def decl? (g : Graph) (n : ScopedName) : Option Projection :=
  g.all.reverse.find? (·.name = n)

/-- The declarations that carry an annotation. -/
def annotated (g : Graph) (key : ScopedName) : List Projection :=
  g.decls.filter (·.annotations.has key)

/-- The first module that is named and not loaded is refused. -/
def checkModules (store : Store) : List String → Outcome Unit
  | [] => .ok ()
  | name :: rest =>
    if (store.module? name).isSome then checkModules store rest
    else .error (.config "Modules" (some name) "module is not loaded")

/-- Resolves a store under settings. -/
def build (settings : Settings) (store : Store) : Outcome Graph := do
  let resolver : Resolver := ⟨store, settings.wrappers⟩
  checkModules store settings.modules
  let roots := (store.allDecls.filter settings.accepts).filter
    (Resolver.isRoot settings.tableKeys)
  let decls ← resolver.closure roots settings.inFocus
  let (tracker, outcome) := Tracker.empty.run resolver decls
  let instances ← outcome
  let metadata ← Metadata.derive resolver (decls ++ instances) (some tracker)
  return { settings, store, decls, instances, metadata, tracker }

def report (g : Graph) : LogLine :=
  ⟨.info, "graph resolved",
    [("decls", toString g.decls.length), ("instances", toString g.instances.length)]⟩

def moduleBlock (g : Graph) (key : ScopedName) : Outcome ModuleAnnotation :=
  g.store.requireBlock key []

def firstModuleBlock (g : Graph) (key : ScopedName) : Option ModuleAnnotation × List LogLine :=
  g.store.firstBlock key []

end Graph

end SchemaCompiler
