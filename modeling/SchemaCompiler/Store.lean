import SchemaCompiler.Log
import SchemaCompiler.Model.Codec

/-!
# Stores

The modules at hand, in ascending order of their names.  A declaration is looked up by the module
and the key it stands under.
-/

namespace SchemaCompiler

structure Store where
  modules : List SchemaModule

structure ModuleAnnotation where
  moduleName : String
  value : RawValue
  deriving Repr

namespace Store

def empty : Store := ⟨[]⟩

def module? (s : Store) (name : String) : Option SchemaModule :=
  s.modules.find? (·.name = name)

/-- Puts a module in its place by name. -/
def insertSorted (m : SchemaModule) : List SchemaModule → List SchemaModule
  | [] => [m]
  | n :: rest => if m.name < n.name then m :: n :: rest else n :: insertSorted m rest

def add (s : Store) (m : SchemaModule) : Outcome Store :=
  if m.name = "" then .error (.plain "load: module without a name")
  else if (s.module? m.name).isSome then
    .error (.plain ("load: duplicate module " ++ Text.quoted m.name))
  else .ok ⟨insertSorted m s.modules⟩

/-- The store of modules with names of their own. -/
def ofModules (modules : List SchemaModule) : Outcome Store :=
  modules.foldlM add empty

def lookup? (s : Store) (n : ScopedName) : Option ScopedDecl := do
  let m ← s.module? n.moduleName
  let d ← m.find? n.name
  return ⟨m.name, d⟩

def resolve (s : Store) (n : ScopedName) : Outcome ScopedDecl :=
  match s.lookup? n with
  | some d => .ok d
  | none => .error (.notFound "decl" (some n.text))

def moduleNames (s : Store) : List String :=
  s.modules.map (·.name)

def declsOf (m : SchemaModule) : List ScopedDecl :=
  m.decls.map fun (_, d) => ⟨m.name, d⟩

/-- The declarations of a module in order of their keys. -/
def decls (s : Store) (moduleName : String) : List ScopedDecl :=
  match s.module? moduleName with
  | some m => declsOf m
  | none => []

/-- All declarations, by module and then by key. -/
def allDecls (s : Store) : List ScopedDecl :=
  s.modules.flatMap declsOf

/-- All names under which a declaration can be looked up. -/
def keys (s : Store) : List ScopedName :=
  s.modules.flatMap fun m => m.decls.map fun (key, _) => ⟨m.name, key⟩

/-- The modules that carry an annotation, in order. -/
def moduleAnnotations (s : Store) (key : ScopedName) : List ModuleAnnotation :=
  s.modules.filterMap fun m => (m.annotations.get? key).map (⟨m.name, ·⟩)

/-! ## Module blocks

Settings that a module carries as an annotation of its own.  Some may occur only once among the
modules at hand; of others the first counts.
-/

/-- The blocks of a key in some modules; an empty list stands for all modules. -/
def moduleBlocks (s : Store) (key : ScopedName) (modules : List String) : List ModuleAnnotation :=
  (s.moduleAnnotations key).filter fun a => modules.isEmpty || modules.contains a.moduleName

def requireBlock (s : Store) (key : ScopedName) (modules : List String) :
    Outcome ModuleAnnotation :=
  match s.moduleBlocks key modules with
  | [block] => .ok block
  | blocks => .error (.moduleBlock key (blocks.map (·.moduleName)))

/-- The first block of a key, with a warning when there are more. -/
def firstBlock (s : Store) (key : ScopedName) (modules : List String) :
    Option ModuleAnnotation × List LogLine :=
  match s.moduleBlocks key modules with
  | [] => (none, [])
  | [block] => (some block, [])
  | block :: more =>
    (some block, [⟨.warn, "multiple module level annotations found, using the first",
      [("key", key.text), ("modules", LogLine.listText ((block :: more).map (·.moduleName)))]⟩])

end Store

end SchemaCompiler
