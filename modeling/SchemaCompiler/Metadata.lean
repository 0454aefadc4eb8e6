import SchemaCompiler.Instance

/-!
# Derived metadata

What outputs need to know about a declaration beside its fields: whether it is concrete, who
refers to it, which instances it has.  The table is filled in one pass over the projections; the
last projection of a name counts.  `augment` writes the metadata as annotations.
-/

namespace SchemaCompiler

structure DeclMeta where
  concrete : Bool
  generic : Bool
  /-- Some reference wrapper points to the declaration. -/
  referenced : Bool
  external : Bool
  referencedBy : List String
  instances : List Instance
  deriving Repr

structure FieldMeta where
  cardinality : Cardinality
  concrete : Bool
  monomorphized : Bool
  /-- The instance name of a monomorphized field. -/
  instanceName : String
  link : Option ScopedName
  deriving Repr

structure Metadata where
  decls : List (ScopedName × DeclMeta)
  fields : List ((ScopedName × String) × FieldMeta)

namespace Metadata

def derivedModule : String := "adlschema.derived"

def concreteKey : ScopedName := ⟨derivedModule, "Concrete"⟩
def referencedKey : ScopedName := ⟨derivedModule, "Referenced"⟩
def cardinalityKey : ScopedName := ⟨derivedModule, "Cardinality"⟩
def monomorphizedKey : ScopedName := ⟨derivedModule, "Monomorphized"⟩
def instancesKey : ScopedName := ⟨derivedModule, "Instances"⟩

/-- The uses of a declaration by reference wrappers, in order of projections and fields. -/
def usesOf (ps : List Projection) (target : ScopedName) : List String :=
  ps.flatMap fun p => p.fields.flatMap fun f =>
    (f.references.filter (· = target)).map fun _ => p.name.name ++ "::" ++ f.name

def declMeta (ps : List Projection) (tracker : Option Tracker) (p : Projection) : DeclMeta :=
  let uses := usesOf ps p.name
  { concrete := !p.generic
    generic := p.generic
    referenced := !uses.isEmpty
    external := p.external
    referencedBy := uses
    instances := match tracker with
      | some t => if p.isInstance then [] else t.instancesOf p.name
      | none => [] }

def instanceNameOf (r : Resolver) (tracker : Option Tracker) (f : ConcreteField) :
    Outcome String :=
  match tracker with
  | none => .ok ""
  | some t =>
    if !f.monomorphized then .ok ""
    else
      match r.core f.typeExpr with
      | .ok application => t.nameOf application
      | .error (.panic message) => .error (.panic message)
      | .error _ => .ok ""

def fieldMeta (r : Resolver) (tracker : Option Tracker) (p : Projection) (f : ConcreteField) :
    Outcome ((ScopedName × String) × FieldMeta) := do
  return ((p.name, f.name), {
    cardinality := f.cardinality
    concrete := f.concrete
    monomorphized := f.monomorphized
    instanceName := ← instanceNameOf r tracker f
    link := f.link })

/-- Derives the metadata of projections; without a tracker there are no instances. -/
def derive (r : Resolver) (ps : List Projection) (tracker : Option Tracker) :
    Outcome Metadata := do
  let fields ← ps.mapM fun p => p.fields.mapM (fieldMeta r tracker p)
  return ⟨ps.map fun p => (p.name, declMeta ps tracker p), fields.flatten⟩

/-- The names of all projections, in order. -/
def names (m : Metadata) : List ScopedName :=
  ScopedName.sort (m.decls.map (·.1))

def decl? (m : Metadata) (n : ScopedName) : Option DeclMeta :=
  m.decls.reverse.lookup n

def decl (m : Metadata) (n : ScopedName) : Outcome DeclMeta :=
  match m.decl? n with
  | some d => .ok d
  | none =>
    .error (.resolve .missingMetadata n "" [] "no derived metadata for declaration" none)

def field (m : Metadata) (n : ScopedName) (name : String) : Outcome FieldMeta :=
  match m.fields.reverse.lookup (n, name) with
  | some f => .ok f
  | none =>
    .error (.resolve .missingMetadata n name [] "no derived metadata for field" none)

def annotations (m : Metadata) (n : ScopedName) : Outcome Annotations := do
  let d ← m.decl n
  return [⟨concreteKey, .json (.bool d.concrete)⟩, ⟨referencedKey, .json (.bool d.referenced)⟩]
    ++ if d.instances.isEmpty then []
      else [⟨instancesKey, .json (.arr (d.instances.map fun i => .text i.name))⟩]

def fieldAnnotations (m : Metadata) (n : ScopedName) (name : String) : Outcome Annotations := do
  let f ← m.field n name
  return [⟨cardinalityKey, .json (.text f.cardinality.text)⟩,
    ⟨monomorphizedKey, .json (.bool f.monomorphized)⟩, ⟨concreteKey, .json (.bool f.concrete)⟩]

/-- Puts each derived annotation in place of older ones of its key. -/
def merge (base derived : Annotations) : Annotations :=
  derived.foldl (fun as a => as.put a.key a.value) base

def augment (m : Metadata) (p : Projection) : Outcome Projection := do
  let derived ← m.annotations p.name
  let fields ← p.fields.mapM fun f => do
    let derived ← m.fieldAnnotations p.name f.name
    return { f with field := { f.field with annotations := merge f.field.annotations derived } }
  return { p with annotations := merge p.annotations derived, fields }

end Metadata

end SchemaCompiler
