import SchemaCompiler.Output.Worklist
import SchemaCompiler.Relational.Schema
import SchemaCompiler.Sdl.Document

/-!
# Query schemas of graphs

Structs become object types and enumerations stay what they are.  Any other union becomes an
object with the kind and the value of its branch: the kind is an enumeration of the branches, the
value a union of the object types among them.  References to declarations become identifiers.
-/

namespace SchemaCompiler.Sdl

/-- Marks branches that only hold their argument. -/
def boxKey : ScopedName := ⟨"savanti.schema.v1.annotations", "Box"⟩

/-- The scalar of maps. -/
def mapScalar : String := "StringMap"

def naming : TypeNaming := ⟨"GraphQL", (·.name)⟩

structure Builder where
  work : Worklist
  document : Document
  /-- Whether a map was written. -/
  usesMaps : Bool

namespace Builder

def define (b : Builder) (ds : List Definition) : Builder :=
  { b with document := b.document ++ ds }

/-- The type of a field.  Layers of wrappers are taken off one at a time; `required` is lost below
an optional layer.  None when there is no end of layers. -/
def fieldType (g : Graph) (b : Builder) (t : TypeExpr) (required : Bool) :
    Option (Outcome (TypeRef × Builder)) :=
  match g.resolver.classify t with
  | .error failure => some (.error failure)
  | .ok w =>
    match w.kind with
    | .optional => b |>.fieldType g w.inner false
    | .list => do
      let item ← b |>.fieldType g w.inner true
      return item.map fun (item, b) => (.list item required, b)
    | .map => some (.ok (.named mapScalar required, { b with usesMaps := true }))
    | .reference => some (.ok (.named "ID" required, b))
    | .plain =>
      match t.primitive?, t.reference? with
      | some p, _ => some (.ok (.named (Naming.scalar p) required, b))
      | none, none => some (.error (.plain ("graphql: unbound type parameter " ++ t.text)))
      | none, some _ =>
        match b.work.use naming g t with
        | .error failure => some (.error failure)
        | .ok (some p, work) => some (.ok (.named p.name.name required, { b with work }))
        | .ok (none, work) =>
          match g.resolver.expandOnce t with
          | .error failure => some (.error failure)
          | .ok next => { b with work } |>.fieldType g (next.getD t) required
partial_fixpoint

def descriptionOf (as : Annotations) : String := (as.text? Relational.docKey).getD ""

def memberOf (g : Graph) (owner : ScopedName) (b : Builder) (f : ConcreteField) :
    Outcome (Member × Builder) :=
  match Worklist.outcome (b.fieldType g f.typeExpr true) with
  | .error (.panic message) => .error (.panic message)
  | .error failure => .error (.schema owner f.name "" (some failure))
  | .ok (type, b) => .ok (⟨f.name, descriptionOf f.field.annotations, type⟩, b)

def membersOf (g : Graph) (owner : ScopedName) (b : Builder) :
    List ConcreteField → Outcome (List Member × Builder)
  | [] => .ok ([], b)
  | f :: rest => do
    let (m, b) ← b.memberOf g owner f
    let (more, b) ← b.membersOf g owner rest
    return (m :: more, b)

/-- A declaration that others refer to has an identifier, unless it declares one. -/
def identifier (g : Graph) (p : Projection) : List Member :=
  match g.metadata.decl? p.name with
  | some m =>
    if m.referenced && (p.field? "id").isNone then [⟨"id", "", .named "ID" true⟩] else []
  | none => []

/-- Stands in an object that has no members. -/
def placeholder : Member := ⟨"_phantom", "", .named "Boolean" false⟩

def object (g : Graph) (b : Builder) (p : Projection) : Outcome Builder := do
  let (members, b) ← b.membersOf g p.name p.fields
  let members := identifier g p ++ members
  return b.define [⟨p.name.name, descriptionOf p.annotations,
    .object (if members.isEmpty then [placeholder] else members)⟩]

/-- The object type that a branch contributes to the values of its union. -/
def alternative (g : Graph) (b : Builder) (t : TypeExpr) : Outcome (Option String × Builder) := do
  match t.reference? with
  | none => return (none, b)
  | some n =>
    let d ← g.store.resolve n
    let t := match t.args with
      | [inner] => if d.decl.annotations.has boxKey then inner else t
      | _ => t
    match ← b.work.use naming g t with
    | (none, work) => return (none, { b with work })
    | (some p, work) =>
      if p.kind = .union && p.isEnum then return (none, { b with work })
      else return (some p.name.name, { b with work })

def alternatives (g : Graph) (owner : ScopedName) (b : Builder) (found : List String) :
    List ConcreteField → Outcome (List String × Builder)
  | [] => .ok (found, b)
  | f :: rest =>
    match b.alternative g f.typeExpr with
    | .error failure => .error (.schema owner f.name "" (some failure))
    | .ok (none, b) => b.alternatives g owner found rest
    | .ok (some name, b) =>
      b.alternatives g owner (if found.contains name then found else found ++ [name]) rest

def union (g : Graph) (b : Builder) (p : Projection) : Outcome Builder := do
  let name := p.name.name
  let branch := "_" ++ name ++ "Branch"
  let value := "_" ++ name ++ "Type"
  let (found, b) ← b.alternatives g p.name [] p.fields
  let members : List Member := [⟨"kind", "", .named branch true⟩,
    ⟨"value", "", .named (if found.isEmpty then "String" else value) true⟩]
  return b.define ([⟨name, descriptionOf p.annotations, .object members⟩]
    ++ (if found.isEmpty then [] else [⟨value, "", .union found⟩])
    ++ [⟨branch, "", .enumeration (p.fields.map (·.name))⟩])

def declaration (g : Graph) (b : Builder) (p : Projection) : Outcome Builder :=
  if p.kind = .union then
    if p.isEnum then
      .ok (b.define [⟨p.name.name, descriptionOf p.annotations,
        .enumeration (p.fields.map (·.name))⟩])
    else b.union g p
  else b.object g p

/-- Writes declarations until none is left. -/
def run (g : Graph) (b : Builder) : Option (Outcome Builder) :=
  match b.work.pending with
  | [] => some (.ok b)
  | p :: rest =>
    match { b with work := { b.work with pending := rest } }.declaration g p with
    | .error failure => some (.error failure)
    | .ok b => b |>.run g
partial_fixpoint

end Builder

/-- The query schema of a graph, and the shapes it asked for. -/
def build (g : Graph) (shapes : Shapes) : Outcome (Document × Shapes) := do
  let work ← (Worklist.start shapes).addAll naming g.concrete
  let b ← Worklist.outcome (Builder.run g ⟨work, [], false⟩)
  let scalars : Document := if b.usesMaps then [⟨mapScalar, "", .scalar⟩] else []
  return (b.document ++ scalars, b.work.shapes)

end SchemaCompiler.Sdl
