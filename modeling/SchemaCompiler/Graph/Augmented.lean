import SchemaCompiler.Graph

/-!
# Augmented modules

The loaded modules again, with the derived metadata of every resolved declaration as annotations
and with every instance as a declaration of its module.
-/

namespace SchemaCompiler

/-- A module whose declarations may lack a definition: a projection whose name is no key of its
module has only annotations to offer. -/
structure AugmentedModule where
  name : String
  imports : List Import
  decls : List (String × Option Declaration)
  annotations : Annotations

namespace AugmentedModule

def ofModule (m : SchemaModule) : AugmentedModule :=
  ⟨m.name, m.imports, Keyed.mapValues some m.decls, m.annotations⟩

/-- The module when no definition is lacking. -/
def toModule? (m : AugmentedModule) : Option SchemaModule := do
  let decls ← m.decls.mapM fun (key, decl) => decl.map (key, ·)
  return ⟨m.name, m.imports, decls, m.annotations⟩

def toJson (m : AugmentedModule) : Outcome Json :=
  match m.toModule? with
  | some m => m.toJson
  | none =>
    Json.encoding "adlast.Module" <| Json.encoding "adlast.Decl" <|
      .error (.json "adlast: decl  has no body")

end AugmentedModule

namespace Graph

def instanceDecl (p : Projection) : Declaration :=
  let fields := p.fields.map (·.field)
  { name := p.name.name
    version := none
    body := if p.kind = .union then .union [] fields else .struct [] fields
    annotations := p.annotations }

/-- Gives declared fields the annotations of the projected fields of their names. -/
def annotateFields (p : Projection) (fields : List Field) : List Field :=
  fields.map fun f =>
    match p.field? f.name with
    | some projected => { f with annotations := projected.field.annotations }
    | none => f

def annotateBody (p : Projection) : Body → Body
  | .struct params fields => .struct params (annotateFields p fields)
  | .union params fields => .union params (annotateFields p fields)
  | body => body

/-- A declaration with the annotations of its augmented projection. -/
def annotateDecl (p : Projection) (d : Declaration) : Declaration :=
  let body := if p.shape = p.name then annotateBody p d.body else d.body
  { d with annotations := p.annotations, body }

def placeIn (p : Projection) (m : AugmentedModule) : AugmentedModule :=
  let decl :=
    if p.isInstance then some (instanceDecl p)
    else (Keyed.find? p.name.name m.decls).join.map (annotateDecl p)
  { m with decls := Keyed.insert p.name.name decl m.decls }

def place (modules : List (String × AugmentedModule)) (p : Projection) :
    Outcome (List (String × AugmentedModule)) :=
  match Keyed.find? p.name.moduleName modules with
  | none =>
    .error (.plain ("adlschema: no module " ++ p.name.moduleName ++ " for " ++ p.name.text))
  | some m => .ok (Keyed.insert p.name.moduleName (placeIn p m) modules)

def augmented (g : Graph) : Outcome (List (String × AugmentedModule)) :=
  g.all.foldlM (fun modules p => do place modules (← g.metadata.augment p))
    (g.store.modules.map fun m => (m.name, .ofModule m))

def documentJson (modules : List (String × AugmentedModule)) : Outcome Json := do
  let entries ← modules.mapM fun (name, m) => do return (name, ← m.toJson)
  return .object entries

end Graph

end SchemaCompiler
