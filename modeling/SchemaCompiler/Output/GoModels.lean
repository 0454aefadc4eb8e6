import SchemaCompiler.Output.GoSource
import SchemaCompiler.Output.Worklist
import SchemaCompiler.Relational.Schema

/-!
# Go models

One type a declaration, whose documents are those of the declaration.  An optional value is a
pointer, a reference holds the key of its target, and a union has one pointer for each branch.
-/

namespace SchemaCompiler

open GoSource

namespace GoModels

structure Options where
  file : String
  packageName : String

def standard : Options := ⟨"models.go", "models"⟩

def withFile (o : Options) (file : String) : Outcome Options :=
  if file = "" then .error (.config "File" (some "") "file name cannot be empty")
  else .ok { o with file }

def withPackage (o : Options) (name : String) : Outcome Options :=
  if name = "" then .error (.config "Package" (some "") "package name cannot be empty")
  else .ok { o with packageName := name }

def naming : TypeNaming := ⟨"Go", fun n => Naming.exported n.name⟩

def primitive? : String → Option FieldType
  | "Bool" => some (.named "bool")
  | "Int8" => some (.named "int8")
  | "Int16" => some (.named "int16")
  | "Int32" => some (.named "int32")
  | "Int64" => some (.named "int64")
  | "Word8" => some (.named "uint8")
  | "Word16" => some (.named "uint16")
  | "Word32" => some (.named "uint32")
  | "Word64" => some (.named "uint64")
  | "Float" => some (.named "float32")
  | "Double" => some (.named "float64")
  | "String" => some (.named "string")
  | "Bytes" => some (.slice (.named "byte"))
  | "Json" => some .json
  | "Void" => some .void
  | _ => none

end GoModels

/-- The type of a field; none when there is no end of layers. -/
def Worklist.goType (g : Graph) (w : Worklist) (t : TypeExpr) :
    Option (Outcome (FieldType × Worklist)) :=
  match g.resolver.classify t with
  | .error failure => some (.error failure)
  | .ok layer =>
    match layer.kind with
    | .optional => do
      let inner ← w |>.goType g layer.inner
      return inner.map fun (inner, w) => (.pointer inner, w)
    | .list => do
      let inner ← w |>.goType g layer.inner
      return inner.map fun (inner, w) => (.slice inner, w)
    | .map => do
      let inner ← w |>.goType g layer.inner
      return inner.map fun (inner, w) => (.map inner, w)
    | .reference => some (.ok (.named "string", w))
    | .plain =>
      match t.primitive?, t.reference? with
      | some p, _ =>
        match GoModels.primitive? p with
        | some type => some (.ok (type, w))
        | none => some (.error (.plain ("golang: unsupported primitive " ++ p)))
      | none, none => some (.error (.plain ("golang: unbound type parameter " ++ t.text)))
      | none, some _ =>
        match w.use GoModels.naming g t with
        | .error failure => some (.error failure)
        | .ok (some p, w) => some (.ok (.named (GoModels.naming.name p.name), w))
        | .ok (none, w) =>
          match g.resolver.expandOnce t with
          | .error failure => some (.error failure)
          | .ok next => w |>.goType g (next.getD t)
partial_fixpoint

namespace GoModels

/-- The fields of a struct, or those of a union with a pointer for each branch. -/
def structFields (g : Graph) (isUnion : Bool) (owner : ScopedName) (w : Worklist) :
    List ConcreteField → Outcome (List StructField × Worklist)
  | [] => .ok ([], w)
  | f :: rest =>
    match Worklist.outcome (w.goType g f.typeExpr) with
    | .error (.panic message) => .error (.panic message)
    | .error failure => .error (.schema owner f.name "" (some failure))
    | .ok (type, w) => do
      let key := f.field.serializedName
      let field : StructField := ⟨Naming.exported f.name, if isUnion then .pointer type else type,
        if isUnion then key ++ ",omitempty" else key⟩
      let (more, w) ← structFields g isUnion owner w rest
      return (field :: more, w)

def typeDecl (g : Graph) (w : Worklist) (p : Projection) : Outcome (TypeDecl × Worklist) := do
  let name := naming.name p.name
  let doc := (p.annotations.text? Relational.docKey).getD ""
  if p.isEnum then
    return (⟨name, doc, .enumeration (p.fields.map fun f =>
      (name ++ Naming.exported f.name, f.field.serializedName))⟩, w)
  else
    let (fields, w) ← structFields g (p.kind = .union) p.name w p.fields
    return (⟨name, doc, .struct fields⟩, w)

end GoModels

/-- Writes declarations until none is left. -/
def Worklist.goTypes (g : Graph) (w : Worklist) : Option (Outcome (List TypeDecl × Worklist)) :=
  match w.pending with
  | [] => some (.ok ([], w))
  | p :: rest =>
    match GoModels.typeDecl g { w with pending := rest } p with
    | .error failure => some (.error failure)
    | .ok (t, w) => do
      let more ← w |>.goTypes g
      return more.map fun (more, w) => (t :: more, w)
partial_fixpoint

namespace GoModels

/-- The models of a graph, and the shapes it asked for. -/
def build (packageName : String) (g : Graph) (shapes : Shapes) : Outcome (File × Shapes) := do
  let w ← (Worklist.start shapes).addAll naming g.concrete
  let (types, w) ← Worklist.outcome (w.goTypes g)
  return (⟨packageName, types⟩, w.shapes)

def files (o : Options) (g : Graph) (shapes : Shapes) : Outcome (List OutputFile × Shapes) := do
  let (file, shapes) ← build o.packageName g shapes
  match file.text? with
  | some text => return ([⟨o.file, .text text⟩], shapes)
  | none => .error (.generation "render" o.file "" (some (.malformed .source)))

def target (o : Options) : Target where
  name := "go"
  render g _ shapes :=
    match files o g shapes with
    | .error failure => ⟨shapes, [], .error failure⟩
    | .ok (found, shapes) => ⟨shapes, [], .ok found⟩

end GoModels

end SchemaCompiler
