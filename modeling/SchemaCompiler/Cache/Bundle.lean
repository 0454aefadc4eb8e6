import SchemaCompiler.Cache.Packed
import SchemaCompiler.Model.Codec

/-!
# Bundles

The modules of a file as a cache keeps them: a version and the modules as packed records with short
names for their parts.  Empty parts are left out.
-/

namespace SchemaCompiler.Bundle

open Packed

/-- Changes with the layout of the records. -/
def version : Int := 1

/-! ## Packing -/

/-- A record under its names. -/
def record (parts : List (String × Packed)) : Packed :=
  .record (parts.map fun (name, value) => (.text name, value))

/-- A list part, left out when it is empty. -/
def listPart (name : String) (items : List Packed) : List (String × Packed) :=
  if items.isEmpty then [] else [(name, .list items)]

def textPart (name text : String) : List (String × Packed) :=
  if text = "" then [] else [(name, .text text)]

def bytesOf : RawValue → Option (List UInt8)
  | .absent => none
  | value => some value.compact.toUTF8.toList

def packValue (value : RawValue) : Packed :=
  match bytesOf value with
  | none => .null
  | some bytes => .binary bytes

def packMaybe : Option RawValue → Packed
  | none => record [("j", .bool false)]
  | some value =>
    match bytesOf value with
    | some (byte :: bytes) => record [("j", .bool true), ("v", .binary (byte :: bytes))]
    | _ => record [("j", .bool true)]

def packNote (a : Annotation) : Packed :=
  record [("m", .text a.key.moduleName), ("n", .text a.key.name), ("v", packValue a.value)]

def packAnnotations (as : Annotations) : List (String × Packed) :=
  listPart "a" (as.map packNote)

def packHead : TypeRef → List (String × Packed)
  | .primitive name => [("k", .text "primitive"), ("n", .text name)]
  | .reference name =>
    ("k", .text "reference") :: textPart "m" name.moduleName ++ [("n", .text name.name)]
  | .param name => [("k", .text "typeParam"), ("n", .text name)]

mutual

/-- A missing expression cannot be packed. -/
def packType : TypeExpr → Outcome Packed
  | .missing => .error (.panic none)
  | .app head args =>
    match packTypes args with
    | .error failure => .error failure
    | .ok args => .ok (record (packHead head ++ listPart "p" args))

def packTypes : List TypeExpr → Outcome (List Packed)
  | [] => .ok []
  | t :: rest =>
    match packType t with
    | .error failure => .error failure
    | .ok t =>
      match packTypes rest with
      | .error failure => .error failure
      | .ok rest => .ok (t :: rest)

end

def packField (f : Field) : Outcome Packed := do
  return record ([("n", .text f.name), ("s", .text f.serializedName),
    ("t", ← packType f.typeExpr), ("d", packMaybe f.default)] ++ packAnnotations f.annotations)

def defaultOf : Body → Option RawValue
  | .newtype _ _ default => default
  | _ => none

def packTarget : Body → Outcome (List (String × Packed))
  | .synonym _ target | .newtype _ target _ => do return [("t", ← packType target)]
  | _ => .ok []

def packDeclaration (d : Declaration) : Outcome Packed := do
  let fields ← d.fields.mapM packField
  return record ([("n", .text d.name), ("v", packMaybe d.version), ("k", .text d.kind.tag)]
    ++ listPart "p" (d.params.map .text) ++ listPart "f" fields ++ (← packTarget d.body)
    ++ [("df", packMaybe (defaultOf d.body))] ++ packAnnotations d.annotations)

def packImport : Import → Packed
  | .whole moduleName => record [("m", .text moduleName)]
  | .single name => record (("m", .text name.moduleName) :: textPart "n" name.name)

def packModule (m : SchemaModule) : Outcome Packed := do
  let decls ← m.decls.mapM fun (key, d) => do return (key, ← packDeclaration d)
  return record (("n", .text m.name) :: listPart "i" (m.imports.map packImport)
    ++ ("d", record decls) :: packAnnotations m.annotations)

def pack (modules : List SchemaModule) : Outcome Packed := do
  return record [("v", .int version), ("m", .list (← modules.mapM packModule))]

/-! ## Unpacking -/

def unpackValue? (p : Packed) : Option RawValue :=
  p.toBytes?.map fun
    | none => .absent
    | some bytes => .ofText (textOf bytes)

def unpackMaybe? (p : Packed) : Option (Option RawValue) := do
  let parts ← p.parts? ["j", "v"]
  let value ← unpackValue? (part "v" parts)
  return if ← (part "j" parts).toBool? then some value else none

def unpackAnnotation? (p : Packed) : Option Annotation := do
  let parts ← p.parts? ["m", "n", "v"]
  return ⟨⟨← (part "m" parts).toText?, ← (part "n" parts).toText?⟩,
    ← unpackValue? (part "v" parts)⟩

def unpackAnnotations? (p : Packed) : Option Annotations := do
  (← p.toList?).mapM unpackAnnotation?

/-- A head of no known kind counts as a primitive. -/
def unpackHead (kind moduleName name : String) : TypeRef :=
  if kind = "reference" then .reference ⟨moduleName, name⟩
  else if kind = "typeParam" then .param name
  else .primitive name

/-- Unpacks a type expression that is nested at most `depth` deep. -/
def unpackTypeWithin : Nat → Packed → Option TypeExpr
  | 0, _ => none
  | depth + 1, p =>
    match p.parts? ["k", "m", "n", "p"] with
    | none => none
    | some parts => do
      let kind ← (part "k" parts).toText?
      let moduleName ← (part "m" parts).toText?
      let name ← (part "n" parts).toText?
      let args ← (← (part "p" parts).toList?).mapM (unpackTypeWithin depth)
      return .app (unpackHead kind moduleName name) args

def unpackType? (p : Packed) : Option TypeExpr :=
  unpackTypeWithin p.depth p

def unpackField? (p : Packed) : Option Field := do
  let parts ← p.parts? ["n", "s", "t", "d", "a"]
  return ⟨← (part "n" parts).toText?, ← (part "s" parts).toText?,
    ← unpackType? (part "t" parts), ← unpackMaybe? (part "d" parts),
    ← unpackAnnotations? (part "a" parts)⟩

/-- The target of an alias or a new type; one that is not there is missing. -/
def unpackTarget? : Packed → Option TypeExpr
  | .null => some .missing
  | p => unpackType? p

def unpackDeclaration? (p : Packed) : Option Declaration := do
  let parts ← p.parts? ["n", "v", "k", "p", "f", "t", "df", "a"]
  let params ← (← (part "p" parts).toList?).mapM toText?
  let fields ← (← (part "f" parts).toList?).mapM unpackField?
  let target ← unpackTarget? (part "t" parts)
  let default ← unpackMaybe? (part "df" parts)
  let body ← match ← Body.kindOf? (← (part "k" parts).toText?) with
    | .struct => some (Body.struct params fields)
    | .union => some (.union params fields)
    | .synonym => some (.synonym params target)
    | .newtype => some (.newtype params target default)
  return ⟨← (part "n" parts).toText?, ← unpackMaybe? (part "v" parts), body,
    ← unpackAnnotations? (part "a" parts)⟩

/-- An import without a name is one of the whole module. -/
def unpackImport? (p : Packed) : Option Import := do
  let parts ← p.parts? ["m", "n"]
  let moduleName ← (part "m" parts).toText?
  let name ← (part "n" parts).toText?
  return if name = "" then .whole moduleName else .single ⟨moduleName, name⟩

def unpackModule? (p : Packed) : Option SchemaModule := do
  let parts ← p.parts? ["n", "i", "d", "a"]
  let decls ← (part "d" parts).toKeyed?
  return ⟨← (part "n" parts).toText?,
    ← (← (part "i" parts).toList?).mapM unpackImport?,
    ← decls.mapM fun (key, d) => do return (key, ← unpackDeclaration? d),
    ← unpackAnnotations? (part "a" parts)⟩

def unpack? (p : Packed) : Option (List SchemaModule) := do
  let parts ← p.parts? ["v", "m"]
  let modules ← (part "m" parts).toList?
  if (← (part "v" parts).toInt?) = version then modules.mapM unpackModule? else none

/-! ## Bytes -/

def encode (modules : List SchemaModule) : Outcome (List UInt8) :=
  (pack modules).map write

/-- The modules of an encoded bundle, unless it is damaged or of another version. -/
def decode? (bytes : List UInt8) : Option (List SchemaModule) :=
  (read bytes).bind unpack?

end SchemaCompiler.Bundle
