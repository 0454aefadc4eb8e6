import SchemaCompiler.Model.Declaration

/-!
# Documents of declarations

How names, type expressions, annotations, declarations and modules are written in JSON and read
back.  Sums are written as an object with a `kind` and a `value`.
-/

namespace SchemaCompiler

open Json (Reading)

/-! ## Tagged values -/

/-- A `kind` with a `value`. -/
structure Tagged where
  kind : String
  value : RawValue

namespace Tagged

def blank : Tagged := ⟨"", .absent⟩

def read (old : Tagged) (j : Json) : Reading Tagged :=
  j.readRecord ⟨"adlast", "taggedJSON"⟩ ["kind", "value"] (fun t name value =>
    if name = "kind" then do return { t with kind := ← value.readText t.kind }
    else .clean { t with value := .json value }) old

def toJson (kind : String) (value : Json) : Json :=
  .obj [("kind", .text kind), ("value", value)]

end Tagged

/-! ## Optional values -/

def Maybe.ofJson (j : Json) : Outcome (Option RawValue) := do
  let t ← (Tagged.read .blank j).finish
  if t.kind = "nothing" || t.kind = "" then .ok none
  else if t.kind = "just" then .ok (some t.value)
  else .error (.plain ("adlast: unknown maybe kind " ++ Text.quoted t.kind))

def Maybe.toJson : Option RawValue → Outcome Json
  | none => .ok (.obj [("kind", .text "nothing")])
  | some raw => Json.encoding "adlast.Maybe" do
    if raw.isEmpty then return Tagged.toJson "just" .null
    return Tagged.toJson "just" (← raw.toJson)

/-! ## Names -/

def ScopedName.read (old : ScopedName) (j : Json) : Reading ScopedName :=
  j.readRecord ⟨"adlast", "ScopedName"⟩ ["moduleName", "name"] (fun n name value =>
    if name = "name" then do return { n with name := ← value.readText n.name }
    else do return { n with moduleName := ← value.readText n.moduleName }) old

def ScopedName.toJson (n : ScopedName) : Json :=
  .obj [("moduleName", .text n.moduleName), ("name", .text n.name)]

/-! ## Type expressions -/

namespace TypeRef

/-- Reads a value as a document; a failure says what the value should have been. -/
def readValue {α : Type} (label : String) (read : α → Json → Reading α) (blank : α)
    (raw : RawValue) : Outcome α :=
  match raw.parse.bind fun value => (read blank value).finish with
  | .ok value => .ok value
  | .error failure => .error (.context label failure)

def ofTagged (t : Tagged) : Outcome TypeRef :=
  if t.kind = "primitive" then do
    return primitive (← readValue "adlast: primitive" (fun old j => j.readText old) "" t.value)
  else if t.kind = "reference" then do
    return reference (← readValue "adlast: reference" ScopedName.read .blank t.value)
  else if t.kind = "typeParam" then do
    return param (← readValue "adlast: type param" (fun old j => j.readText old) "" t.value)
  else .error (.plain ("adlast: unknown type ref kind " ++ Text.quoted t.kind))

def toJson : TypeRef → Json
  | primitive name => Tagged.toJson "primitive" (.text name)
  | reference name => Tagged.toJson "reference" name.toJson
  | param name => Tagged.toJson "typeParam" (.text name)

def kind : TypeRef → String
  | primitive _ => "primitive"
  | reference _ => "reference"
  | param _ => "typeParam"

end TypeRef

namespace TypeExpr

/-- The parts of a written type expression. -/
structure Parts where
  head : Tagged
  args : List TypeExpr

def written : ScopedName := ⟨"adlast", "typeExprJSON"⟩

def Parts.assemble (r : Reading Parts) : Outcome TypeExpr := do
  let parts ← r.finish
  return app (← TypeRef.ofTagged parts.head) parts.args

mutual

def ofJson : Json → Outcome TypeExpr
  | .null => Parts.assemble (.clean ⟨.blank, []⟩)
  | .obj members => Parts.assemble (readParts ⟨.blank, []⟩ members)
  | j => Parts.assemble (.mismatch ⟨.blank, []⟩ (j.unlike written.text))

def readParts (old : Parts) : List (String × Json) → Reading Parts
  | [] => .clean old
  | (key, value) :: rest =>
    match Json.nameOf? ["typeRef", "parameters"] (Json.unescape key) with
    | some "typeRef" =>
      ((Tagged.read old.head value).inField written "typeRef").andThen fun head =>
        readParts { old with head } rest
    | some _ =>
      ((readArgs old.args value).inField written "parameters").andThen fun args =>
        readParts { old with args } rest
    | none => readParts old rest

def readArgs (old : List TypeExpr) : Json → Reading (List TypeExpr)
  | .null => .clean []
  | .arr items => readAll items
  | j => .mismatch old (j.unlike "[]adlast.TypeExpr")

def readAll : List Json → Reading (List TypeExpr)
  | [] => .clean []
  | item :: rest =>
    (Reading.ofOutcome (ofJson item)).andThen fun first =>
      (readAll rest).andThen fun others => .clean (first :: others)

end

mutual

def toJson : TypeExpr → Outcome Json
  | missing =>
    Json.encoding "adlast.TypeExpr" (.error (.json "adlast: cannot encode type ref <nil>"))
  | app head args => Json.encoding "adlast.TypeExpr" do
    return .obj [("typeRef", head.toJson), ("parameters", .arr (← toJsonAll args))]

def toJsonAll : List TypeExpr → Outcome (List Json)
  | [] => .ok []
  | a :: as => do return (← toJson a) :: (← toJsonAll as)

end

end TypeExpr

/-! ## Annotations -/

namespace Annotation

def blank : Annotation := ⟨.blank, .absent⟩

def read (old : Annotation) (j : Json) : Reading Annotation :=
  j.readRecord ⟨"adlast", "Annotation"⟩ ["key", "value"] (fun a name value =>
    if name = "key" then do return { a with key := ← ScopedName.read a.key value }
    else .clean { a with value := .json value }) old

def toJson (a : Annotation) : Outcome Json := do
  return .obj [("key", a.key.toJson), ("value", ← a.value.toJson)]

end Annotation

def Annotations.read (old : Annotations) (j : Json) : Reading Annotations :=
  j.readList "adlast.Annotations" Annotation.read .blank old

def Annotations.toJson (as : Annotations) : Outcome Json := Json.encoding "adlast.Annotations" do
  return .arr (← as.mapM Annotation.toJson)

/-! ## Fields and declarations -/

namespace Field

def blank : Field := ⟨"", "", .missing, none, []⟩

def read (old : Field) (j : Json) : Reading Field :=
  j.readRecord ⟨"adlast", "Field"⟩
    ["name", "serializedName", "typeExpr", "default", "annotations"]
    (fun f name value =>
      if name = "name" then do return { f with name := ← value.readText f.name }
      else if name = "serializedName" then do
        return { f with serializedName := ← value.readText f.serializedName }
      else if name = "typeExpr" then do
        return { f with typeExpr := ← Reading.ofOutcome (TypeExpr.ofJson value) }
      else if name = "default" then do
        return { f with default := ← Reading.ofOutcome (Maybe.ofJson value) }
      else do return { f with annotations := ← Annotations.read f.annotations value }) old

def toJson (f : Field) : Outcome Json := do
  return .obj [("name", .text f.name), ("serializedName", .text f.serializedName),
    ("typeExpr", ← f.typeExpr.toJson), ("default", ← Maybe.toJson f.default),
    ("annotations", ← f.annotations.toJson)]

end Field

namespace Body

/-- The parts of a written body; a body uses those of its kind. -/
structure Parts where
  params : List String
  fields : List Field
  target : TypeExpr
  default : Option RawValue

def Parts.blank : Parts := ⟨[], [], .missing, none⟩

def readFields (parts : Parts) (name : String) (value : Json) : Reading Parts :=
  if name = "typeParams" then do return { parts with params := ← value.readTexts parts.params }
  else do
    return { parts with
      fields := ← value.readList "[]adlast.Field" Field.read .blank parts.fields }

def readTarget (parts : Parts) (name : String) (value : Json) : Reading Parts :=
  if name = "typeParams" then do return { parts with params := ← value.readTexts parts.params }
  else if name = "typeExpr" then do
    return { parts with target := ← Reading.ofOutcome (TypeExpr.ofJson value) }
  else do return { parts with default := ← Reading.ofOutcome (Maybe.ofJson value) }

def readAs (kind : DeclKind) (j : Json) : Outcome Body :=
  match kind with
  | .struct => do
    let parts ← (j.readRecord ⟨"adlast", "Struct"⟩ ["typeParams", "fields"] readFields
      .blank).finish
    return struct parts.params parts.fields
  | .union => do
    let parts ← (j.readRecord ⟨"adlast", "Union"⟩ ["typeParams", "fields"] readFields
      .blank).finish
    return union parts.params parts.fields
  | .synonym => do
    let parts ← (j.readRecord ⟨"adlast", "TypeDef"⟩ ["typeParams", "typeExpr"] readTarget
      .blank).finish
    return synonym parts.params parts.target
  | .newtype => do
    let parts ← (j.readRecord ⟨"adlast", "NewType"⟩ ["typeParams", "typeExpr", "default"]
      readTarget .blank).finish
    return newtype parts.params parts.target parts.default

def kindOf? (tag : String) : Option DeclKind :=
  [DeclKind.struct, .union, .synonym, .newtype].find? (·.tag = tag)

def paramsJson (params : List String) : Json :=
  .arr (params.map .text)

def toJson : Body → Outcome Json
  | struct params fields => do
    return .obj [("typeParams", paramsJson params), ("fields", .arr (← fields.mapM Field.toJson))]
  | union params fields => do
    return .obj [("typeParams", paramsJson params), ("fields", .arr (← fields.mapM Field.toJson))]
  | synonym params target => do
    return .obj [("typeParams", paramsJson params), ("typeExpr", ← target.toJson)]
  | newtype params target default => do
    return .obj [("typeParams", paramsJson params), ("typeExpr", ← target.toJson),
      ("default", ← Maybe.toJson default)]

end Body

namespace Declaration

/-- The parts of a written declaration. -/
structure Parts where
  name : String
  version : Option RawValue
  body : Tagged
  annotations : Annotations

def readPart (parts : Parts) (name : String) (value : Json) : Reading Parts :=
  if name = "name" then do return { parts with name := ← value.readText parts.name }
  else if name = "version" then do
    return { parts with version := ← Reading.ofOutcome (Maybe.ofJson value) }
  else if name = "type_" then do return { parts with body := ← Tagged.read parts.body value }
  else do return { parts with annotations := ← Annotations.read parts.annotations value }

def ofJson (j : Json) : Outcome Declaration := do
  let parts ← (j.readRecord ⟨"adlast", "declJSON"⟩ ["name", "version", "type_", "annotations"]
    readPart ⟨"", none, .blank, []⟩).finish
  match Body.kindOf? parts.body.kind with
  | none =>
    .error (.plain ("adlast: decl " ++ parts.name ++ ": unknown kind "
      ++ Text.quoted parts.body.kind))
  | some kind =>
    match parts.body.value.parse.bind (Body.readAs kind) with
    | .error failure => .error (.context ("adlast: decl " ++ parts.name) failure)
    | .ok body => .ok ⟨parts.name, parts.version, body, parts.annotations⟩

def toJson (d : Declaration) : Outcome Json := Json.encoding "adlast.Decl" do
  let body ← d.body.toJson
  return .obj [("name", .text d.name), ("version", ← Maybe.toJson d.version),
    ("type_", Tagged.toJson d.kind.tag body), ("annotations", ← d.annotations.toJson)]

end Declaration

def ScopedDecl.ofJson (j : Json) : Outcome (Option ScopedDecl) :=
  (j.readRecord ⟨"adlast", "ScopedDecl"⟩ ["moduleName", "decl"]
    (fun (parts : String × Option Declaration) name value =>
      if name = "decl" then do
        return (parts.1, some (← Reading.ofOutcome (Declaration.ofJson value)))
      else do return (← value.readText parts.1, parts.2)) ("", none)).finish.map
    fun (moduleName, decl?) => decl?.map (⟨moduleName, ·⟩)

def ScopedDecl.toJson (d : ScopedDecl) : Outcome Json := do
  return .obj [("moduleName", .text d.moduleName), ("decl", ← d.decl.toJson)]

/-! ## Modules -/

def Import.ofJson (j : Json) : Outcome Import := do
  let t ← (Tagged.read .blank j).finish
  if t.kind = "moduleName" then do
    return whole (← (Json.readText "" (← t.value.parse)).finish)
  else if t.kind = "scopedName" then do
    return single (← (ScopedName.read .blank (← t.value.parse)).finish)
  else .error (.plain ("adlast: unknown import kind " ++ Text.quoted t.kind))

def Import.toJson : Import → Json
  | whole moduleName => Tagged.toJson "moduleName" (.text moduleName)
  | single name => Tagged.toJson "scopedName" name.toJson

namespace SchemaModule

def readDecls (old : List (String × Declaration)) :
    List (String × Json) → Reading (List (String × Declaration))
  | [] => .clean old
  | (key, value) :: rest =>
    (Reading.ofOutcome (Declaration.ofJson value)).andThen fun decl =>
      readDecls (Keyed.insert (Json.unescape key) decl old) rest

def readPart (m : SchemaModule) (name : String) (value : Json) : Reading SchemaModule :=
  if name = "name" then do return { m with name := ← value.readText m.name }
  else if name = "imports" then do
    return { m with
      imports := ← value.readList "[]adlast.Import"
        (fun _ j => Reading.ofOutcome (Import.ofJson j)) (.whole "") m.imports }
  else if name = "decls" then
    match value with
    | .null => .clean { m with decls := [] }
    | .obj members => do return { m with decls := ← readDecls m.decls members }
    | j => .mismatch m (j.unlike "map[string]adlast.Decl")
  else do return { m with annotations := ← Annotations.read m.annotations value }

/-- A declaration without a name is called by its key. -/
def nameByKey (entry : String × Declaration) : String × Declaration :=
  if entry.2.name = "" then (entry.1, { entry.2 with name := entry.1 }) else entry

def ofJson (j : Json) : Outcome SchemaModule := do
  let m ← (j.readRecord ⟨"adlast", "moduleJSON"⟩ ["name", "imports", "decls", "annotations"]
    readPart .empty).finish
  return { m with decls := m.decls.map nameByKey }

def declsJson : List (String × Declaration) → Outcome (List (String × Json))
  | [] => .ok []
  | (key, decl) :: rest => do return (Json.escape key, ← decl.toJson) :: (← declsJson rest)

def toJson (m : SchemaModule) : Outcome Json := Json.encoding "adlast.Module" do
  return .obj [("name", .text m.name), ("imports", .arr (m.imports.map Import.toJson)),
    ("decls", .obj (← declsJson m.decls)), ("annotations", ← m.annotations.toJson)]

/-- Reads the module of one entry of a document that holds several. -/
def ofEntry (key : String) (j : Json) : Outcome SchemaModule :=
  match ofJson j with
  | .error failure => .error (.context ("module " ++ key) failure)
  | .ok m => .ok (if m.name = "" then { m with name := key } else m)

/-- The modules of a document: one module, or an object of modules by name. -/
def ofDocument (j : Json) : Outcome (List SchemaModule) :=
  match j with
  | .null => .ok []
  | .obj members =>
    let entries := Keyed.ofList (members.map fun (key, value) => (Json.unescape key, value))
    if Keyed.contains "decls" entries then do return [← ofJson j]
    else entries.mapM fun (key, value) => ofEntry key value
  | j => .error (.json (j.unlike "map[string]json.RawMessage").text)

/-- Reads a document; `source` is what failures call it. -/
def decode (source text : String) : Outcome (List SchemaModule) :=
  match (Json.parse text).bind ofDocument with
  | .ok modules => .ok modules
  | .error failure => .error (.decode source (some failure))

end SchemaModule

end SchemaCompiler
