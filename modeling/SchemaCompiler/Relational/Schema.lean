import SchemaCompiler.Datum
import SchemaCompiler.Graph
import SchemaCompiler.Naming
import SchemaCompiler.Relational.Profile

/-!
# Relational schemas

The tables and views of a graph: a declaration marked as a table has a column for each field, and
a column that holds a key of another table refers to its primary key.
-/

namespace SchemaCompiler

structure ForeignKey where
  table : String
  column : String
  target : ScopedName
  deriving DecidableEq, Repr

structure Column where
  field : ConcreteField
  name : String
  type : String
  nullable : Bool
  primaryKey : Bool
  foreignKey : Option ForeignKey
  /-- The type of the field with unqualified names. -/
  comment : String
  deriving Repr

structure Table where
  decl : Projection
  name : String
  columns : List Column
  primaryKey : List String
  indexes : List (List String)
  unique : List (List String)
  extraSql : List String
  /-- The value of the table annotation. -/
  annotation : List (String × Datum)
  deriving Repr

structure View where
  decl : Projection
  name : String
  sql : List String
  deriving Repr

structure Schema where
  profile : Profile
  /-- The modules of the tables, in order of the tables. -/
  modules : List String
  tables : List Table
  views : List View

namespace Relational

def keyWrapper : ScopedName := ⟨"common.db", "DbKey"⟩
def primaryKeyKey : ScopedName := ⟨"common.db", "DbPrimaryKey"⟩
def columnNameKey : ScopedName := ⟨"common.db", "DbColumnName"⟩
def columnTypeKey : ScopedName := ⟨"common.db", "DbColumnType"⟩
def docKey : ScopedName := ⟨"sys.annotations", "Doc"⟩

end Relational

/-- The documentation of a declaration without white space around it. -/
def Projection.doc (p : Projection) : String :=
  Text.trim ((p.annotations.text? Relational.docKey).getD "")

def Table.column? (t : Table) (name : String) : Option Column :=
  t.columns.find? (·.name = name)

def Table.doc (t : Table) : String := t.decl.doc

def View.doc (v : View) : String := v.decl.doc

namespace Column

/-- The column name of a field among columns; a name that is no field stands for itself. -/
def nameOf (columns : List Column) (field : String) : String :=
  ((columns.find? (·.field.name = field)).map (·.name)).getD field

def nameFor (f : ConcreteField) : String :=
  match f.field.annotations.text? Relational.columnNameKey with
  | some name => if name = "" then Naming.snake f.name else name
  | none => Naming.snake f.name

/-- The column of a field before its type is known. -/
def ofField (f : ConcreteField) : Column where
  field := f
  name := nameFor f
  type := ""
  nullable := false
  primaryKey := f.field.annotations.has Relational.primaryKeyKey
  foreignKey := none
  comment := f.typeExpr.text

end Column

namespace Relational

/-- The value of a table annotation. -/
structure TableSettings where
  tableName : String
  indexes : List (List String)
  unique : List (List String)
  extraSql : List String

def TableSettings.read (old : TableSettings) (j : Json) : Json.Reading TableSettings :=
  j.readRecord ⟨"db", "tableAnnotation"⟩
    ["tableName", "indexes", "uniquenessConstraints", "extraSql"]
    (fun s name value =>
      if name = "tableName" then do return { s with tableName := ← value.readText s.tableName }
      else if name = "indexes" then do
        return { s with indexes := ← value.readList "[][]string" Json.readTexts [] s.indexes }
      else if name = "uniquenessConstraints" then do
        return { s with unique := ← value.readList "[][]string" Json.readTexts [] s.unique }
      else do return { s with extraSql := ← value.readTexts s.extraSql }) old

/-- The members of a table annotation, whatever they are. -/
def annotationMembers (as : Annotations) : List (String × Datum) :=
  match as.decode tableKey (fun _ j => Datum.read j) (.map []) with
  | .ok (some (.map members)) => members
  | _ => []

/-- The table of a declaration, without the types of its columns. -/
def tableOf (p : Projection) : Outcome Table :=
  match p.annotations.decode tableKey TableSettings.read ⟨"", [], [], []⟩ with
  | .error failure =>
    .error (.schema p.name "" "invalid DbTable annotation" (some failure))
  | .ok settings =>
    let settings := settings.getD ⟨"", [], [], []⟩
    let columns := p.fields.map Column.ofField
    .ok {
      decl := p
      name := if settings.tableName = "" then Naming.tableName p.name.name
        else settings.tableName
      columns
      primaryKey := (columns.filter (·.primaryKey)).map (·.name)
      indexes := settings.indexes.map (·.map (Column.nameOf columns))
      unique := settings.unique.map (·.map (Column.nameOf columns))
      extraSql := settings.extraSql
      annotation := annotationMembers p.annotations }

/-- The longest chain of aliases and new types that is followed to a column type. -/
def maxExpansion : Nat := 64

def columnTypeWithin (g : Graph) (profile : Profile) : (budget : Nat) → TypeExpr → Outcome String
  | 0, t => .error (.plain ("db: column type of " ++ t.text ++ " does not terminate"))
  | budget + 1, t =>
    match t.reference? with
    | none => .ok (profile.columnType (t.primitive?.getD ""))
    | some n =>
      match g.store.resolve n with
      | .error failure => .error failure
      | .ok d =>
        match d.decl.annotations.text? columnTypeKey with
        | some type => .ok type
        | none =>
          if g.settings.wrappers.isReference n then .ok profile.idType
          else if d.decl.isEnum then .ok profile.enumType
          else
            match g.resolver.expandOnce t with
            | .error failure => .error failure
            | .ok none => .ok profile.documentType
            | .ok (some next) => columnTypeWithin g profile budget next

/-- The column type of a type: an annotation on its declaration comes first, then references and
enumerations, then what aliases and new types stand for, then the profile. -/
def columnType (g : Graph) (profile : Profile) (t : TypeExpr) : Outcome String :=
  columnTypeWithin g profile maxExpansion t

/-- The key of another table that a type holds, behind aliases. -/
def foreignKeyOf (g : Graph) (tables : List Table) (owner : ScopedName) (field : String)
    (t : TypeExpr) : Outcome (Option ForeignKey) :=
  match g.resolver.expandAliases t with
  | .error failure => .error (.schema owner field "" (some failure))
  | .ok (.app (.reference n) [.app (.reference target) _]) =>
    if n ≠ keyWrapper then .ok none
    else
      match tables.reverse.find? (·.decl.name = target) with
      | none =>
        .error (.link owner target field ("no table declaration for " ++ target.text)
          (some (.condition .unknownTable)))
      | some table =>
        match table.primaryKey with
        | [column] => .ok (some ⟨table.name, column, target⟩)
        | columns =>
          .error (.link owner target field "" (some (.resolve .ambiguousForeignKey target "" []
            ("no singular primary key for " ++ target.text ++ " (found "
              ++ toString columns.length ++ ")") none)))
  | .ok _ => .ok none

/-- The column with its type and key. -/
def typedColumn (g : Graph) (profile : Profile) (tables : List Table) (owner : ScopedName)
    (c : Column) : Outcome Column := do
  let inField (r : Outcome String) : Outcome String :=
    r.mapError fun failure => .schema owner c.field.name "" (some failure)
  let layer ← (g.resolver.classify c.field.typeExpr).mapError fun failure =>
    .schema owner c.field.name "" (some failure)
  let nullable := layer.kind = .optional
  let t := if nullable then layer.inner else c.field.typeExpr
  let type ← match c.field.field.annotations.text? columnTypeKey with
    | some type => .ok type
    | none => inField (columnType g profile t)
  let foreignKey ← foreignKeyOf g tables owner c.field.name t
  return { c with nullable, type, foreignKey }

def typedTable (g : Graph) (profile : Profile) (tables : List Table) (t : Table) :
    Outcome Table := do
  return { t with columns := ← t.columns.mapM (typedColumn g profile tables t.decl.name) }

structure ViewSettings where
  viewName : String
  sql : List String

def ViewSettings.read (old : ViewSettings) (j : Json) : Json.Reading ViewSettings :=
  j.readRecord ⟨"db", "viewAnnotation"⟩ ["viewName", "viewSql"] (fun s name value =>
    if name = "viewName" then do return { s with viewName := ← value.readText s.viewName }
    else do return { s with sql := ← value.readTexts s.sql }) old

def viewOf (p : Projection) : Outcome View :=
  match p.annotations.decode viewKey ViewSettings.read ⟨"", []⟩ with
  | .error failure => .error (.schema p.name "" "invalid DbView annotation" (some failure))
  | .ok settings =>
    let settings := settings.getD ⟨"", []⟩
    .ok {
      decl := p
      name := if settings.viewName = "" then Naming.snake p.name.name else settings.viewName
      sql := settings.sql }

end Relational

def Schema.table? (s : Schema) (name : String) : Option Table :=
  s.tables.find? (·.name = name)

/-- The relational schema of a graph.  Tables outside the focus can be referred to and are not
part of it. -/
def Schema.build (g : Graph) (profile : Profile) : Outcome Schema := do
  let known ← ((g.annotated tableKey).filter (!·.generic)).mapM Relational.tableOf
  let inFocus := (known.filter (!·.decl.external)).mergeSort fun a b => Text.le a.name b.name
  let tables ← inFocus.mapM (Relational.typedTable g profile known)
  let views ← ((g.annotated viewKey).filter fun p => !p.generic && !p.external).mapM
    Relational.viewOf
  return {
    profile
    modules := (tables.map (·.decl.name.moduleName)).eraseDups
    tables
    views := views.mergeSort fun a b => Text.le a.name b.name }

end SchemaCompiler
