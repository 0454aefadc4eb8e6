import SchemaCompiler.Migration.ColumnType
import SchemaCompiler.Migration.Snapshot

/-!
# Layouts

The tables of a snapshot with the column types of a dialect.  A foreign key ties its column to a
column of another table.  A table outside the snapshot is known by its name only; a referenced
column that a table of the snapshot lacks is added to it without a type.
-/

namespace SchemaCompiler

/-- A parser of column types: the spelling that a database shows, none for a type that it does not
know, or a refusal. -/
abbrev TypeParser := String → Outcome (Option String)

structure LayoutColumn where
  name : String
  /-- None for a column that is known only because it is referenced. -/
  type : Option ColumnType
  nullable : Bool
  deriving DecidableEq, Repr

structure LayoutIndex where
  name : String
  columns : List String
  unique : Bool
  deriving DecidableEq, Repr

structure LayoutTable where
  name : String
  columns : List LayoutColumn
  primaryKey : List String
  indexes : List LayoutIndex
  foreignKeys : List SnapshotForeignKey
  deriving DecidableEq, Repr

namespace LayoutTable

def column? (t : LayoutTable) (name : String) : Option LayoutColumn :=
  t.columns.find? (·.name = name)

def index? (t : LayoutTable) (name : String) : Option LayoutIndex :=
  t.indexes.find? (·.name = name)

def foreignKey? (t : LayoutTable) (name : String) : Option SnapshotForeignKey :=
  t.foreignKeys.find? (·.name = name)

/-- Whether all the named columns are there; the failure names the first that is not. -/
def requireColumns (t : LayoutTable) : List String → Outcome Unit
  | [] => .ok ()
  | name :: rest =>
    if (t.column? name).isSome then t.requireColumns rest
    else .error (.plain ("sql: table " ++ t.name ++ " has no column " ++ name))

def ofColumn (parse : TypeParser) (table : String) (c : SnapshotColumn) : Outcome LayoutColumn :=
  match parse c.type with
  | .ok shown => .ok ⟨c.name, some ⟨c.type, shown⟩, c.nullable⟩
  | .error failure => .error (failure.within ("sql: column " ++ table ++ "." ++ c.name))

/-- A table of a snapshot without its foreign keys. -/
def ofSnapshot (parse : TypeParser) (t : SnapshotTable) : Outcome LayoutTable := do
  let columns ← t.columns.mapM (ofColumn parse t.name)
  let table : LayoutTable :=
    ⟨t.name, columns, t.primaryKey, t.indexes.map fun i => ⟨i.name, i.columns, i.unique⟩, []⟩
  table.requireColumns t.primaryKey
  table.requireColumns (t.indexes.flatMap (·.columns))
  return table

def addColumn (c : LayoutColumn) (t : LayoutTable) : LayoutTable :=
  { t with columns := t.columns ++ [c] }

def addForeignKey (k : SnapshotForeignKey) (t : LayoutTable) : LayoutTable :=
  { t with foreignKeys := t.foreignKeys ++ [k] }

end LayoutTable

abbrev Layout := List LayoutTable

namespace Layout

def table? (l : Layout) (name : String) : Option LayoutTable :=
  l.find? (·.name = name)

/-- The last table of a name, to which the foreign keys of that name belong. -/
def owner? (l : Layout) (name : String) : Option LayoutTable :=
  l.findRev? (·.name = name)

def updateFirst (name : String) (change : LayoutTable → LayoutTable) : Layout → Layout
  | [] => []
  | t :: rest => if t.name = name then change t :: rest else t :: updateFirst name change rest

def updateOwner (name : String) (change : LayoutTable → LayoutTable) (l : Layout) : Layout :=
  (updateFirst name change l.reverse).reverse

/-- The layout in which the referenced column of a key is there, if its table is. -/
def withTarget (l : Layout) (k : SnapshotForeignKey) : Layout :=
  match l.owner? k.refTable with
  | none => l
  | some target =>
    if (target.column? k.refColumn).isSome then l
    else updateOwner k.refTable (LayoutTable.addColumn ⟨k.refColumn, none, false⟩) l

def addForeignKey (table : String) (l : Layout) (k : SnapshotForeignKey) : Outcome Layout :=
  match l.owner? table with
  | none => .ok l
  | some owner => do
    owner.requireColumns [k.column]
    return updateOwner table (LayoutTable.addForeignKey k) (withTarget l k)

def ofSnapshot (parse : TypeParser) (s : Snapshot) : Outcome Layout := do
  let tables ← s.tables.mapM (LayoutTable.ofSnapshot parse)
  s.tables.foldlM (fun l t => t.foreignKeys.foldlM (addForeignKey t.name) l) tables

def isTyped (l : Layout) : Bool :=
  l.all fun t => t.columns.all (·.type.isSome)

end Layout

end SchemaCompiler
