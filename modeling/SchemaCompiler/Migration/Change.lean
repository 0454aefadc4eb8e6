import SchemaCompiler.Migration.Layout

/-!
# Changes between layouts

What has to be done to a database of one layout so that it has another: tables that go, tables
that differ, each with the parts in which it does, and tables that come.
-/

namespace SchemaCompiler

/-- A change inside a table. -/
inductive TablePart where
  | dropColumn (column : LayoutColumn)
  | modifyColumn (old new : LayoutColumn)
  | addColumn (column : LayoutColumn)
  | dropPrimaryKey (columns : List String)
  | addPrimaryKey (columns : List String)
  | modifyPrimaryKey (old new : List String)
  | dropIndex (index : LayoutIndex)
  | modifyIndex (old new : LayoutIndex)
  | addIndex (index : LayoutIndex)
  | dropForeignKey (key : SnapshotForeignKey)
  | modifyForeignKey (old new : SnapshotForeignKey)
  | addForeignKey (key : SnapshotForeignKey)
  deriving DecidableEq, Repr

inductive Change where
  | add (table : LayoutTable)
  | drop (table : LayoutTable)
  /-- The table as it is to be, and what is done to it. -/
  | modify (table : LayoutTable) (parts : List TablePart)
  deriving DecidableEq, Repr

def Change.table : Change → LayoutTable
  | add t | drop t | modify t _ => t

def Change.isDrop : Change → Bool
  | drop _ => true
  | _ => false

namespace LayoutTable

def shownType (c : LayoutColumn) : Option String := c.type.bind (·.shown)

def columnParts (old new : LayoutTable) : List TablePart :=
  (old.columns.filterMap fun c =>
    match new.column? c.name with
    | none => some (.dropColumn c)
    | some d =>
      if shownType c ≠ shownType d || c.nullable ≠ d.nullable then some (.modifyColumn c d)
      else none)
  ++ (new.columns.filter fun c => (old.column? c.name).isNone).map .addColumn

def primaryKeyParts (old new : LayoutTable) : List TablePart :=
  if old.primaryKey = new.primaryKey then []
  else if old.primaryKey.isEmpty then [.addPrimaryKey new.primaryKey]
  else if new.primaryKey.isEmpty then [.dropPrimaryKey old.primaryKey]
  else [.modifyPrimaryKey old.primaryKey new.primaryKey]

def indexParts (old new : LayoutTable) : List TablePart :=
  (old.indexes.filterMap fun i =>
    match new.index? i.name with
    | none => some (.dropIndex i)
    | some j =>
      if i.columns ≠ j.columns || i.unique ≠ j.unique then some (.modifyIndex i j) else none)
  ++ (new.indexes.filter fun i => (old.index? i.name).isNone).map .addIndex

def foreignKeyParts (old new : LayoutTable) : List TablePart :=
  (old.foreignKeys.filterMap fun k =>
    match new.foreignKey? k.name with
    | none => some (.dropForeignKey k)
    | some m =>
      if k.column ≠ m.column || k.refTable ≠ m.refTable || k.refColumn ≠ m.refColumn then
        some (.modifyForeignKey k m)
      else none)
  ++ (new.foreignKeys.filter fun k => (old.foreignKey? k.name).isNone).map .addForeignKey

def parts (old new : LayoutTable) : List TablePart :=
  columnParts old new ++ primaryKeyParts old new ++ indexParts old new ++ foreignKeyParts old new

end LayoutTable

def Layout.changes (old new : Layout) : List Change :=
  (old.filterMap fun t =>
    match new.table? t.name with
    | none => some (.drop t)
    | some u =>
      let parts := LayoutTable.parts t u
      if parts.isEmpty then none else some (.modify u parts))
  ++ (new.filter fun t => (old.table? t.name).isNone).map .add

end SchemaCompiler
