import SchemaCompiler.Migration.Order

/-!
# Migration statements

The statements that carry out changes in a dialect, each with a comment that says what it does.
-/

namespace SchemaCompiler

open Text

structure MigrationStatement where
  comment : String
  command : String
  deriving DecidableEq, Repr

/-- What planning takes from a database: how it reads column types, what it takes for a change from
one layout to another, and how it carries out changes. -/
structure Planner where
  parse : TypeParser
  changes : Layout → Layout → Outcome (List Change)
  statements : List Change → Outcome (List MigrationStatement)

structure Migration where
  name : String
  statements : List MigrationStatement
  deriving DecidableEq, Repr

namespace Dialect

def quoteMark : Dialect → String
  | postgres => "\""
  | _ => "\x60"

/-- A quoted name; no name is no text. -/
def ident (d : Dialect) (name : String) : String :=
  if name = "" then "" else d.quoteMark ++ name ++ d.quoteMark

def idents (d : Dialect) (names : List String) : String :=
  "(" ++ joinWith ", " (names.map d.ident) ++ ")"

/-- Words with a blank between them; a word without letters is left out. -/
def phrase (words : List String) : String :=
  joinWith " " (words.filter (· ≠ ""))

/-- The definition of a column. -/
def columnText (d : Dialect) (c : LayoutColumn) : Outcome String :=
  match c.type with
  | none => .error (.panic none)
  | some type =>
    match type.shown with
    | none =>
      .error (.plain ("format type for column " ++ quoted c.name ++ ": unsupported type "
        ++ quoted type.raw))
    | some shown =>
      .ok (phrase [d.ident c.name, shown, if c.nullable then "NULL" else "NOT NULL"])

def primaryKeyText (d : Dialect) (columns : List String) : String :=
  "PRIMARY KEY " ++ d.idents columns

def foreignKeyText (d : Dialect) (k : SnapshotForeignKey) : String :=
  phrase ["CONSTRAINT", d.ident k.name, "FOREIGN KEY", d.idents [k.column], "REFERENCES",
    d.ident k.refTable, d.idents [k.refColumn]]

def indexKind (i : LayoutIndex) : String :=
  if i.unique then "UNIQUE INDEX" else "INDEX"

def inlineIndexText (d : Dialect) (i : LayoutIndex) : String :=
  phrase [indexKind i, d.ident i.name, d.idents i.columns]

/-- Whether indexes are part of the statement that creates or changes their table. -/
def inlinesIndexes : Dialect → Bool
  | mysql => true
  | _ => false

def createIndex (d : Dialect) (table : String) (i : LayoutIndex) : MigrationStatement where
  comment := "create index " ++ quoted i.name ++ " to table: " ++ quoted table
  command :=
    phrase ["CREATE", indexKind i, d.ident i.name, "ON", d.ident table, d.idents i.columns]

def dropIndex (d : Dialect) (table : String) (i : LayoutIndex) : MigrationStatement where
  comment := "drop index " ++ quoted i.name ++ " from table: " ++ quoted table
  command := phrase ["DROP INDEX", d.ident i.name]

def createTableOnly (d : Dialect) (t : LayoutTable) : Outcome MigrationStatement :=
  match t.columns.mapM d.columnText with
  | .error failure => .error (failure.within ("create table " ++ quoted t.name))
  | .ok columns =>
    let parts := columns
      ++ (if t.primaryKey.isEmpty then [] else [d.primaryKeyText t.primaryKey])
      ++ (if d.inlinesIndexes then t.indexes.map d.inlineIndexText else [])
      ++ t.foreignKeys.map d.foreignKeyText
    .ok ⟨"create " ++ quoted t.name ++ " table",
      phrase ["CREATE TABLE", d.ident t.name, "(" ++ joinWith ", " parts ++ ")"]⟩

def createTable (d : Dialect) (t : LayoutTable) : Outcome (List MigrationStatement) := do
  let table ← d.createTableOnly t
  return table :: if d.inlinesIndexes then [] else t.indexes.map (d.createIndex t.name)

/-- A table can be dropped if it could be created again. -/
def dropTable (d : Dialect) (t : LayoutTable) : Outcome (List MigrationStatement) :=
  match d.createTable t with
  | .error failure =>
    .error (failure.within ("calculate reverse for drop table " ++ quoted t.name))
  | .ok _ =>
    .ok [⟨"drop " ++ quoted t.name ++ " table", phrase ["DROP TABLE", d.ident t.name]⟩]

/-! ## Changing a table -/

def droppedColumns (parts : List TablePart) : List String :=
  parts.filterMap fun
    | .dropColumn c => some c.name
    | _ => none

/-- Whether a part happens by itself when its columns are dropped. -/
def happensAnyway (d : Dialect) (dropped : List String) : TablePart → Bool
  | .dropIndex i =>
    match d with
    | mysql => i.columns.all dropped.contains
    | postgres => i.columns.any dropped.contains
    | sqlite => false
  | .dropForeignKey k =>
    match d with
    | postgres => dropped.contains k.column
    | _ => false
  | _ => false

def effective (d : Dialect) (parts : List TablePart) : List TablePart :=
  parts.filter (!d.happensAnyway (droppedColumns parts) ·)

def dropConstraint (d : Dialect) (k : SnapshotForeignKey) : String :=
  match d with
  | mysql => phrase ["DROP FOREIGN KEY", d.ident k.name]
  | _ => phrase ["DROP CONSTRAINT", d.ident k.name]

def dropPrimaryKeyText (d : Dialect) (table : String) : String :=
  match d with
  | mysql => "DROP PRIMARY KEY"
  | _ => phrase ["DROP CONSTRAINT", d.ident (table ++ "_pkey")]

/-- The clauses that change a column. -/
def modifyColumnTexts (d : Dialect) (old new : LayoutColumn) : Outcome (List String) :=
  match d.columnText new with
  | .error failure => .error failure
  | .ok definition =>
    match d with
    | postgres =>
      let head := phrase ["ALTER COLUMN", d.ident new.name]
      .ok ((if LayoutTable.shownType old ≠ LayoutTable.shownType new then
            [head ++ " TYPE " ++ (LayoutTable.shownType new).getD ""] else [])
        ++ (if old.nullable ≠ new.nullable then
            [head ++ if new.nullable then " DROP NOT NULL" else " SET NOT NULL"] else []))
    | _ => .ok ["MODIFY COLUMN " ++ definition]

/-- The clauses of a part in a statement that alters a table. -/
def clauses (d : Dialect) (table : String) : TablePart → Outcome (List String)
  | .addColumn c => do return ["ADD COLUMN " ++ (← d.columnText c)]
  | .dropColumn c => do
    let _ ← d.columnText c
    return [phrase ["DROP COLUMN", d.ident c.name]]
  | .modifyColumn old new => d.modifyColumnTexts old new
  | .addPrimaryKey columns => .ok ["ADD " ++ d.primaryKeyText columns]
  | .dropPrimaryKey _ => .ok [d.dropPrimaryKeyText table]
  | .modifyPrimaryKey _ new => .ok [d.dropPrimaryKeyText table, "ADD " ++ d.primaryKeyText new]
  | .addIndex i => .ok ["ADD " ++ d.inlineIndexText i]
  | .dropIndex i => .ok [phrase ["DROP INDEX", d.ident i.name]]
  | .modifyIndex old new =>
    .ok [phrase ["DROP INDEX", d.ident old.name], "ADD " ++ d.inlineIndexText new]
  | .addForeignKey k => .ok ["ADD " ++ d.foreignKeyText k]
  | .dropForeignKey k => .ok [d.dropConstraint k]
  | .modifyForeignKey old new => .ok [d.dropConstraint old, "ADD " ++ d.foreignKeyText new]

/-- One statement with the clauses of all parts, or none without parts. -/
def alterTable (d : Dialect) (table : String) (parts : List TablePart) :
    Outcome (List MigrationStatement) :=
  if parts.isEmpty then .ok []
  else
    match parts.mapM (d.clauses table) with
    | .error failure => .error (failure.within ("alter table " ++ quoted table))
    | .ok texts =>
      .ok [⟨"modify " ++ quoted table ++ " table",
        phrase ["ALTER TABLE", d.ident table, joinWith ", " texts.flatten]⟩]

def isIndexPart : TablePart → Bool
  | .dropIndex _ | .modifyIndex _ _ | .addIndex _ => true
  | _ => false

def oldIndex? : TablePart → Option LayoutIndex
  | .dropIndex i => some i
  | .modifyIndex old _ => some old
  | _ => none

def newIndex? : TablePart → Option LayoutIndex
  | .addIndex i => some i
  | .modifyIndex _ new => some new
  | _ => none

/-- Indexes go first and come last. -/
def modifyAround (d : Dialect) (t : LayoutTable) (parts : List TablePart) :
    Outcome (List MigrationStatement) := do
  let parts := d.effective parts
  let altered ← d.alterTable t.name (parts.filter (!isIndexPart ·))
  return (parts.filterMap oldIndex?).map (d.dropIndex t.name) ++ altered
    ++ (parts.filterMap newIndex?).map (d.createIndex t.name)

/-- What is dropped before it is made anew, and what is left to do then. -/
def split : TablePart → List TablePart × List TablePart
  | .modifyForeignKey old new => ([.dropForeignKey old], [.addForeignKey new])
  | .modifyIndex old new => ([.dropIndex old], [.addIndex new])
  | part => ([], [part])

/-- What is made anew is dropped by a statement of its own. -/
def modifyInTwo (d : Dialect) (t : LayoutTable) (parts : List TablePart) :
    Outcome (List MigrationStatement) := do
  let parts := d.effective parts
  let first ← d.alterTable t.name (parts.flatMap (split · |>.1))
  let second ← d.alterTable t.name (parts.flatMap (split · |>.2))
  return first ++ second

/-! ## Changing a table by copying it -/

/-- Whether a table can be changed in place: only indexes change, or columns come that no index
and no foreign key has. -/
def isAlterable (t : LayoutTable) (parts : List TablePart) : Bool :=
  parts.all fun
    | .addIndex _ | .dropIndex _ => true
    | .addColumn c =>
      !(t.indexes.any (·.columns.contains c.name)) && !(t.foreignKeys.any (·.column = c.name))
    | _ => false

def addColumnStatement (d : Dialect) (table : String) (c : LayoutColumn) :
    Outcome MigrationStatement := do
  return ⟨"add column " ++ quoted c.name ++ " to table: " ++ quoted table,
    phrase ["ALTER TABLE", d.ident table, "ADD COLUMN " ++ (← d.columnText c)]⟩

def inPlace (d : Dialect) (table : String) : TablePart → Outcome (List MigrationStatement)
  | .addColumn c => do return [← d.addColumnStatement table c]
  | .addIndex i => .ok [d.createIndex table i]
  | .dropIndex i => .ok [d.dropIndex table i]
  | _ => .ok []

def addedColumns (parts : List TablePart) : List String :=
  parts.filterMap fun
    | .addColumn c => some c.name
    | _ => none

/-- Moves the rows into a new table, which then takes the place of the old one. -/
def copyTable (d : Dialect) (t : LayoutTable) (parts : List TablePart) :
    Outcome (List MigrationStatement) := do
  let temporary := "new_" ++ t.name
  let created ← d.createTableOnly { t with name := temporary, indexes := [] }
  let kept := (t.columns.map (·.name)).filter (!(addedColumns parts).contains ·)
  let columns := joinWith ", " (kept.map d.ident)
  let copied : List MigrationStatement :=
    if kept.isEmpty then []
    else
      [⟨"copy rows from old table " ++ quoted t.name ++ " to new temporary table "
          ++ quoted temporary,
        phrase ["INSERT INTO", d.ident temporary, "(" ++ columns ++ ")", "SELECT", columns,
          "FROM", d.ident t.name]⟩]
  return created :: copied
    ++ [⟨"drop " ++ quoted t.name ++ " table "
          ++ (if kept.isEmpty then "without copying rows (no columns)" else "after copying rows"),
        phrase ["DROP TABLE", d.ident t.name]⟩,
      ⟨"rename temporary table " ++ quoted temporary ++ " to " ++ quoted t.name,
        phrase ["ALTER TABLE", d.ident temporary, "RENAME TO", d.ident t.name]⟩]
    ++ t.indexes.map (d.createIndex t.name)

def modifyByCopy (d : Dialect) (t : LayoutTable) (parts : List TablePart) :
    Outcome (List MigrationStatement) :=
  if isAlterable t parts then do return (← parts.mapM (d.inPlace t.name)).flatten
  else d.copyTable t parts

/-! ## A whole migration -/

def statementsOf (d : Dialect) : Change → Outcome (List MigrationStatement)
  | .add t => d.createTable t
  | .drop t => d.dropTable t
  | .modify t parts =>
    match d with
    | postgres => d.modifyAround t parts
    | mysql => d.modifyInTwo t parts
    | sqlite => d.modifyByCopy t parts

/-- Whether a change needs the enforcement of foreign keys to be off. -/
def breaksKeys (d : Dialect) : Change → Bool
  | .add _ => false
  | .drop _ => d = sqlite
  | .modify t parts => d = sqlite && !isAlterable t parts

def keysOff : MigrationStatement :=
  ⟨"disable the enforcement of foreign-keys constraints", "PRAGMA foreign_keys = off"⟩

def keysOn : MigrationStatement :=
  ⟨"enable back the enforcement of foreign-keys constraints", "PRAGMA foreign_keys = on"⟩

def inOrder (d : Dialect) (changes : List Change) : List Change :=
  match d with
  | sqlite => changes
  | _ => Change.ordered changes

def statements (d : Dialect) (changes : List Change) : Outcome (List MigrationStatement) := do
  let all ← (d.inOrder changes).mapM d.statementsOf
  return if changes.any d.breaksKeys then keysOff :: all.flatten ++ [keysOn] else all.flatten

/-- Layouts are compared where all columns have types. -/
def planner (d : Dialect) : Planner where
  parse := ColumnType.shownIn d
  changes old new :=
    if old.isTyped && new.isTyped then .ok (old.changes new) else .error (.panic none)
  statements := d.statements

end Dialect

namespace Migration

def between (planners : Dialect → Planner) (dialect name : String) (old new : Snapshot) :
    Outcome Migration :=
  match Dialect.ofName? dialect with
  | none =>
    .error (.plain ("sql: no migration planner for dialect " ++ quoted dialect))
  | some d => do
    let current ← Layout.ofSnapshot (planners d).parse old
    let desired ← Layout.ofSnapshot (planners d).parse new
    let changes ← ((planners d).changes current desired).mapError (·.within "sql: diff schema")
    if changes.isEmpty then return ⟨name, []⟩
    let statements ← ((planners d).statements changes).mapError (·.within "sql: plan changes")
    return ⟨name, statements⟩

/-- A statement under its comment, which starts with a capital letter. -/
def statementText (s : MigrationStatement) : String :=
  "-- " ++ s.comment.capitalize ++ "\n" ++ s.command ++ ";\n"

/-- The script of a migration under the lines of a header. -/
def script (m : Migration) (header : List String) : String :=
  String.join (header.map fun line => "-- " ++ line ++ "\n")
    ++ String.join (m.statements.map statementText)

end Migration

end SchemaCompiler
