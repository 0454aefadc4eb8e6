import SchemaCompiler.Relational.Schema

/-!
# Table and view scripts

The statements that create the tables of a schema, then its constraints and indexes, then the
further statements of the tables; and those that create its views.
-/

namespace SchemaCompiler.Ddl

/-- A statement that completes a table. -/
inductive Constraint where
  | foreignKey (table name column target targetColumn : String)
  | index (table name : String) (columns : List String)
  | unique (table name : String) (columns : List String)
  deriving DecidableEq, Repr

def Constraint.text : Constraint → String
  | foreignKey table name column target targetColumn =>
    "alter table " ++ Naming.quoteReserved table ++ " add constraint " ++ name
      ++ " foreign key (" ++ column ++ ") references " ++ Naming.quoteReserved target ++ "("
      ++ targetColumn ++ ");"
  | index table name columns =>
    "create index " ++ name ++ " on " ++ Naming.quoteReserved table ++ "("
      ++ Text.joinWith ", " columns ++ ");"
  | unique table name columns =>
    "alter table " ++ Naming.quoteReserved table ++ " add constraint " ++ name ++ " unique ("
      ++ Text.joinWith ", " columns ++ ");"

def foreignKeyName (table column : String) : String :=
  table ++ "_" ++ column ++ "_fk"

/-- The name of an index by its place, counted from one. -/
def indexName (table : String) (place : Nat) : String :=
  table ++ "_" ++ toString place ++ "_idx"

/-- The name of a uniqueness constraint by its place, counted from one. -/
def uniqueName (table : String) (place : Nat) : String :=
  table ++ "_" ++ toString place ++ "_con"

def foreignKeys (t : Table) : List Constraint :=
  t.columns.filterMap fun c => c.foreignKey.map fun key =>
    .foreignKey t.name (foreignKeyName t.name c.name) c.name key.table key.column

def indexes (t : Table) : List Constraint :=
  t.indexes.mapIdx fun i columns => .index t.name (indexName t.name (i + 1)) columns

def uniques (t : Table) : List Constraint :=
  t.unique.mapIdx fun i columns => .unique t.name (uniqueName t.name (i + 1)) columns

/-- The constraints of a table: foreign keys, indexes, uniqueness constraints. -/
def constraints (t : Table) : List Constraint :=
  foreignKeys t ++ indexes t ++ uniques t

/-- A line of a table definition and the comment behind it. -/
structure Line where
  code : String
  comment : String

/-- The width at which comments start. -/
def commentColumn : Nat := 36

def columnLine (c : Column) : Line :=
  ⟨c.name ++ " " ++ c.type ++ (if c.nullable then "" else " not null"), c.comment⟩

def tableLines (t : Table) : List Line :=
  t.columns.map columnLine
    ++ if t.primaryKey.isEmpty then []
      else [⟨"primary key(" ++ Text.joinWith "," t.primaryKey ++ ")", ""⟩]

def Line.text (l : Line) (divider : String) : String :=
  let code := l.code ++ divider
  "  " ++ (if l.comment = "" then code
    else Text.padRight commentColumn code ++ " -- " ++ l.comment) ++ "\n"

def linesText : List Line → String
  | [] => ""
  | [l] => l.text ""
  | l :: next :: rest => l.text "," ++ linesText (next :: rest)

def tableText (t : Table) : String :=
  "\ncreate table " ++ Naming.quoteReserved t.name ++ "(\n" ++ linesText (tableLines t) ++ ");\n"

/-- Statements one a line after an empty line; nothing when there are none. -/
def blockText (statements : List String) : String :=
  if statements.isEmpty then ""
  else "\n" ++ String.join (statements.map (· ++ "\n"))

def headerText (s : Schema) (extensions : List String) : String :=
  "-- Schema auto-generated from adl modules: " ++ Text.joinWith ", " s.modules ++ "\n"
    ++ "--\n" ++ "-- column comments show original ADL types\n"
    ++ blockText (extensions.map fun e => "create extension " ++ e ++ ";")

def createScript (s : Schema) (extensions : List String) : String :=
  headerText s extensions ++ String.join (s.tables.map tableText)
    ++ blockText ((s.tables.flatMap constraints).map (·.text))
    ++ blockText (s.tables.flatMap (·.extraSql))

def viewText (v : View) : String :=
  if v.sql.isEmpty then ""
  else "drop view if exists " ++ v.name ++ ";\n\n" ++ String.join (v.sql.map (· ++ "\n")) ++ "\n"

def viewsScript (s : Schema) : String :=
  "\n" ++ String.join (s.views.map viewText)

end SchemaCompiler.Ddl
