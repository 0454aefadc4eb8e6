import SchemaCompiler.Migration.Snapshot

/-!
# Findings

What is wrong with a snapshot, and what a migration would break.  A breaking change is an error
unless it is allowed; then it is a warning like other risky changes.
-/

namespace SchemaCompiler

structure Finding where
  table : String
  column : String
  value : Option String
  message : String
  deriving DecidableEq, Repr

def Finding.failure (f : Finding) : Failure := .validation f.table f.column f.message none

def Finding.text (f : Finding) : String :=
  if f.column = "" then f.table ++ ": " ++ f.message
  else f.table ++ "." ++ f.column ++ ": " ++ f.message

structure Findings where
  errors : List Finding
  warnings : List Finding
  deriving DecidableEq, Repr

namespace Findings

def none : Findings := ⟨[], []⟩

def hasErrors (f : Findings) : Bool := !f.errors.isEmpty

def hasWarnings (f : Findings) : Bool := !f.warnings.isEmpty

/-- All errors as one failure. -/
def failure? (f : Findings) : Option Failure :=
  if f.errors.isEmpty then Option.none else some (.joined (f.errors.map Finding.failure))

def sectionText (title : String) (found : List Finding) : String :=
  if found.isEmpty then ""
  else title ++ ":\n" ++ String.join (found.map fun f => "  - " ++ f.text ++ "\n")

def text (f : Findings) : String :=
  if f.hasErrors || f.hasWarnings then
    sectionText "Errors" f.errors ++ sectionText "Warnings" f.warnings
  else "No issues found"

end Findings

namespace Snapshot

/-- Values that occur before, each time that they do. -/
def repeated (seen : List String) : List String → List String
  | [] => []
  | s :: rest => if seen.contains s then s :: repeated seen rest else repeated (s :: seen) rest

/-! ## One snapshot -/

def columnErrors (t : SnapshotTable) : List Finding :=
  (repeated [] (t.columns.map (·.name))).map fun c => ⟨t.name, c, none, "duplicate column name"⟩

def hasColumn (t : SnapshotTable) (name : String) : Bool :=
  t.columns.any (·.name = name)

def keyErrors (t : SnapshotTable) : List Finding :=
  (t.primaryKey.filter (!hasColumn t ·)).map fun c =>
    ⟨t.name, c, none, "primary key references non-existent column"⟩

def indexColumnErrors (t : SnapshotTable) (i : SnapshotIndex) : List Finding :=
  (i.columns.filter (!hasColumn t ·)).map fun c =>
    ⟨t.name, c, some i.name, "index " ++ Text.quoted i.name ++ " references non-existent column "
      ++ Text.quoted c⟩

def indexErrors (t : SnapshotTable) (seen : List String) : List SnapshotIndex → List Finding
  | [] => []
  | i :: rest =>
    (if seen.contains i.name then
        [⟨t.name, "", some i.name, "duplicate index name: " ++ i.name⟩]
      else [])
      ++ indexColumnErrors t i ++ indexErrors t (i.name :: seen) rest

def foreignKeyErrors (t : SnapshotTable) : List Finding :=
  (t.foreignKeys.filter (!hasColumn t ·.column)).map fun k =>
    ⟨t.name, k.column, none, "foreign key references non-existent column"⟩

def tableErrors (t : SnapshotTable) : List Finding :=
  columnErrors t ++ keyErrors t ++ indexErrors t [] t.indexes ++ foreignKeyErrors t

def tablesErrors (seen : List String) : List SnapshotTable → List Finding
  | [] => []
  | t :: rest =>
    (if seen.contains t.name then [⟨t.name, "", none, "duplicate table name"⟩] else [])
      ++ tableErrors t ++ tablesErrors (t.name :: seen) rest

def keyWarnings (s : Snapshot) : List Finding :=
  (s.tables.filter (·.primaryKey.isEmpty)).map fun t =>
    ⟨t.name, "", none, "table has no primary key"⟩

def foreignKeyWarnings (s : Snapshot) : List Finding :=
  s.tables.flatMap fun t =>
    (t.foreignKeys.filter fun k => (s.table? k.refTable).isNone).map fun k =>
      ⟨t.name, k.column, some k.refTable, "foreign key references table "
        ++ Text.quoted k.refTable ++ " outside the snapshot"⟩

/-- Whether names are repeated or name nothing. -/
def check (s : Snapshot) : Findings :=
  ⟨tablesErrors [] s.tables, keyWarnings s ++ foreignKeyWarnings s⟩

/-! ## Two snapshots -/

inductive Allowance where
  | dropTable
  | dropColumn
  | dropIndex
  | nullToNotNull
  | all
  deriving DecidableEq, Repr

def Allowance.name : Allowance → String
  | dropTable => "drop_table"
  | dropColumn => "drop_column"
  | dropIndex => "drop_index"
  | nullToNotNull => "null_to_not_null"
  | all => "all"

def Allowance.ofName? (name : String) : Option Allowance :=
  [Allowance.dropTable, .dropColumn, .dropIndex, .nullToNotNull, .all].find? (·.name = name)

/-- A finding and what allows it; without an allowance it is only a warning. -/
structure Risk where
  allowance : Option Allowance
  finding : Finding
  deriving DecidableEq, Repr

def droppedTables (current desired : Snapshot) : List Risk :=
  (current.tables.filter fun t => (desired.table? t.name).isNone).map fun t =>
    ⟨some .dropTable, t.name, "", none, "table will be dropped"⟩

def droppedColumns (current desired : SnapshotTable) : List Risk :=
  (current.columns.filter fun c => (desired.column? c.name).isNone).map fun c =>
    ⟨some .dropColumn, current.name, c.name, none, "column will be dropped"⟩

def columnRisks (current : SnapshotTable) (want : SnapshotColumn) : List Risk :=
  match current.column? want.name with
  | none =>
    if want.nullable then []
    else
      [⟨none, current.name, want.name, some want.type,
        "new NOT NULL column without default value may fail if table has data"⟩]
  | some held =>
    (if held.type ≠ want.type then
        [⟨none, current.name, want.name, some want.type,
          "column type changing from " ++ held.type ++ " to " ++ want.type⟩]
      else [])
      ++ (if held.nullable && !want.nullable then
        [⟨some .nullToNotNull, current.name, want.name, none,
          "column changing from NULL to NOT NULL may fail if column has NULL values"⟩]
      else [])

def droppedIndexes (current desired : SnapshotTable) : List Risk :=
  (current.indexes.filter fun i => (desired.index? i.name).isNone).map fun i =>
    ⟨some .dropIndex, current.name, "", some i.name,
      "index " ++ Text.quoted i.name ++ " will be dropped"⟩

def newUniques (current desired : SnapshotTable) : List Risk :=
  (desired.indexes.filter fun i => (current.index? i.name).isNone && i.unique).map fun i =>
    ⟨none, current.name, "", some i.name,
      "adding UNIQUE constraint may fail if duplicate values exist"⟩

def tableRisks (current desired : SnapshotTable) : List Risk :=
  droppedColumns current desired ++ desired.columns.flatMap (columnRisks current)
    ++ droppedIndexes current desired ++ newUniques current desired

/-- What a migration would break or risk. -/
def risks (current desired : Snapshot) : List Risk :=
  droppedTables current desired
    ++ desired.tables.flatMap fun t =>
      match current.table? t.name with
      | some held => tableRisks held t
      | none => []

def isAllowed (allowed : List Allowance) : Option Allowance → Bool
  | none => true
  | some a => allowed.contains a || allowed.contains .all

/-- The findings of a migration under some allowances. -/
def compare (current desired : Snapshot) (allowed : List Allowance) : Findings :=
  let found := risks current desired
  ⟨(found.filter (!isAllowed allowed ·.allowance)).map (·.finding),
    (found.filter (isAllowed allowed ·.allowance)).map (·.finding)⟩

end Snapshot

end SchemaCompiler
