import SchemaCompiler.Ddl.Script
import SchemaCompiler.Files.Tree

/-!
# Snapshots

A snapshot is the relational model of a schema that is stored between runs: tables with their
columns, keys and indexes under the names that the table script gives them.  Its document may
leave out a list, which counts as empty and is written the way it was read.
-/

namespace SchemaCompiler

structure SnapshotColumn where
  name : String
  type : String
  nullable : Bool
  deriving DecidableEq, Repr

structure SnapshotIndex where
  name : String
  columns : List String
  unique : Bool
  /-- Whether the list of columns is there. -/
  columnsGiven : Bool
  deriving DecidableEq, Repr

structure SnapshotForeignKey where
  name : String
  column : String
  refTable : String
  refColumn : String
  deriving DecidableEq, Repr

structure SnapshotTable where
  name : String
  columns : List SnapshotColumn
  primaryKey : List String
  /-- Indexes and uniqueness constraints. -/
  indexes : List SnapshotIndex
  foreignKeys : List SnapshotForeignKey
  /-- Whether the list of columns is there. -/
  columnsGiven : Bool
  deriving DecidableEq, Repr

structure Snapshot where
  profile : String
  tables : List SnapshotTable
  /-- Whether the list of tables is there. -/
  tablesGiven : Bool
  deriving DecidableEq, Repr

namespace SnapshotTable

def column? (t : SnapshotTable) (name : String) : Option SnapshotColumn :=
  t.columns.find? (·.name = name)

def index? (t : SnapshotTable) (name : String) : Option SnapshotIndex :=
  t.indexes.find? (·.name = name)

def ofTable (t : Table) : SnapshotTable where
  name := t.name
  columns := t.columns.map fun c => ⟨c.name, c.type, c.nullable⟩
  primaryKey := t.primaryKey
  indexes :=
    (t.indexes.mapIdx fun i columns =>
      (⟨t.name ++ "_" ++ toString (i + 1) ++ "_idx", columns, false, true⟩ : SnapshotIndex))
    ++ (t.unique.mapIdx fun i columns =>
      (⟨t.name ++ "_" ++ toString (i + 1) ++ "_con", columns, true, true⟩ : SnapshotIndex))
  foreignKeys := t.columns.filterMap fun c => c.foreignKey.map fun key =>
    ⟨t.name ++ "_" ++ c.name ++ "_fk", c.name, key.table, key.column⟩
  columnsGiven := !t.columns.isEmpty

end SnapshotTable

namespace Snapshot

open Json

def empty : Snapshot := ⟨"", [], false⟩

def table? (s : Snapshot) (name : String) : Option SnapshotTable :=
  s.tables.find? (·.name = name)

def ofSchema (s : Schema) : Snapshot :=
  ⟨s.profile.name, s.tables.map SnapshotTable.ofTable, true⟩

/-! ## Documents -/

def columnJson (c : SnapshotColumn) : Json :=
  .object ([("name", .text c.name), ("type", .text c.type)]
    ++ if c.nullable then [("nullable", .bool true)] else [])

def listJson (given : Bool) (items : List Json) : Json :=
  if items.isEmpty && !given then .null else .arr items

def indexJson (i : SnapshotIndex) : Json :=
  .object ([("name", .text i.name), ("columns", listJson i.columnsGiven (i.columns.map .text))]
    ++ if i.unique then [("unique", .bool true)] else [])

def foreignKeyJson (k : SnapshotForeignKey) : Json :=
  .object [("name", .text k.name), ("column", .text k.column), ("refTable", .text k.refTable),
    ("refColumn", .text k.refColumn)]

def nonEmpty (key : String) (items : List Json) : List (String × Json) :=
  if items.isEmpty then [] else [(key, .arr items)]

def tableJson (t : SnapshotTable) : Json :=
  .object ([("name", .text t.name),
    ("columns", listJson t.columnsGiven (t.columns.map columnJson))]
    ++ nonEmpty "primaryKey" (t.primaryKey.map .text)
    ++ nonEmpty "indexes" (t.indexes.map indexJson)
    ++ nonEmpty "foreignKeys" (t.foreignKeys.map foreignKeyJson))

def toJson (s : Snapshot) : Json :=
  .object [("profile", .text s.profile),
    ("tables", listJson s.tablesGiven (s.tables.map tableJson))]

def text (s : Snapshot) : String := s.toJson.indent ++ "\n"

def readColumn (old : SnapshotColumn) (j : Json) : Reading SnapshotColumn :=
  readRecord ⟨"sql", "SnapshotColumn"⟩ ["name", "type", "nullable"] (fun c name value =>
    match name with
    | "name" => do return { c with name := ← readText c.name value }
    | "type" => do return { c with type := ← readText c.type value }
    | _ => do return { c with nullable := ← readBool c.nullable value }) old j

/-- Whether a list is there after a value was read over it. -/
def givenAfter (old : Bool) : Json → Bool
  | .null => false
  | .arr _ => true
  | _ => old

def readIndex (old : SnapshotIndex) (j : Json) : Reading SnapshotIndex :=
  readRecord ⟨"sql", "SnapshotIndex"⟩ ["name", "columns", "unique"] (fun i name value =>
    match name with
    | "name" => do return { i with name := ← readText i.name value }
    | "columns" => do
      return { i with
        columns := ← readTexts i.columns value
        columnsGiven := givenAfter i.columnsGiven value }
    | _ => do return { i with unique := ← readBool i.unique value }) old j

def readForeignKey (old : SnapshotForeignKey) (j : Json) : Reading SnapshotForeignKey :=
  readRecord ⟨"sql", "SnapshotForeignKey"⟩
    ["name", "column", "refTable", "refColumn"] (fun k name value =>
    match name with
    | "name" => do return { k with name := ← readText k.name value }
    | "column" => do return { k with column := ← readText k.column value }
    | "refTable" => do return { k with refTable := ← readText k.refTable value }
    | _ => do return { k with refColumn := ← readText k.refColumn value }) old j

def readTable (old : SnapshotTable) (j : Json) : Reading SnapshotTable :=
  readRecord ⟨"sql", "SnapshotTable"⟩
    ["name", "columns", "primaryKey", "indexes", "foreignKeys"] (fun t name value =>
    match name with
    | "name" => do return { t with name := ← readText t.name value }
    | "columns" => do
      return { t with
        columns := ← readList "[]*sql.SnapshotColumn" readColumn ⟨"", "", false⟩ t.columns value
        columnsGiven := givenAfter t.columnsGiven value }
    | "primaryKey" => do return { t with primaryKey := ← readTexts t.primaryKey value }
    | "indexes" => do
      return { t with
        indexes := ← readList "[]*sql.SnapshotIndex" readIndex ⟨"", [], false, false⟩ t.indexes
          value }
    | _ => do
      return { t with
        foreignKeys := ← readList "[]*sql.SnapshotForeignKey" readForeignKey ⟨"", "", "", ""⟩
          t.foreignKeys value }) old j

def read (old : Snapshot) (j : Json) : Reading Snapshot :=
  readRecord ⟨"sql", "Snapshot"⟩ ["profile", "tables"] (fun s name value =>
    match name with
    | "profile" => do return { s with profile := ← readText s.profile value }
    | _ => do
      return { s with
        tables := ← readList "[]*sql.SnapshotTable" readTable ⟨"", [], [], [], [], false⟩ s.tables
          value
        tablesGiven := givenAfter s.tablesGiven value }) old j

mutual

/-- Whether a list of records holds a `null`, which stands for no record at all. -/
def hasHole : Json → Bool
  | .obj members => membersHaveHole members
  | _ => false

def membersHaveHole : List (String × Json) → Bool
  | [] => false
  | (key, value) :: rest =>
    (if (nameOf? ["tables", "columns", "indexes", "foreignKeys"] (unescape key)).isSome then
        itemsHaveHole value
      else false) || membersHaveHole rest

def itemsHaveHole : Json → Bool
  | .arr items => listHasHole items
  | _ => false

def listHasHole : List Json → Bool
  | [] => false
  | .null :: _ => true
  | item :: rest => hasHole item || listHasHole rest

end

/-- The snapshot that a text holds.  A record that is missing from a list cannot be looked at. -/
def parse (text : String) : Outcome Snapshot :=
  match (Json.parse text).bind fun j => (read empty j).finish.map (j, ·) with
  | .error failure => .error (.context "sql: parse snapshot" failure)
  | .ok (j, s) => if hasHole j then .error (.panic none) else .ok s

/-- The stored snapshot at a path; a file that is not there counts as an empty snapshot. -/
def stored (tree : FileTree) (path : String) : Outcome Snapshot :=
  match tree.at? path with
  | .error .missing => .ok empty
  | _ =>
    match tree.read path with
    | .error failure => .error failure
    | .ok content => parse content.toText

end Snapshot

end SchemaCompiler
