import SchemaCompiler.Migration.Snapshot

/-!
# Created tables

The script that creates the tables of a schema and the snapshot of the schema
describe the same tables.  Here the lines of the script are spelled from the
snapshot alone, but for the comments, the extensions and what tables add of
their own.  The script has exactly these lines.
-/

namespace SchemaCompiler

open List SnapshotTable Snapshot Ddl Naming

/-! ## Lines and statements of a snapshot -/

/-- Lines as a text, each with its end. -/
def textOfLines (lines : List String) : String :=
  String.join (lines.map (· ++ "\n"))

/-- Lines behind an empty one, if there are any. -/
def setApart : List String → List String
  | [] => []
  | lines => "" :: lines

/-- A line of a table definition, with a comment from column 36 on. -/
def definitionLine (code comment : String) : String :=
  if comment = "" then "  " ++ code
  else "  " ++ code ++ String.ofList (replicate (36 - code.length) ' ') ++ " -- " ++ comment

/-- What a table definition says of a column. -/
def SnapshotColumn.definition (c : SnapshotColumn) : String :=
  c.name ++ " " ++ c.type ++ if c.nullable then "" else " not null"

def SnapshotForeignKey.statement (table : String) (k : SnapshotForeignKey) : String :=
  "alter table " ++ quoteReserved table ++ " add constraint " ++ k.name
    ++ " foreign key (" ++ k.column ++ ") references " ++ quoteReserved k.refTable
    ++ "(" ++ k.refColumn ++ ");"

/-- The statement that creates an index of a table, or adds a uniqueness
constraint to it. -/
def SnapshotIndex.statement (table : String) (i : SnapshotIndex) : String :=
  if i.unique then
    "alter table " ++ quoteReserved table ++ " add constraint " ++ i.name ++ " unique ("
      ++ Text.joinWith ", " i.columns ++ ");"
  else
    "create index " ++ i.name ++ " on " ++ quoteReserved table ++ "("
      ++ Text.joinWith ", " i.columns ++ ");"

namespace SnapshotTable

/-- The line of the primary key, if there is one. -/
def keyDefinition (t : SnapshotTable) : List String :=
  if t.primaryKey.isEmpty then [] else ["primary key(" ++ Text.joinWith "," t.primaryKey ++ ")"]

def definitions (t : SnapshotTable) : List String :=
  t.columns.map (·.definition) ++ t.keyDefinition

/-- The lines that create a table.  A comma divides a definition from the next; the
comments stand behind the definitions in their order. -/
def creation (t : SnapshotTable) (comments : List String) : List String :=
  ["", "create table " ++ quoteReserved t.name ++ "("]
    ++ (t.definitions.mapIdx fun i definition =>
      definitionLine (definition ++ if i + 1 < t.definitions.length then "," else "")
        (comments.getD i ""))
    ++ [");"]

/-- The statements that complete a table. -/
def completion (t : SnapshotTable) : List String :=
  t.foreignKeys.map (·.statement t.name)
    ++ (t.indexes.filter (!·.unique)).map (·.statement t.name)
    ++ (t.indexes.filter (·.unique)).map (·.statement t.name)

end SnapshotTable

/-! ## Lines of a table -/

theorem map_mapIdx {α β γ : Type} (f : Nat → α → β) (g : β → γ) (items : List α) :
    (items.mapIdx f).map g = items.mapIdx fun i a => g (f i a) := by
  apply ext_getElem?
  simp [Function.comp_def]

theorem textOfLines_append (lines more : List String) :
    textOfLines (lines ++ more) = textOfLines lines ++ textOfLines more := by
  rw [textOfLines, map_append, String.join_append]
  rfl

theorem textOfLines_flatten (parts : List (List String)) :
    textOfLines parts.flatten = String.join (parts.map textOfLines) := by
  induction parts with
  | nil => rfl
  | cons part parts ih =>
    rw [flatten_cons, textOfLines_append, ih, map_cons, String.join_cons]

namespace Ddl

theorem blockText_eq (statements : List String) :
    blockText statements = textOfLines (setApart statements) := by
  cases statements with
  | nil => rfl
  | cons first rest => simp [blockText, textOfLines, setApart, String.join_cons]

theorem headerText_eq (s : Schema) (extensions : List String) :
    headerText s extensions = textOfLines
      (["-- Schema auto-generated from adl modules: " ++ ", ".intercalate s.modules, "--",
          "-- column comments show original ADL types"]
        ++ setApart (extensions.map fun e => "create extension " ++ e ++ ";")) := by
  have hrule : "--\n" = "--" ++ "\n" := by simp
  have htypes : "-- column comments show original ADL types\n" =
      "-- column comments show original ADL types" ++ "\n" := by simp
  unfold headerText
  simp only [hrule, htypes, blockText_eq, textOfLines_append]
  simp only [textOfLines, map_cons, map_nil, String.join_cons, String.join_nil, String.append_assoc,
    String.append_empty, Text.joinWith]

theorem lineText_eq (l : Line) (divider : String) :
    l.text divider = definitionLine (l.code ++ divider) l.comment ++ "\n" := by
  unfold Line.text definitionLine
  split
  · rfl
  · simp [Text.padRight, commentColumn, String.append_assoc]

theorem linesText_eq (lines : List Line) :
    linesText lines = String.join (lines.mapIdx fun i l =>
      l.text (if i + 1 < lines.length then "," else "")) := by
  induction lines with
  | nil => rfl
  | cons l rest ih =>
    cases rest with
    | nil => simp [linesText]
    | cons next rest =>
      calc linesText (l :: next :: rest)
          = l.text "," ++ linesText (next :: rest) := rfl
        _ = _ := by
          rw [ih, mapIdx_cons, String.join_cons]
          simp

/-- The lines of a table are the definitions of its snapshot with the comments of
its columns. -/
theorem tableLines_eq (t : Table) :
    tableLines t = (ofTable t).definitions.mapIdx fun i definition =>
      ⟨definition, (t.columns.map (·.comment)).getD i ""⟩ := by
  have hkey : (if t.primaryKey.isEmpty then []
      else [⟨"primary key(" ++ Text.joinWith "," t.primaryKey ++ ")", ""⟩]) =
      (ofTable t).keyDefinition.map fun definition => Line.mk definition "" := by
    rw [SnapshotTable.keyDefinition, apply_ite (map _)]
    rfl
  have hcolumns : t.columns.map columnLine =
      ((ofTable t).columns.map (·.definition)).mapIdx fun i definition =>
        ⟨definition, (t.columns.map (·.comment)).getD i ""⟩ := by
    apply ext_getElem?
    intro i
    simp only [ofTable, getElem?_map, getElem?_mapIdx,
      getD_eq_getElem?_getD]
    cases t.columns[i]? with
    | none | some c => rfl
  rw [tableLines, SnapshotTable.definitions, mapIdx_append, hcolumns, hkey]
  congr 1
  apply ext_getElem?
  intro i
  simp [ofTable]

theorem tableText_eq (t : Table) :
    tableText t = textOfLines ((ofTable t).creation (t.columns.map (·.comment))) := by
  have hlines : linesText (tableLines t) =
      textOfLines ((ofTable t).definitions.mapIdx fun i definition =>
        definitionLine (definition ++ if i + 1 < (ofTable t).definitions.length then "," else "")
          ((t.columns.map (·.comment)).getD i "")) := by
    rw [linesText_eq, tableLines_eq, mapIdx_mapIdx, length_mapIdx, textOfLines, map_mapIdx]
    simp only [lineText_eq]
    rfl
  have hstart : "\ncreate table " = "\n" ++ "create table " := by simp
  have hend : ");\n" = ");" ++ "\n" := by simp
  have hopen : "(\n" = "(" ++ "\n" := by simp
  unfold tableText creation
  simp only [textOfLines_append, hlines, hstart, hend, hopen]
  simp only [textOfLines, map_cons, map_nil, String.join_cons, String.join_nil, String.append_assoc,
    String.append_empty, String.empty_append]
  rfl

/-! ## Statements of a table -/

theorem text_foreignKeys (t : Table) :
    (foreignKeys t).map (·.text) =
      (ofTable t).foreignKeys.map (·.statement t.name) := by
  rw [foreignKeys, ofTable, map_filterMap, map_filterMap]
  congr 1
  funext c
  rw [Option.map_map, Option.map_map]
  rfl

theorem filter_unique (plain unique : List SnapshotIndex) (hplain : ∀ i ∈ plain, i.unique = false)
    (hunique : ∀ i ∈ unique, i.unique = true) :
    (plain ++ unique).filter (!·.unique) = plain ∧
      (plain ++ unique).filter (·.unique) = unique := by
  rw [filter_append, filter_append, filter_eq_self.mpr, filter_eq_nil_iff.mpr,
    filter_eq_nil_iff.mpr, filter_eq_self.mpr hunique, append_nil, nil_append]
  · exact ⟨rfl, rfl⟩
  · simpa using hplain
  · simpa using hunique
  · simpa using hplain

/-- The indexes of a snapshot are the indexes of the table, and behind them its
uniqueness constraints. -/
theorem text_constraints (t : Table) :
    (constraints t).map (·.text) = (ofTable t).completion := by
  rw [SnapshotTable.completion, constraints, map_append, map_append, text_foreignKeys]
  obtain ⟨hplain, hunique⟩ := filter_unique
    (t.indexes.mapIdx fun i columns =>
      ⟨t.name ++ "_" ++ toString (i + 1) ++ "_idx", columns, false, true⟩)
    (t.unique.mapIdx fun i columns =>
      ⟨t.name ++ "_" ++ toString (i + 1) ++ "_con", columns, true, true⟩)
    (fun i hi => by
      obtain ⟨_, _, rfl⟩ := mem_mapIdx.mp hi
      rfl)
    (fun i hi => by
      obtain ⟨_, _, rfl⟩ := mem_mapIdx.mp hi
      rfl)
  rw [ofTable, hplain, hunique, indexes, uniques, map_mapIdx, map_mapIdx, map_mapIdx, map_mapIdx]
  rfl

end Ddl

/-- The script that creates the tables of a schema creates and completes those of
its snapshot, table by table.  Its lines are a heading and the extensions, the
lines of each table, the statements that complete the tables, and what the tables
add. -/
theorem createScript_eq_snapshot (s : Schema) (extensions : List String) :
    createScript s extensions = textOfLines
      (["-- Schema auto-generated from adl modules: " ++ ", ".intercalate s.modules, "--",
          "-- column comments show original ADL types"]
        ++ setApart (extensions.map fun e => "create extension " ++ e ++ ";")
        ++ ((ofSchema s).tables.mapIdx fun i t =>
          t.creation ((s.tables.map fun t => t.columns.map (·.comment)).getD i [])).flatten
        ++ setApart ((ofSchema s).tables.flatMap (·.completion))
        ++ setApart (s.tables.flatMap (·.extraSql))) := by
  have htables : s.tables.map tableText =
      ((ofSchema s).tables.mapIdx fun i t =>
        t.creation ((s.tables.map fun t => t.columns.map (·.comment)).getD i [])).map
          textOfLines := by
    rw [map_mapIdx]
    apply ext_getElem?
    intro i
    simp only [ofSchema, getElem?_map, getElem?_mapIdx,
      getD_eq_getElem?_getD]
    cases s.tables[i]? with
    | none => rfl
    | some t => exact congrArg some (tableText_eq t)
  have hconstraints : (s.tables.flatMap constraints).map (·.text) =
      (ofSchema s).tables.flatMap (·.completion) := by
    rw [ofSchema, map_flatMap, flatMap_map]
    simp only [text_constraints]
  unfold createScript
  simp only [headerText_eq, htables, ← textOfLines_flatten, hconstraints, blockText_eq,
    textOfLines_append]

namespace Schema

/-- A text column, which may hold the key of a tag. -/
def tagColumn (name : String) (key : Option ForeignKey) : Column where
  field := ⟨⟨name, name, .prim "String", none, []⟩, .one, true, false, none, [], ⟨"app", "Sale"⟩⟩
  name := name
  type := "text"
  nullable := false
  primaryKey := false
  foreignKey := key
  comment := "String"

def tagTable (decl name : String) (columns : List Column) : Table where
  decl := ⟨⟨"app", decl⟩, ⟨"app", ⟨decl, none, .struct [] [], []⟩⟩, .struct, ⟨"app", decl⟩, [], [],
    false, false, false, .missing, []⟩
  name := name
  columns := columns
  primaryKey := []
  indexes := [["id"]]
  unique := [["id"]]
  extraSql := []
  annotation := []

/-- Orders with a key of their own and a buyer, and their users. -/
def ordered : Schema where
  profile := .postgresql2
  modules := ["app", "shop"]
  tables := [
    { tagTable "Order" "order" [tagColumn "id" none,
        { tagColumn "buyer" (some ⟨"user", "id", ⟨"app", "User"⟩⟩) with
          nullable := true, comment := "" }] with
      primaryKey := ["id", "buyer"], extraSql := ["analyze;"] },
    tagTable "User" "person" [tagColumn "id" none]]
  views := []

/-- The script for orders and their users, in full. -/
theorem createScript_eq_snapshot_ordered :
    createScript ordered ["citext"] =
      "-- Schema auto-generated from adl modules: app, shop\n" ++
      "--\n" ++
      "-- column comments show original ADL types\n" ++
      "\n" ++
      "create extension citext;\n" ++
      "\n" ++
      "create table \"order\"(\n" ++
      "  id text not null,                    -- String\n" ++
      "  buyer text,\n" ++
      "  primary key(id,buyer)\n" ++
      ");\n" ++
      "\n" ++
      "create table person(\n" ++
      "  id text not null                     -- String\n" ++
      ");\n" ++
      "\n" ++
      "alter table \"order\" add constraint order_buyer_fk foreign key (buyer) " ++
      "references \"user\"(id);\n" ++
      "create index order_1_idx on \"order\"(id);\n" ++
      "alter table \"order\" add constraint order_1_con unique (id);\n" ++
      "create index person_1_idx on person(id);\n" ++
      "alter table person add constraint person_1_con unique (id);\n" ++
      "\n" ++
      "analyze;\n" :=
  (createScript_eq_snapshot ordered ["citext"]).trans (by decide +kernel)

end Schema

end SchemaCompiler
