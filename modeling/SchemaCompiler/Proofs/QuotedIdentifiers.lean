import Mathlib.Data.List.Basic
import SchemaCompiler.Proofs.CreatedTables
import SchemaCompiler.StandardModules

/-!
# Identifiers of the table script

The script that creates the tables of a schema is cut into pieces: the names of
tables, the names of columns, and what stands between them.  The name of a table
is quoted wherever it stands, if it is reserved.  The name of a column is written
as it is, wherever it stands; so identifiers are quoted throughout exactly if no
column that is written has a reserved name.
-/

namespace SchemaCompiler

open List Text

variable {α : Type}

theorem Naming.quoteReserved_eq_self_iff {name : String} :
    quoteReserved name = name ↔ name ∉ reserved := by
  rw [quoteReserved]
  split
  · rename_i hreserved
    refine iff_of_false (fun h => ?_) (fun h => h hreserved)
    have hlength := congrArg String.length h
    have hquote : "\"".length = 1 := rfl
    simp only [String.length_append] at hlength
    omega
  · rename_i hfree
    exact iff_of_true rfl hfree

/-- No reserved word starts with a quote. -/
theorem Naming.quoteReserved_notMem_reserved (name : String) : quoteReserved name ∉ reserved := by
  intro hmem
  by_cases hname : name ∈ reserved
  · rw [quoteReserved, if_pos hname] at hmem
    have hquote : ∀ word ∈ reserved, word.toList.head? ≠ some '"' := by decide
    apply hquote _ hmem
    rw [String.toList_append, String.toList_append]
    rfl
  · rw [quoteReserved, if_neg hname] at hmem
    exact hname hmem

namespace Ddl

theorem flatMap_mapIdx {β γ : Type} {f : Nat → α → β} {names : β → List γ} {own : α → List γ}
    (h : ∀ i a, names (f i a) = own a) (items : List α) :
    (items.mapIdx f).flatMap names = items.flatMap own := by
  have hparts : (items.mapIdx f).map names = items.map own := by
    apply ext_getElem
    · simp
    · intro i _ _
      simp [h]
  rw [flatMap_def, flatMap_def, hparts]

/-! ## Pieces -/

/-- A piece of a script: the name of a table or of a column that stands as an
identifier of its own, or any other text. -/
inductive Piece where
  | verbatim (text : String)
  | table (name : String)
  | column (name : String)

namespace Piece

/-- The piece as it is written. -/
def text : Piece → String
  | verbatim text => text
  | table name => Naming.quoteReserved name
  | column name => name

def table? : Piece → Option String
  | table name => some name
  | _ => none

def column? : Piece → Option String
  | column name => some name
  | _ => none

/-- The name that the piece writes. -/
def identifier? (p : Piece) : Option String := p.table? <|> p.column?

end Piece

variable {find : Piece → Option String}

def piecesText (pieces : List Piece) : String :=
  String.join (pieces.map (·.text))

theorem piecesText_append (first second : List Piece) :
    piecesText (first ++ second) = piecesText first ++ piecesText second := by
  rw [piecesText, map_append, String.join_append]
  rfl

theorem piecesText_cons (p : Piece) (rest : List Piece) :
    piecesText (p :: rest) = p.text ++ piecesText rest := by
  rw [piecesText, map_cons, String.join_cons]
  rfl

theorem piecesText_nil : piecesText [] = "" := rfl

theorem piecesText_flatMap {f : α → List Piece} {g : α → String} (h : ∀ a, piecesText (f a) = g a)
    (items : List α) : piecesText (items.flatMap f) = String.join (items.map g) := by
  induction items with
  | nil => rfl
  | cons a items ih =>
    rw [flatMap_cons, piecesText_append, h, ih, map_cons, String.join_cons]

/-- Columns with a separator between them. -/
def columnList (sep : String) (columns : List String) : List Piece :=
  (columns.map Piece.column).intersperse (.verbatim sep)

theorem piecesText_columnList (sep : String) (columns : List String) :
    piecesText (columnList sep columns) = joinWith sep columns := by
  induction columns with
  | nil => rfl
  | cons c columns ih =>
    cases columns with
    | nil => simp [columnList, piecesText, Piece.text, joinWith]
    | cons next columns =>
      rw [columnList, joinWith] at ih
      rw [columnList, map_cons, map_cons, intersperse_cons_cons,
        piecesText_cons, piecesText_cons, ← map_cons, ih, joinWith,
        String.intercalate_cons_cons, ← String.append_assoc]
      rfl

theorem filterMap_columnList (hverbatim : ∀ text, find (.verbatim text) = none) (sep : String)
    (columns : List String) :
    (columnList sep columns).filterMap find = columns.filterMap fun c => find (.column c) := by
  induction columns with
  | nil => rfl
  | cons c columns ih =>
    cases columns with
    | nil => rfl
    | cons next columns =>
      rw [filterMap_cons, ← ih, columnList, map_cons, map_cons, intersperse_cons_cons,
        filterMap_cons, filterMap_cons_none (hverbatim sep)]
      rfl

/-! ## Statements that complete a table -/

namespace Constraint

def pieces : Constraint → List Piece
  | foreignKey table name column target targetColumn =>
    [.verbatim "alter table ", .table table,
      .verbatim (" add constraint " ++ name ++ " foreign key ("), .column column,
      .verbatim ") references ", .table target, .verbatim "(", .column targetColumn,
      .verbatim ");"]
  | index table name columns =>
    [.verbatim ("create index " ++ name ++ " on "), .table table, .verbatim "("]
      ++ columnList ", " columns ++ [.verbatim ");"]
  | unique table name columns =>
    [.verbatim "alter table ", .table table,
      .verbatim (" add constraint " ++ name ++ " unique (")]
      ++ columnList ", " columns ++ [.verbatim ");"]

/-- The tables that a statement names. -/
def tables : Constraint → List String
  | foreignKey table _ _ target _ => [table, target]
  | index table _ _ | unique table _ _ => [table]

/-- The columns that a statement names. -/
def columns : Constraint → List String
  | foreignKey _ _ column _ targetColumn => [column, targetColumn]
  | index _ _ columns | unique _ _ columns => columns

theorem piecesText_pieces (c : Constraint) : piecesText c.pieces = c.text := by
  cases c with
  | foreignKey table name column target targetColumn =>
    change _ = "alter table " ++ Naming.quoteReserved table ++ " add constraint " ++ name
      ++ " foreign key (" ++ column ++ ") references " ++ Naming.quoteReserved target ++ "("
      ++ targetColumn ++ ");"
    simp only [pieces, piecesText_cons, piecesText_nil, Piece.text, String.append_assoc,
      String.append_empty]
  | index table name columns =>
    change _ = "create index " ++ name ++ " on " ++ Naming.quoteReserved table ++ "("
      ++ joinWith ", " columns ++ ");"
    simp only [pieces, piecesText_cons, piecesText_append, piecesText_nil,
      piecesText_columnList, Piece.text, String.append_assoc, String.append_empty]
  | unique table name columns =>
    change _ = "alter table " ++ Naming.quoteReserved table ++ " add constraint " ++ name
      ++ " unique (" ++ joinWith ", " columns ++ ");"
    simp only [pieces, piecesText_cons, piecesText_append, piecesText_nil,
      piecesText_columnList, Piece.text, String.append_assoc, String.append_empty]

theorem filterMap_table?_pieces (c : Constraint) : c.pieces.filterMap Piece.table? = c.tables := by
  cases c with
  | foreignKey => rfl
  | index | unique =>
    rw [pieces, filterMap_append, filterMap_append, filterMap_columnList fun _ => rfl]
    simp [filterMap_cons, Piece.table?, tables]

theorem filterMap_column?_pieces (c : Constraint) :
    c.pieces.filterMap Piece.column? = c.columns := by
  cases c with
  | foreignKey => rfl
  | index | unique =>
    rw [pieces, filterMap_append, filterMap_append, filterMap_columnList fun _ => rfl]
    simp [filterMap_cons, Piece.column?, columns]

end Constraint

/-! ## Table definitions -/

/-- What follows the name of a column on its line. -/
def columnRest (c : Column) (divider : String) : String :=
  let rest := " " ++ c.type ++ (if c.nullable then "" else " not null") ++ divider
  rest ++ (if c.comment = "" then ""
    else spaces (commentColumn - (c.name ++ rest).length) ++ " -- " ++ c.comment) ++ "\n"

theorem text_columnLine (c : Column) (divider : String) :
    (columnLine c).text divider = "  " ++ c.name ++ columnRest c divider := by
  have hcode : (columnLine c).code ++ divider =
      c.name ++ (" " ++ c.type ++ (if c.nullable then "" else " not null") ++ divider) := by
    simp only [columnLine, String.append_assoc]
  have hline : (columnLine c).text divider =
      "  " ++ (if c.comment = "" then (columnLine c).code ++ divider
        else padRight commentColumn ((columnLine c).code ++ divider) ++ " -- " ++ c.comment)
        ++ "\n" := rfl
  rw [hline, hcode, columnRest]
  split
  · simp only [String.append_assoc, String.empty_append]
  · simp only [padRight, spaces, String.append_assoc]

def columnPieces (c : Column) (divider : String) : List Piece :=
  [.verbatim "  ", .column c.name, .verbatim (columnRest c divider)]

theorem piecesText_columnPieces (c : Column) (divider : String) :
    piecesText (columnPieces c divider) = (columnLine c).text divider := by
  rw [text_columnLine, columnPieces, piecesText_cons, piecesText_cons, piecesText_cons,
    piecesText_nil, String.append_empty, String.append_assoc]
  rfl

/-- The line of the primary key, which is the last one. -/
def keyPieces (columns : List String) : List Piece :=
  if columns.isEmpty then []
  else [.verbatim "  ", .verbatim "primary key("] ++ columnList "," columns
    ++ [.verbatim ")", .verbatim "\n"]

/-- A comma divides a line of a table definition from the next. -/
def dividerAt (t : Table) (i : Nat) : String :=
  if i + 1 < (tableLines t).length then "," else ""

def definitionPieces (t : Table) : List Piece :=
  (t.columns.mapIdx fun i c => columnPieces c (dividerAt t i)).flatten ++ keyPieces t.primaryKey

theorem piecesText_flatten (parts : List (List Piece)) :
    piecesText parts.flatten = String.join (parts.map piecesText) := by
  rw [← flatMap_id, piecesText_flatMap fun _ => rfl]
  rfl

theorem piecesText_keyPieces (t : Table) :
    piecesText (keyPieces t.primaryKey) = String.join
      ((if t.primaryKey.isEmpty then []
        else [(⟨"primary key(" ++ joinWith "," t.primaryKey ++ ")", ""⟩ : Line)]).mapIdx
        fun i l => l.text (dividerAt t (i + t.columns.length))) := by
  rw [keyPieces]
  split
  · rfl
  · rename_i hkey
    -- the key is the last line, so no comma follows it
    have hlast : dividerAt t (0 + t.columns.length) = "" := by
      simp [dividerAt, tableLines, hkey]
    have hline : Line.text ⟨"primary key(" ++ joinWith "," t.primaryKey ++ ")", ""⟩ "" =
        "  " ++ ("primary key(" ++ joinWith "," t.primaryKey ++ ")" ++ "") ++ "\n" := rfl
    rw [mapIdx_singleton, hlast, hline]
    simp only [piecesText_append, piecesText_cons, piecesText_nil, piecesText_columnList,
      Piece.text, String.append_assoc, String.append_empty, String.join_cons, String.join_nil]

theorem piecesText_definitionPieces (t : Table) :
    piecesText (definitionPieces t) = linesText (tableLines t) := by
  have hcolumns : (t.columns.mapIdx fun i c => columnPieces c (dividerAt t i)).map piecesText =
      (t.columns.map columnLine).mapIdx fun i l => l.text (dividerAt t i) := by
    apply ext_getElem
    · simp
    · intro i _ _
      simp [piecesText_columnPieces]
  rw [linesText_eq, definitionPieces, piecesText_append, piecesText_flatten, hcolumns,
    piecesText_keyPieces, ← String.join_append]
  change _ = String.join ((tableLines t).mapIdx fun i l => l.text (dividerAt t i))
  rw [tableLines, mapIdx_append, length_map]

def tablePieces (t : Table) : List Piece :=
  [.verbatim "\ncreate table ", .table t.name, .verbatim "(\n"] ++ definitionPieces t
    ++ [.verbatim ");\n"]

theorem piecesText_tablePieces (t : Table) : piecesText (tablePieces t) = tableText t := by
  change _ = "\ncreate table " ++ Naming.quoteReserved t.name ++ "(\n"
    ++ linesText (tableLines t) ++ ");\n"
  simp only [tablePieces, piecesText_append, piecesText_cons, piecesText_nil,
    piecesText_definitionPieces, Piece.text, String.append_assoc, String.append_empty]

theorem filterMap_tablePieces (hverbatim : ∀ text, find (.verbatim text) = none) (t : Table) :
    (tablePieces t).filterMap find = (find (.table t.name)).toList ++
      (t.columns.map (·.name) ++ t.primaryKey).filterMap fun c => find (.column c) := by
  have hkey : (keyPieces t.primaryKey).filterMap find =
      t.primaryKey.filterMap fun c => find (.column c) := by
    rw [keyPieces]
    split
    · rename_i hempty
      rw [isEmpty_iff.mp hempty]
      rfl
    · simp [filterMap_columnList hverbatim, hverbatim]
  have hcolumn (i : Nat) (c : Column) :
      (columnPieces c (dividerAt t i)).filterMap find = (find (.column c.name)).toList := by
    cases hfind : find (.column c.name) <;> simp [columnPieces, hverbatim, hfind]
  rw [tablePieces, filterMap_append, filterMap_append, definitionPieces, filterMap_append, hkey,
    filterMap_flatten, ← flatMap_def, flatMap_mapIdx hcolumn, filterMap_append, filterMap_map,
    filterMap_eq_flatMap_toList _ t.columns]
  cases hfind : find (.table t.name) <;> simp [hverbatim, hfind]

/-! ## The script -/

/-- Statements one a line after an empty line; nothing when there are none. -/
def blockPieces (statements : List Constraint) : List Piece :=
  if statements.isEmpty then []
  else .verbatim "\n" :: statements.flatMap fun c => c.pieces ++ [.verbatim "\n"]

def scriptPieces (s : Schema) (extensions : List String) : List Piece :=
  .verbatim (headerText s extensions) :: s.tables.flatMap tablePieces
    ++ blockPieces (s.tables.flatMap constraints)
    ++ [.verbatim (blockText (s.tables.flatMap (·.extraSql)))]

theorem piecesText_blockPieces (statements : List Constraint) :
    piecesText (blockPieces statements) = blockText (statements.map (·.text)) := by
  have hline (c : Constraint) : piecesText (c.pieces ++ [.verbatim "\n"]) = c.text ++ "\n" := by
    rw [piecesText_append, c.piecesText_pieces, piecesText_cons, piecesText_nil,
      String.append_empty]
    rfl
  rw [blockPieces, blockText, isEmpty_map]
  split
  · rfl
  · rw [piecesText_cons, piecesText_flatMap hline, map_map]
    rfl

theorem createScript_eq_pieces (s : Schema) (extensions : List String) :
    createScript s extensions = piecesText (scriptPieces s extensions) := by
  rw [scriptPieces, cons_append, cons_append, piecesText_cons, piecesText_append,
    piecesText_append, piecesText_flatMap piecesText_tablePieces, piecesText_blockPieces,
    piecesText_cons, piecesText_nil, String.append_empty]
  simp only [← String.append_assoc]
  rfl

end Ddl

/-! ## Where names stand -/

namespace Table

/-- The tables that the statements behind a table definition name. -/
def completionTables (t : Table) : List String :=
  (t.columns.flatMap fun c => c.foreignKey.toList.flatMap fun key => [t.name, key.table])
    ++ replicate t.indexes.length t.name ++ replicate t.unique.length t.name

/-- The columns that the statements behind a table definition name. -/
def completionColumns (t : Table) : List String :=
  (t.columns.flatMap fun c => c.foreignKey.toList.flatMap fun key => [c.name, key.column])
    ++ t.indexes.flatten ++ t.unique.flatten

theorem flatMap_foreignKeys (t : Table) (names : Ddl.Constraint → List String) :
    (Ddl.foreignKeys t).flatMap names = t.columns.flatMap fun c => c.foreignKey.toList.flatMap
      fun key => names (.foreignKey t.name (Ddl.foreignKeyName t.name c.name) c.name key.table
        key.column) := by
  rw [Ddl.foreignKeys]
  induction t.columns with
  | nil => rfl
  | cons c columns ih =>
    rw [flatMap_cons, ← ih]
    cases hkey : c.foreignKey with
    | none | some key => simp [hkey]

/-- The names in the statements behind a table definition, if those for indexes and
uniqueness constraints depend on the columns only. -/
theorem flatMap_constraints (t : Table) (names : Ddl.Constraint → List String)
    {listed : List String → List String}
    (hindex : ∀ name columns, names (.index t.name name columns) = listed columns)
    (hunique : ∀ name columns, names (.unique t.name name columns) = listed columns) :
    (Ddl.constraints t).flatMap names = (Ddl.foreignKeys t).flatMap names ++
      t.indexes.flatMap listed ++ t.unique.flatMap listed := by
  rw [Ddl.constraints, flatMap_append, flatMap_append, Ddl.indexes, Ddl.uniques,
    Ddl.flatMap_mapIdx fun _ => hindex _, Ddl.flatMap_mapIdx fun _ => hunique _]

theorem flatMap_tables_constraints (t : Table) :
    (Ddl.constraints t).flatMap (·.tables) = t.completionTables := by
  have hplaces (columns : List (List String)) :
      (columns.flatMap fun _ => [t.name]) = replicate columns.length t.name := by
    rw [← map_eq_flatMap, map_const']
  rw [flatMap_constraints t _ (fun _ _ => rfl) fun _ _ => rfl, flatMap_foreignKeys, hplaces,
    hplaces]
  rfl

theorem flatMap_columns_constraints (t : Table) :
    (Ddl.constraints t).flatMap (·.columns) = t.completionColumns := by
  rw [flatMap_constraints t _ (fun _ _ => rfl) fun _ _ => rfl, flatMap_foreignKeys]
  simp [completionColumns, Ddl.Constraint.columns]

end Table

/-- The tables that are named in the script, in order: first in their definitions. -/
def Schema.writtenTables (s : Schema) : List String :=
  s.tables.map (·.name) ++ s.tables.flatMap Table.completionTables

/-- The columns that are named in the script, in order: definitions and primary keys,
then foreign keys with the columns they refer to, indexes and uniqueness
constraints. -/
def Schema.writtenColumns (s : Schema) : List String :=
  (s.tables.flatMap fun t => t.columns.map (·.name) ++ t.primaryKey)
    ++ s.tables.flatMap Table.completionColumns

namespace Ddl

open Naming

variable {names : Constraint → List String}

theorem filterMap_blockPieces (hverbatim : ∀ text, find (.verbatim text) = none)
    (hpieces : ∀ c : Constraint, c.pieces.filterMap find = names c) (statements : List Constraint) :
    (blockPieces statements).filterMap find = statements.flatMap names := by
  have hline (c : Constraint) :
      (c.pieces ++ [Piece.verbatim "\n"]).filterMap find = names c := by
    rw [filterMap_append, hpieces, filterMap_cons_none (hverbatim _)]
    exact append_nil (names c)
  rw [blockPieces]
  split
  · rename_i hempty
    rw [isEmpty_iff.mp hempty]
    rfl
  · rw [filterMap_cons_none (hverbatim _), filterMap_flatMap]
    simp only [hline]

/-- The names of a kind that the script writes, from those of its parts. -/
theorem filterMap_scriptPieces {inTable completing : Table → List String}
    (hverbatim : ∀ text, find (.verbatim text) = none)
    (htable : ∀ t, (tablePieces t).filterMap find = inTable t)
    (hpieces : ∀ c : Constraint, c.pieces.filterMap find = names c)
    (hcompleting : ∀ t, (constraints t).flatMap names = completing t) (s : Schema)
    (extensions : List String) :
    (scriptPieces s extensions).filterMap find =
      s.tables.flatMap inTable ++ s.tables.flatMap completing := by
  rw [scriptPieces, filterMap_append, filterMap_append,
    filterMap_cons_none (hverbatim _), filterMap_cons_none (hverbatim _),
    filterMap_nil, append_nil, filterMap_blockPieces hverbatim hpieces,
    filterMap_flatMap, flatMap_assoc]
  simp only [htable, hcompleting]

theorem filterMap_table?_scriptPieces (s : Schema) (extensions : List String) :
    (scriptPieces s extensions).filterMap Piece.table? = s.writtenTables := by
  have htable (t : Table) : (tablePieces t).filterMap Piece.table? = [t.name] := by
    rw [filterMap_tablePieces fun _ => rfl]
    simp [Piece.table?]
  rw [filterMap_scriptPieces (fun _ => rfl) htable Constraint.filterMap_table?_pieces
    Table.flatMap_tables_constraints, ← map_eq_flatMap]
  rfl

theorem filterMap_column?_scriptPieces (s : Schema) (extensions : List String) :
    (scriptPieces s extensions).filterMap Piece.column? = s.writtenColumns := by
  have htable (t : Table) : (tablePieces t).filterMap Piece.column? =
      t.columns.map (·.name) ++ t.primaryKey := by
    rw [filterMap_tablePieces fun _ => rfl]
    simp [Piece.column?]
  rw [filterMap_scriptPieces (fun _ => rfl) htable Constraint.filterMap_column?_pieces
    Table.flatMap_columns_constraints]
  rfl

namespace Piece

variable {p : Piece} {name : String}

theorem text_of_table? (h : p.table? = some name) : p.text = quoteReserved name := by
  cases p with
  | verbatim text => cases h
  | table _ => rw [← Option.some.inj h]; rfl
  | column _ => cases h

theorem text_of_column? (h : p.column? = some name) : p.text = name := by
  cases p with
  | verbatim text | table _ => cases h
  | column _ => exact Option.some.inj h

theorem identifier?_eq_some :
    p.identifier? = some name ↔ p.table? = some name ∨ p.column? = some name := by
  cases p with
  | verbatim text | table _ | column _ => simp [identifier?, table?, column?]

end Piece

/-- What is asked of all identifiers is asked of the columns only, if tables have
it. -/
theorem forall_identifier_iff {pieces : List Piece} {P : Piece → String → Prop}
    {Q : String → Prop} (htable : ∀ p name, p.table? = some name → P p name)
    (hcolumn : ∀ p name, p.column? = some name → (P p name ↔ Q name)) :
    (∀ p ∈ pieces, ∀ name, p.identifier? = some name → P p name) ↔
      ∀ name ∈ pieces.filterMap Piece.column?, Q name := by
  constructor
  · intro h name hname
    obtain ⟨p, hp, hcol⟩ := mem_filterMap.mp hname
    exact (hcolumn p name hcol).mp (h p hp name (Piece.identifier?_eq_some.mpr (.inr hcol)))
  · intro h p hp name hname
    rcases Piece.identifier?_eq_some.mp hname with htab | hcol
    · exact htable p name htab
    · exact (hcolumn p name hcol).mpr (h name (mem_filterMap.mpr ⟨p, hp, hcol⟩))

/-- The script consists of its pieces, which write the tables and columns of the
schema in order.  A table is quoted everywhere if its name is reserved.  All
identifiers are, and none of them is a bare reserved word, exactly if no column
that is written has a reserved name. -/
theorem identifiers_quoted_iff (s : Schema) (extensions : List String) :
    createScript s extensions = String.join ((scriptPieces s extensions).map (·.text)) ∧
    (scriptPieces s extensions).filterMap Piece.table? = s.writtenTables ∧
    (scriptPieces s extensions).filterMap Piece.column? = s.writtenColumns ∧
    (∀ p ∈ scriptPieces s extensions, ∀ name, p.table? = some name →
      p.text = quoteReserved name ∧ p.text ∉ reserved) ∧
    ((∀ p ∈ scriptPieces s extensions, ∀ name, p.identifier? = some name →
      p.text = quoteReserved name) ↔ ∀ name ∈ s.writtenColumns, name ∉ reserved) ∧
    ((∀ p ∈ scriptPieces s extensions, ∀ name, p.identifier? = some name →
      p.text ∉ reserved) ↔ ∀ name ∈ s.writtenColumns, name ∉ reserved) := by
  have hbare {p : Piece} {name : String} (h : p.table? = some name) : p.text ∉ reserved := by
    rw [Piece.text_of_table? h]
    exact quoteReserved_notMem_reserved name
  refine ⟨createScript_eq_pieces s extensions, filterMap_table?_scriptPieces s extensions,
    filterMap_column?_scriptPieces s extensions,
    fun p _ name h => ⟨Piece.text_of_table? h, hbare h⟩, ?_, ?_⟩
  · rw [← filterMap_column?_scriptPieces s extensions]
    apply forall_identifier_iff
    · exact fun p name => Piece.text_of_table?
    · intro p name h
      rw [Piece.text_of_column? h, eq_comm, quoteReserved_eq_self_iff]
  · rw [← filterMap_column?_scriptPieces s extensions]
    apply forall_identifier_iff
    · exact fun p name => hbare
    · intro p name h
      rw [Piece.text_of_column? h]

/-- The number of an order, and the order that it follows. -/
def orderFields : List ConcreteField :=
  ["id", "order"].map fun name =>
    ⟨Standard.field name Standard.text, .one, true, false, none, [], ⟨"app", "Order"⟩⟩

def orders : Schema where
  profile := .postgresql2
  modules := ["app"]
  tables := [{
    decl := ⟨⟨"app", "Order"⟩, ⟨"app", ⟨"Order", none, .struct [] (orderFields.map (·.field)), []⟩⟩,
      .struct, ⟨"app", "Order"⟩, orderFields, [], false, false, false, .missing, []⟩
    name := Naming.tableName "OrderTable"
    columns := orderFields.map fun f => { Column.ofField f with type := "text" }
    primaryKey := ["id"]
    indexes := [["order", "id"]]
    unique := []
    extraSql := []
    annotation := [] }]
  views := []

/-- The table is quoted, and the column of the same name is not. -/
theorem identifiers_quoted_iff_orders :
    orders.writtenTables = ["order", "order"] ∧
      orders.writtenColumns = ["id", "order", "id", "order", "id"] ∧
      (∀ p ∈ scriptPieces orders [], ∀ name, p.table? = some name → p.text = "\"order\"") ∧
      ¬∀ p ∈ scriptPieces orders [], ∀ name, p.identifier? = some name → p.text ∉ reserved := by
  have htables : orders.writtenTables = ["order", "order"] := by decide +kernel
  have hcolumns : orders.writtenColumns = ["id", "order", "id", "order", "id"] := by
    decide +kernel
  obtain ⟨-, hpieces, -, hquoted, -, hbare⟩ := identifiers_quoted_iff orders []
  refine ⟨htables, hcolumns, ?_, ?_⟩
  · intro p hp name hname
    have hmem : name ∈ orders.writtenTables :=
      hpieces ▸ mem_filterMap.mpr ⟨p, hp, hname⟩
    obtain rfl : name = "order" := by simpa [htables] using hmem
    exact (hquoted p hp _ hname).1
  · intro h
    exact hbare.mp h "order" (by simp [hcolumns]) (by decide)

end Ddl

end SchemaCompiler
