import SchemaCompiler.Output.PrismaBlocks
import SchemaCompiler.Output.Target
import SchemaCompiler.Relational.Schema

/-!
# Prisma schemas

One model a table.  A column with a foreign key has a relation field beside it, and the model that
it refers to has a field back.
-/

namespace SchemaCompiler

inductive ModelLine where
  | column (name type : String) (nullable : Bool) (comment : Option String)
  | relation (source target targetColumn : String)
  | key (columns : List String)
  | index (columns : List String)
  | unique (columns : List String)
  | back (model : String)
  deriving DecidableEq, Repr

/-- The name of the field that a line declares. -/
def ModelLine.field? : ModelLine → Option String
  | column name _ _ _ => some name
  | relation source target _ => some (source ++ "_" ++ target)
  | back model => some model
  | _ => none

def ModelLine.text : ModelLine → String
  | column name type nullable comment =>
    name ++ " " ++ type ++ (if nullable then "?" else "")
      ++ (match comment with
        | some comment => " /// " ++ comment
        | none => "")
  | relation source target targetColumn =>
    source ++ "_" ++ target ++ " " ++ target ++ " @relation(fields: [" ++ source
      ++ "], references: [" ++ targetColumn ++ "])"
  | key columns => "@@id([" ++ Text.joinWith "," columns ++ "])"
  | index columns => "@@index([" ++ Text.joinWith ", " columns ++ "])"
  | unique columns => "@@unique([" ++ Text.joinWith ", " columns ++ "])"
  | back model => model ++ " " ++ model ++ "[]"

structure Model where
  name : String
  lines : List ModelLine
  deriving Repr

namespace Model

def commentKey : ScopedName := ⟨"common.prisma", "FieldComment"⟩

/-- The lines of a column: itself, and its relation if it has one. -/
def columnLines (c : Column) : List ModelLine :=
  .column c.name c.type c.nullable (c.field.field.annotations.text? commentKey)
    :: match c.foreignKey with
      | some k => [.relation c.name (Naming.quoteReserved k.table) k.column]
      | none => []

/-- The models that refer to a table, once for each column that does. -/
def backLines (s : Schema) (table : String) : List ModelLine :=
  s.tables.flatMap fun t =>
    (t.columns.filter fun c => c.foreignKey.any (·.table = table)).map
      fun _ => .back (Naming.quoteReserved t.name)

def ofTable (s : Schema) (t : Table) : Model where
  name := Naming.quoteReserved t.name
  lines := t.columns.flatMap columnLines
    ++ (if t.primaryKey.isEmpty then [] else [.key t.primaryKey])
    ++ t.indexes.map .index ++ t.unique.map .unique ++ backLines s t.name

def text (m : Model) : String :=
  "\nmodel " ++ m.name ++ " \x7b\n" ++ String.join (m.lines.map fun l => "  " ++ l.text ++ "\n")
    ++ "\x7d\n"

end Model

namespace PrismaSchema

structure Options where
  file : String
  extensions : List String

def standard : Options := ⟨"schema.prisma", []⟩

def withFile (o : Options) (file : String) : Outcome Options :=
  if file = "" then .error (.config "File" (some "") "file name cannot be empty")
  else .ok { o with file }

def withExtensions (o : Options) (names : List String) : Options :=
  { o with extensions := o.extensions ++ names }

def headerText (s : Schema) (moduleName : String) : String :=
  "// Schema auto-generated from adl modules: " ++ Text.joinWith ", " s.modules ++ "\n//\n"
    ++ "// column comments show original ADL types\n//\n// Blocks from " ++ moduleName ++ "\n\n"

def setting (key : String) : Option String → String
  | some value => if value = "" then "" else "  " ++ key ++ " = " ++ Text.quoted value ++ "\n"
  | none => ""

def listSetting (key : String) (values : List String) : String :=
  if values.isEmpty then ""
  else "  " ++ key ++ " = [" ++ Text.joinWith ", " (values.map Text.quoted) ++ "]\n"

def datasourceText (b : PrismaBlocks) : String :=
  let name := match b.datasourceName with
    | some name => if name = "" then "db" else name
    | none => "db"
  let d := b.datasource
  "datasource " ++ name ++ " \x7b\n  provider = " ++ Text.quoted d.provider ++ "\n  url = "
    ++ d.url.text ++ "\n" ++ setting "shadowDatabaseUrl" d.shadowUrl
    ++ setting "directUrl" d.directUrl ++ setting "relationMode" d.relationMode
    ++ listSetting "extensions" d.extensions ++ "\x7d\n\n"

def generatorText (g : GeneratorBlock) : String :=
  "generator " ++ g.name ++ " \x7b\n  provider = " ++ Text.quoted g.provider ++ "\n"
    ++ setting "output" g.output ++ listSetting "previewFeatures" g.previewFeatures
    ++ setting "engineType" g.engineType ++ listSetting "binaryTargets" g.binaryTargets
    ++ "\x7d\n\n"

/-- The further statements of all tables. -/
def extraText (s : Schema) : String :=
  match s.tables.flatMap (·.extraSql) with
  | [] => ""
  | statements => "\n" ++ String.join (statements.map (· ++ "\n"))

def modelsText (s : Schema) : String :=
  String.join (s.tables.map fun t => (Model.ofTable s t).text) ++ extraText s

def text (o : Options) (g : Graph) : Outcome String := do
  let block ← g.moduleBlock PrismaBlocks.blocksKey
  let blocks ← PrismaBlocks.ofAnnotation block
  if !o.extensions.isEmpty then
    .error (.config "Extensions" (some (LogLine.listText o.extensions))
      "extensions must be placed in the prisma datasource block")
  let s ← Schema.build g .prisma
  return headerText s block.moduleName ++ datasourceText blocks
    ++ String.join (blocks.generators.map generatorText) ++ modelsText s

def target (o : Options) : Target :=
  .plain "prisma" fun g _ => (text o g).map fun text => [⟨o.file, .text text⟩]

end PrismaSchema

end SchemaCompiler
