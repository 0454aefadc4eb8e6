import SchemaCompiler.Datum
import SchemaCompiler.Store

/-!
# Datasource and generator blocks

The blocks of a Prisma schema that do not come from declarations: a module carries them as one
annotation.
-/

namespace SchemaCompiler

/-- Where a database is found: an environment variable or the address itself. -/
structure DatabaseUrl where
  env : String
  literal : String
  deriving DecidableEq, Repr

def DatabaseUrl.text (u : DatabaseUrl) : String :=
  if u.env ≠ "" then "env(" ++ Text.quoted u.env ++ ")" else Text.quoted u.literal

structure Datasource where
  provider : String
  url : DatabaseUrl
  shadowUrl : Option String
  directUrl : Option String
  relationMode : Option String
  extensions : List String
  deriving Repr

structure GeneratorBlock where
  name : String
  provider : String
  output : Option String
  previewFeatures : List String
  engineType : Option String
  binaryTargets : List String
  deriving Repr

structure PrismaBlocks where
  datasourceName : Option String
  datasource : Datasource
  generators : List GeneratorBlock
  deriving Repr

namespace PrismaBlocks

open Json

def blocksKey : ScopedName := ⟨"common.prisma", "PrismaBlocks"⟩

def blank : PrismaBlocks := ⟨none, ⟨"", ⟨"", ""⟩, none, none, none, []⟩, []⟩

/-! ## Reading -/

def readUrl (old : DatabaseUrl) (j : Json) : Reading DatabaseUrl :=
  readRecord ⟨"prisma", "URL"⟩ ["env", "literal"] (fun u name value =>
    if name = "env" then do return { u with env := ← readText u.env value }
    else do return { u with literal := ← readText u.literal value }) old j

def readDatasource (old : Datasource) (j : Json) : Reading Datasource :=
  readRecord ⟨"prisma", "Datasource"⟩
    ["provider", "url", "shadowDatabaseUrl", "directUrl", "relationMode", "extensions"]
    (fun d name value =>
      match name with
      | "provider" => do return { d with provider := ← readText d.provider value }
      | "url" => do return { d with url := ← readUrl d.url value }
      | "shadowDatabaseUrl" => do
        return { d with shadowUrl := ← readOptional readText "" d.shadowUrl value }
      | "directUrl" => do
        return { d with directUrl := ← readOptional readText "" d.directUrl value }
      | "relationMode" => do
        return { d with relationMode := ← readOptional readText "" d.relationMode value }
      | _ => do return { d with extensions := ← readTexts d.extensions value }) old j

def readGenerator (old : GeneratorBlock) (j : Json) : Reading GeneratorBlock :=
  readRecord ⟨"prisma", "Generator"⟩
    ["provider", "output", "previewFeatures", "engineType", "binaryTargets"]
    (fun g name value =>
      match name with
      | "provider" => do return { g with provider := ← readText g.provider value }
      | "output" => do return { g with output := ← readOptional readText "" g.output value }
      | "previewFeatures" => do
        return { g with previewFeatures := ← readTexts g.previewFeatures value }
      | "engineType" => do
        return { g with engineType := ← readOptional readText "" g.engineType value }
      | _ => do return { g with binaryTargets := ← readTexts g.binaryTargets value }) old j

/-- Generators in the order of their keys; a key may occur more than once. -/
def generatorsOf : List (String × Json) → Outcome (List GeneratorBlock)
  | [] => .ok []
  | (key, value) :: rest =>
    let name := Json.unescape key
    match (readGenerator ⟨"", "", none, [], none, []⟩ value).finish with
    | .error failure => .error (.context ("prisma: generator " ++ name) failure)
    | .ok g => do return { g with name } :: (← generatorsOf rest)

/-- How a value that is no object is named. -/
def headText : Json → String
  | .arr _ => "["
  | j => match Datum.read j with
    | .ok (d, _) => d.show
    | .error _ => ""

def readGenerators : Json → Outcome (List GeneratorBlock)
  | .null => .ok []
  | .obj members => generatorsOf members
  | j => .error (.plain ("prisma: generators must be an object, got " ++ headText j))

def read (old : PrismaBlocks) (j : Json) : Reading PrismaBlocks :=
  readRecord ⟨"prisma", "Blocks"⟩ ["datasource_block_name", "datasource", "generators"]
    (fun b name value =>
    match name with
    | "datasource_block_name" => do
      return { b with datasourceName := ← readOptional readText "" b.datasourceName value }
    | "datasource" => do return { b with datasource := ← readDatasource b.datasource value }
    | _ => do return { b with generators := ← Reading.ofOutcome (readGenerators value) }) old j

/-! ## Checking -/

def required (field value : String) : List String :=
  if value = "" then [field ++ " is required"] else []

def oneOf (field : String) (choices : List String) (value : String) : List String :=
  if choices.contains value then []
  else
    [field ++ " must be one of [" ++ Text.joinWith " " choices ++ "], got " ++ Text.quoted value]

def optionalOneOf (field : String) (choices : List String) (value : Option String) :
    List String :=
  (value.map (oneOf field choices)).getD []

def providers : List String :=
  ["postgresql", "mysql", "sqlite", "sqlserver", "mongodb", "cockroachdb"]

def providerFindings (value : String) : List String :=
  if value = "" then required "Datasource.Provider" value
  else oneOf "Datasource.Provider" providers value

/-- An address is given in exactly one of two ways. -/
def urlFindings (u : DatabaseUrl) : List String :=
  if u.env = "" && u.literal = "" then
    ["Datasource.URL.Env is required when Literal is empty",
      "Datasource.URL.Literal is required when Env is empty"]
  else if u.env ≠ "" && u.literal ≠ "" then
    ["Datasource.URL.Env cannot be set together with Literal"]
  else []

def generatorFindings (place : Nat) (g : GeneratorBlock) : List String :=
  let field (name : String) : String := "Generators[" ++ toString place ++ "]." ++ name
  required (field "Provider") g.provider
    ++ optionalOneOf (field "EngineType") ["library", "binary"] g.engineType

def findings (b : PrismaBlocks) : List String :=
  providerFindings b.datasource.provider ++ urlFindings b.datasource.url
    ++ optionalOneOf "Datasource.RelationMode" ["foreignKeys", "prisma"] b.datasource.relationMode
    ++ (b.generators.zipIdx.flatMap fun (g, i) => generatorFindings i g)

def ofAnnotation (block : ModuleAnnotation) : Outcome PrismaBlocks :=
  let place := "in module " ++ block.moduleName
  match block.value.parse.bind fun j => (read blank j).finish with
  | .error failure =>
    .error (.schema blocksKey "" (place ++ ": cannot decode annotation") (some failure))
  | .ok b =>
    match b.findings with
    | [] => .ok b
    | found => .error (.schema blocksKey "" (place ++ ": " ++ Text.joinWith "; " found) none)

end PrismaBlocks

end SchemaCompiler
