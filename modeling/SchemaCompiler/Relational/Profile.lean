import SchemaCompiler.Failure

/-!
# Profiles and dialects

A profile maps primitives to the column types of one database; a dialect is the language its
scripts are written in.
-/

namespace SchemaCompiler

structure Profile where
  name : String
  /-- The type of columns that hold a reference. -/
  idType : String
  /-- The type of columns that hold an enumeration. -/
  enumType : String
  types : List (String × String)
  /-- The type of everything else, stored as a document. -/
  documentType : String
  deriving Repr

namespace Profile

def columnType (p : Profile) (primitive : String) : String :=
  (p.types.lookup primitive).getD p.documentType

/-- Column types for the primitives in their usual order: text, truth value, document, four signed
and four unsigned integers, two floating point numbers. -/
def primitives : List String :=
  ["String", "Bool", "Json", "Int8", "Int16", "Int32", "Int64", "Word8", "Word16", "Word32",
    "Word64", "Float", "Double"]

def postgresTypes (document : String) : List (String × String) :=
  primitives.zip ["text", "boolean", document, "smallint", "smallint", "integer", "bigint",
    "smallint", "smallint", "integer", "bigint", "real", "double precision"]

def postgresql : Profile := ⟨"postgresql", "text", "text", postgresTypes "json", "json"⟩

def postgresql2 : Profile := ⟨"postgresql2", "text", "text", postgresTypes "jsonb", "jsonb"⟩

def mssql2 : Profile where
  name := "mssql2"
  idType := "nvarchar(64)"
  enumType := "nvarchar(64)"
  types := primitives.zip ["nvarchar(max)", "bit", "nvarchar(max)", "smallint", "smallint", "int",
    "bigint", "smallint", "smallint", "int", "bigint", "float(24)", "float(53)"]
  documentType := "nvarchar(max)"

def prisma : Profile where
  name := "prisma"
  idType := "String"
  enumType := "String"
  types := primitives.zip ["String", "Boolean", "Json", "Int", "Int", "Int", "BigInt", "Int",
    "Int", "Int", "BigInt", "Float", "Decimal"]
  documentType := "Json"

def mysql : Profile where
  name := "mysql"
  idType := "varchar(64)"
  enumType := "varchar(64)"
  types := primitives.zip ["text", "bool", "json", "tinyint", "smallint", "int", "bigint",
    "tinyint unsigned", "smallint unsigned", "int unsigned", "bigint unsigned", "float", "double"]
  documentType := "json"

def sqlite : Profile where
  name := "sqlite"
  idType := "text"
  enumType := "text"
  types := primitives.zip ["text", "boolean", "json", "integer", "integer", "integer", "integer",
    "integer", "integer", "integer", "integer", "real", "real"]
  documentType := "json"

/-- The profiles by name. -/
def all : List Profile := [mssql2, mysql, postgresql, postgresql2, prisma, sqlite]

def names : List String := all.map (·.name)

/-- The profile of a name; the empty name stands for `postgresql2`. -/
def ofName (name : String) : Outcome Profile :=
  if name = "" then .ok postgresql2
  else
    match all.find? (·.name = name) with
    | some p => .ok p
    | none =>
      .error (.plain ("db: unknown profile " ++ Text.quoted name ++ " (supported: "
        ++ Text.joinWith ", " names ++ ")"))

end Profile

inductive Dialect where
  | mysql
  | sqlite
  | postgres
  deriving DecidableEq, Repr

namespace Dialect

def name : Dialect → String
  | mysql => "mysql"
  | sqlite => "sqlite"
  | postgres => "postgres"

def all : List Dialect := [mysql, sqlite, postgres]

def ofName? (name : String) : Option Dialect :=
  all.find? (·.name = name)

/-- The dialect that a profile has column types for. -/
def ofProfile (profile : String) : Outcome Dialect :=
  if profile = "" || profile = "postgresql" || profile = "postgresql2" then .ok postgres
  else if profile = "mysql" then .ok mysql
  else if profile = "sqlite" then .ok sqlite
  else .error (.plain ("dialect: profile " ++ Text.quoted profile ++ " has no dialect"))

end Dialect

end SchemaCompiler
