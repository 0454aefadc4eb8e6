import SchemaCompiler.Relational.Profile
import SchemaCompiler.Text.LetterCase

/-!
# Column types of a database

A column type has many spellings.  Each dialect has one that it shows, and two columns have the
same type when their shown spellings agree.
-/

namespace SchemaCompiler

/-- A column type as it was given, and as a database shows it. -/
structure ColumnType where
  raw : String
  /-- None for a type that the dialect does not know. -/
  shown : Option String
  deriving DecidableEq, Repr

namespace ColumnType

def isSeparator (c : Char) : Bool := c = '(' || c = ')' || c = ' ' || c = ','

/-- The words of a type: its name and the numbers behind it. -/
def wordsOf : List Char → List Char → List String
  | word, [] => if word.isEmpty then [] else [String.ofList word.reverse]
  | word, c :: rest =>
    if isSeparator c then
      (if word.isEmpty then [] else [String.ofList word.reverse]) ++ wordsOf [] rest
    else wordsOf (c :: word) rest

def words (raw : String) : List String := wordsOf [] raw.toList

def isNumber (word : String) : Bool := !word.isEmpty && word.toList.all Char.isDigit

/-- The name of a type with its numbers in parentheses. -/
def sized (name : String) (sizes : List String) : String :=
  if sizes.isEmpty then name else name ++ "(" ++ Text.joinWith "," sizes ++ ")"

/-- Other names of the types that are shown under one name. -/
def postgresNames : List (String × String) :=
  [("int8", "bigint"), ("int", "integer"), ("int4", "integer"), ("int2", "smallint"),
    ("bool", "boolean"), ("varchar", "character varying"), ("char", "character"),
    ("decimal", "numeric"), ("float4", "real"), ("float8", "double precision"),
    ("double", "double precision"), ("timestamp with time zone", "timestamptz"),
    ("timestamp without time zone", "timestamp"), ("time with time zone", "timetz"),
    ("time without time zone", "time")]

/-- The types that are shown in small letters; any other name is kept as it is. -/
def postgresKnown : List String :=
  ["bigint", "integer", "smallint", "boolean", "character varying", "character", "numeric",
    "real", "double precision", "timestamptz", "timestamp", "timetz", "time", "date", "text",
    "json", "jsonb", "uuid", "bytea", "bit", "bit varying", "interval", "xml", "inet", "cidr",
    "macaddr", "macaddr8", "money", "serial", "bigserial", "smallserial", "point", "line", "lseg",
    "box", "path", "polygon", "circle", "hstore", "tsvector", "tsquery", "oid"]

def postgresShown (raw : String) : Outcome (Option String) :=
  if Text.endsWith "[]" raw then .ok (some (Text.lower raw))
  else
    match words raw with
    | [] => .error (.panic none)
    | first :: rest =>
      let name := Text.lower
        (Text.joinWith " " (first :: rest.filter (fun word => !isNumber word)))
      let sizes := rest.filter isNumber
      let shown := (postgresNames.lookup name).getD name
      .ok <| some <|
        if name = "float" then
          match sizes.head?.bind String.toNat? with
          | some p => if p ≤ 24 then "real" else "double precision"
          | none => "double precision"
        else if shown = "character" && sizes.isEmpty then "character(1)"
        else if ["timestamp", "timestamptz", "time", "timetz"].contains shown
            && sizes = ["6"] then shown
        else if postgresKnown.contains shown then sized shown sizes
        else first

def mysqlIntegers : List String := ["tinyint", "smallint", "mediumint", "int", "bigint"]

/-- The types that carry their numbers. -/
def mysqlSized : List String :=
  ["varchar", "char", "decimal", "binary", "varbinary", "bit", "datetime", "timestamp", "time",
    "year"]

def mysqlPlain : List String :=
  ["text", "tinytext", "mediumtext", "longtext", "blob", "tinyblob", "mediumblob", "longblob",
    "json", "date", "float", "double"]

def mysqlNames : List (String × String) :=
  [("boolean", "bool"), ("integer", "int"), ("numeric", "decimal"), ("real", "double"),
    ("double precision", "double")]

def mysqlShown (raw : String) : Option String :=
  let all := (words raw).map Text.lower
  let unsigned := all.contains "unsigned"
  let sizes := all.filter isNumber
  let given := Text.joinWith " " (all.filter fun word => !isNumber word && word ≠ "unsigned")
  let name := (mysqlNames.lookup given).getD given
  let shown? :=
    if name = "bool" || (name = "tinyint" && sizes = ["1"]) then some "bool"
    else if mysqlIntegers.contains name || mysqlPlain.contains name then some name
    else if mysqlSized.contains name then some (sized name sizes)
    else none
  shown?.map fun shown => if unsigned then shown ++ " unsigned" else shown

def sqliteKnown : List String :=
  ["bool", "boolean", "blob", "int2", "int8", "int", "integer", "tinyint", "smallint",
    "mediumint", "bigint", "unsigned big int", "real", "double", "double precision", "float",
    "numeric", "decimal", "char", "character", "varchar", "varying character", "nchar",
    "native character", "nvarchar", "text", "clob", "json", "jsonb", "date", "datetime", "time",
    "timestamp", "uuid"]

def sqliteShown (raw : String) : Option String :=
  let lower := Text.lower raw
  let name := Text.joinWith " " ((words lower).filter fun word => !isNumber word)
  if raw = "" then none
  else if sqliteKnown.contains name then some lower
  else some raw

/-- The spelling of a type that a dialect shows, none if it does not know the type. -/
def shownIn (d : Dialect) (raw : String) : Outcome (Option String) :=
  match d with
  | .postgres => postgresShown raw
  | .mysql => .ok (mysqlShown raw)
  | .sqlite => .ok (sqliteShown raw)

end ColumnType

end SchemaCompiler
