import SchemaCompiler.Text
import SchemaCompiler.Text.LetterCase

/-!
# Names in outputs

How identifiers become the names of tables, columns, types and members: words are told apart by
capitals and separators, and put together again in the case an output wants.
-/

namespace SchemaCompiler.Naming

open Text

/-- Characters between words. -/
def isSpacer (c : Char) : Bool :=
  c = '_' || c = ':' || c = '-' || isSpaceChar c

/-- The words of the rest of an identifier after the letters `word`, held backwards.  A capital or
a separator ends a word that has letters; the last word may be empty. -/
def wordsAfter (word : List Char) : List Char → List (List Char)
  | [] => [word.reverse]
  | c :: rest =>
    if !word.isEmpty && (isUpperChar c || isSpacer c) then
      word.reverse :: wordsAfter (if isSpacer c then [] else [c]) rest
    else wordsAfter (if isSpacer c then word else c :: word) rest

def words (s : String) : List (List Char) :=
  wordsAfter [] s.toList

/-- Words in lower case with underscores between: `createdAt` becomes `created_at`. -/
def snake (s : String) : String :=
  joinWith "_" ((words s).map fun w => String.ofList (w.map lowerChar))

def tableName (decl : String) : String :=
  dropTail "_table" (snake decl)

def capitalize : List Char → List Char
  | [] => []
  | c :: rest => upperChar c :: rest.map lowerChar

/-- Words with capitals and nothing between. -/
def pascal (s : String) : String :=
  String.ofList ((words s).flatMap capitalize)

/-- The bytes of a name like `pascal` whose first byte is in lower case.  A first character of
several bytes loses its first byte to the replacement character.  There is no such name without
letters. -/
def camel (s : String) : Option (List UInt8) :=
  match (pascal s).toList with
  | [] => none
  | c :: rest =>
    let tail := rest.flatMap String.utf8EncodeChar
    if c.toNat < 0x80 then some (String.utf8EncodeChar c.toLower ++ tail)
    else some ([0xef, 0xbf, 0xbd] ++ (String.utf8EncodeChar c).drop 1 ++ tail)

/-- A word ending and what the plural puts in its place. -/
structure PluralRule where
  ending : String
  plural : String
  wholeWord : Bool := false

/-- Words that are their own plural. -/
def uncountable : List String :=
  ["equipment", "information", "rice", "money", "species", "series", "fish", "sheep", "jeans",
    "police"]

def consonantRules (letters : String) (ending plural : String) : List PluralRule :=
  letters.toList.map fun c => ⟨String.singleton c ++ ending, String.singleton c ++ plural, false⟩

/-- The rules of plurals; the last one that applies counts. -/
def pluralRules : List PluralRule :=
  ([("s", "s"), ("testis", "testes"), ("axis", "axes"), ("octopus", "octopi"), ("virus", "viri"),
    ("octopi", "octopi"), ("viri", "viri"), ("alias", "aliases"), ("status", "statuses"),
    ("bus", "buses"), ("buffalo", "buffaloes"), ("tomato", "tomatoes"), ("tum", "ta"),
    ("ium", "ia"), ("ta", "ta"), ("ia", "ia"), ("sis", "ses"), ("lf", "lves"),
    ("rf", "rves")].map fun (e, p) => ⟨e, p, false⟩)
  ++ consonantRules "abcdeghijklmnopqrstuvwxyz" "fe" "ves"
  ++ [⟨"hive", "hives", false⟩, ⟨"quy", "quies", false⟩]
  ++ consonantRules "bcdfghjklmnpqrstvwxz" "y" "ies"
  ++ ([("x", "xes"), ("ch", "ches"), ("ss", "sses"), ("sh", "shes"), ("matrix", "matrices"),
    ("vertix", "vertices"), ("indix", "indices"), ("matrex", "matrices"), ("vertex", "vertices"),
    ("index", "indices"), ("mouse", "mice"), ("louse", "lice"), ("mice", "mice"),
    ("lice", "lice")].map fun (e, p) => ⟨e, p, false⟩)
  ++ [⟨"ox", "oxen", true⟩, ⟨"oxen", "oxen", true⟩, ⟨"quiz", "quizzes", true⟩]
  ++ ([("person", "people"), ("people", "people"), ("man", "men"), ("men", "men"),
    ("child", "children"), ("children", "children"), ("sex", "sexes"), ("sexes", "sexes"),
    ("move", "moves"), ("moves", "moves"), ("zombie", "zombies"),
    ("zombies", "zombies")].map fun (e, p) => ⟨e, p, false⟩)

def PluralRule.applies (r : PluralRule) (word : String) : Bool :=
  if r.wholeWord then word = r.ending else endsWith r.ending word

def plural (word : String) : String :=
  if word = "" then word
  else if lower (lastOf (splitOn ' ' word)) ∈ uncountable then word
  else match pluralRules.reverse.find? (·.applies word) with
    | some r => dropTail r.ending word ++ r.plural
    | none => word ++ "s"

/-- Identifiers that must be quoted in SQL. -/
def reserved : List String := ["user", "order", "group", "table"]

def quoteReserved (name : String) : String :=
  if name ∈ reserved then "\"" ++ name ++ "\"" else name

/-- The exported identifier of a declaration or instance: `_Pair_Int32__Box_String` becomes
`PairInt32BoxString`. -/
def exported (name : String) : String :=
  String.join (((splitOn '_' name).filter (· ≠ "")).map pascal)

/-- The scalar type of a primitive in query schemas. -/
def scalar (primitive : String) : String :=
  if primitive = "Bool" then "Boolean"
  else if primitive ∈ ["Int8", "Int16", "Int32", "Int64", "Word8", "Word16", "Word32", "Word64"]
  then "Int"
  else if primitive = "Float" || primitive = "Double" then "Float"
  else "String"

end SchemaCompiler.Naming
