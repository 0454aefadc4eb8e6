import SchemaCompiler.Store

/-!
# Standard modules

The library modules that outputs rely on: optional values and pairs, documentation, database
tables and keys, references between schemas.
-/

namespace SchemaCompiler.Standard

def field (name : String) (type : TypeExpr) : Field :=
  ⟨name, name, type, none, []⟩

def structDecl (name : String) (params : List String) (fields : List Field) :
    String × Declaration :=
  (name, ⟨name, none, .struct params fields, []⟩)

def unionDecl (name : String) (params : List String) (fields : List Field) :
    String × Declaration :=
  (name, ⟨name, none, .union params fields, []⟩)

def aliasDecl (name : String) (target : TypeExpr) : String × Declaration :=
  (name, ⟨name, none, .synonym [] target, []⟩)

def newtypeDecl (name : String) (params : List String) (target : TypeExpr) :
    String × Declaration :=
  (name, ⟨name, none, .newtype params target none, []⟩)

def moduleOf (name : String) (decls : List (String × Declaration)) : SchemaModule :=
  ⟨name, [], Keyed.ofList decls, []⟩

def text : TypeExpr := .prim "String"
def nothing : TypeExpr := .prim "Void"
def textRows : TypeExpr := .prim "Vector" [.prim "Vector" [text]]

def modules : List SchemaModule := [
  moduleOf "sys.types" [
    unionDecl "Maybe" ["T"] [field "nothing" nothing, field "just" (.param "T")],
    structDecl "Pair" ["A", "B"] [field "v1" (.param "A"), field "v2" (.param "B")]],
  moduleOf "sys.annotations" [aliasDecl "Doc" text],
  moduleOf "common.db" [
    structDecl "DbTable" [] [field "tableName" text, field "indexes" textRows,
      field "uniquenessConstraints" textRows, field "extraSql" (.prim "Vector" [text])],
    structDecl "DbView" [] [field "viewName" text, field "viewSql" (.prim "Vector" [text])],
    newtypeDecl "DbKey" ["T"] text,
    aliasDecl "DbSpread" nothing,
    aliasDecl "DbPrimaryKey" nothing,
    aliasDecl "DbColumnName" text,
    aliasDecl "DbColumnType" text],
  moduleOf "savanti.schema.v1.types" [newtypeDecl "Ref" ["T"] text],
  moduleOf "savanti.schema.v1.annotations" [aliasDecl "Box" nothing],
  moduleOf "common.prisma" [structDecl "PrismaBlocks" [] [], aliasDecl "FieldComment" text]]

end SchemaCompiler.Standard
