import SchemaCompiler.Model.Annotation
import SchemaCompiler.Model.TypeExpr

/-!
# Declarations

A module holds declarations by name: structs and unions with fields, aliases, and new types.  Each
may take type parameters.
-/

namespace SchemaCompiler

structure Field where
  name : String
  serializedName : String
  typeExpr : TypeExpr
  default : Option RawValue
  annotations : Annotations
  deriving Repr, Inhabited

inductive DeclKind where
  | struct
  | union
  | synonym
  | newtype
  deriving DecidableEq, Repr

def DeclKind.tag : DeclKind → String
  | struct => "struct_"
  | union => "union_"
  | synonym => "type_"
  | newtype => "newtype_"

inductive Body where
  | struct (params : List String) (fields : List Field)
  | union (params : List String) (fields : List Field)
  | synonym (params : List String) (target : TypeExpr)
  | newtype (params : List String) (target : TypeExpr) (default : Option RawValue)
  deriving Repr, Inhabited

namespace Body

def kind : Body → DeclKind
  | struct .. => .struct
  | union .. => .union
  | synonym .. => .synonym
  | newtype .. => .newtype

def params : Body → List String
  | struct params _ | union params _ | synonym params _ | newtype params _ _ => params

def fields : Body → List Field
  | struct _ fields | union _ fields => fields
  | _ => []

/-- What an alias or a new type stands for. -/
def target? : Body → Option TypeExpr
  | synonym _ target | newtype _ target _ => some target
  | _ => none

end Body

/-- Whether a field list is that of an enumeration: branches without content. -/
def isEnumeration (types : List TypeExpr) : Bool :=
  !types.isEmpty && types.all (·.primitive? = some "Void")

structure Declaration where
  name : String
  version : Option RawValue
  body : Body
  annotations : Annotations
  deriving Repr, Inhabited

namespace Declaration

def kind (d : Declaration) : DeclKind := d.body.kind

def params (d : Declaration) : List String := d.body.params

def fields (d : Declaration) : List Field := d.body.fields

def isEnum (d : Declaration) : Bool :=
  match d.body with
  | .union _ fields => isEnumeration (fields.map (·.typeExpr))
  | _ => false

end Declaration

/-- A declaration and the module that holds it. -/
structure ScopedDecl where
  moduleName : String
  decl : Declaration
  deriving Repr, Inhabited

def ScopedDecl.name (d : ScopedDecl) : ScopedName := ⟨d.moduleName, d.decl.name⟩

inductive Import where
  | whole (moduleName : String)
  | single (name : ScopedName)
  deriving DecidableEq, Repr

def Import.moduleName : Import → String
  | whole moduleName => moduleName
  | single name => name.moduleName

/-- A module; its declarations stand in ascending order of their keys. -/
structure SchemaModule where
  name : String
  imports : List Import
  decls : List (String × Declaration)
  annotations : Annotations
  deriving Repr, Inhabited

def SchemaModule.empty : SchemaModule := ⟨"", [], [], []⟩

def SchemaModule.find? (m : SchemaModule) (key : String) : Option Declaration :=
  Keyed.find? key m.decls

end SchemaCompiler
