import SchemaCompiler.Failure
import SchemaCompiler.Model.TypeExpr

/-!
# Bindings

At a place where a declaration is used, its type parameters are bound to the arguments given
there.  Substitution replaces bound parameters by their arguments and leaves the others alone.
-/

namespace SchemaCompiler

structure Binding where
  param : String
  value : TypeExpr
  deriving Repr

/-- The bindings of one use of a declaration. -/
abbrev Env := List Binding

namespace Env

def find? (env : Env) (param : String) : Option TypeExpr :=
  (List.find? (·.param = param) env).map (·.value)

/-- The message for a use with the wrong number of type arguments. -/
def arityMessage (decl : ScopedName) (declared supplied : Nat) : String :=
  decl.text ++ " declares " ++ toString declared ++ " type parameter(s), reference supplies "
    ++ toString supplied

/-- Binds the parameters of a declaration to as many arguments. -/
def bind (decl : ScopedName) (params : List String) (args : List TypeExpr) : Outcome Env :=
  if params.length = args.length then .ok (params.zipWith Binding.mk args)
  else
    .error (.resolve .arityMismatch decl "" [] (arityMessage decl params.length args.length) none)

end Env

namespace TypeExpr

def appliedParam (param : String) (count : Nat) : Failure :=
  .resolve .nonConcreteBinding .blank "" []
    ("type parameter " ++ param ++ " is applied to " ++ toString count ++ " argument(s)") none

/-- What a head with substituted arguments becomes: a bound parameter becomes its value and must
not be applied to arguments itself. -/
def substituteHead (env : Env) (head : TypeRef) (args : List TypeExpr) : Outcome TypeExpr :=
  match head with
  | .param name =>
    match env.find? name with
    | some value => if args.isEmpty then .ok value else .error (appliedParam name args.length)
    | none => .ok (app head args)
  | _ => .ok (app head args)

mutual

/-- Replaces every bound parameter by its value, inner expressions first. -/
def substitute (env : Env) : TypeExpr → Outcome TypeExpr
  | missing => .ok missing
  | app head args =>
    match substituteAll env args with
    | .error failure => .error failure
    | .ok args => substituteHead env head args

def substituteAll (env : Env) : List TypeExpr → Outcome (List TypeExpr)
  | [] => .ok []
  | a :: as =>
    match substitute env a with
    | .error failure => .error failure
    | .ok b =>
      match substituteAll env as with
      | .error failure => .error failure
      | .ok bs => .ok (b :: bs)

end

end TypeExpr

end SchemaCompiler
