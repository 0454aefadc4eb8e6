import SchemaCompiler.Database.Session
import SchemaCompiler.Relational.Profile

/-!
# Session variables

Variables are set on a connection before a statement runs and reset before the connection goes
back to the pool.  Inside a transaction they stay set.
-/

namespace SchemaCompiler.Database

/-- Where statements run: on the pool, or on the connection of a transaction. -/
inductive Place where
  | pool
  | transaction
  deriving DecidableEq, Repr

/-- The connection that a statement runs on, and what it takes to give it back. -/
structure Lease where
  /-- Whether the connection was taken out of the pool for this statement. -/
  dedicated : Bool
  resets : List String
  deriving DecidableEq, Repr

namespace Variable

def isNameStart (c : Char) : Bool := c.isAlpha || c = '_'

def isNamePart (c : Char) : Bool := isNameStart c || c.isDigit || c = '.'

/-- Names are short and have only letters, digits, underscores and points. -/
def isName (name : String) : Bool :=
  name.length ≤ 128 &&
  match name.toList with
  | [] => false
  | first :: rest => isNameStart first && rest.all isNamePart

/-- The text of a value between its quotes. -/
def escapeChars : List Char → List Char
  | [] => []
  | '\\' :: rest => '\\' :: '\\' :: escapeChars rest
  | '\'' :: rest => '\'' :: '\'' :: escapeChars rest
  | c :: rest => c :: escapeChars rest

def literal (value : String) : String :=
  "'" ++ String.ofList (escapeChars value.toList) ++ "'"

def setStatement (name value : String) : String :=
  "SET " ++ name ++ " = " ++ literal value

/-- The statement that resets a variable; some databases have none. -/
def resetStatement? (dialect name : String) : Option String :=
  if dialect = Dialect.postgres.name then some ("RESET " ++ name)
  else if dialect = Dialect.mysql.name then some ("SET " ++ name ++ " = NULL")
  else none

/-- The resets of variables, each once, in the order in which they are first set. -/
def resets (dialect : String) (names : List String) : List String :=
  names.eraseDups.filterMap (resetStatement? dialect)

end Variable

namespace Session

/-- Gives a connection back as it is. -/
def release (dedicated : Bool) : Session Unit :=
  if dedicated then do let _ ← call .release else return

/-- Resets variables up to the first failure. -/
def runResets : List String → Session (Option Failure)
  | [] => return none
  | statement :: rest => do
    match ← call (.exec statement []) with
    | some failure => return some failure
    | none => runResets rest

/-- Resets the variables of a leased connection and gives it back. -/
def giveBack (lease : Lease) : Session (Option Failure) :=
  if lease.dedicated then do
    let failure ← runResets lease.resets
    release true
    return failure
  else return none

/-- Sets variables one after the other. -/
def setAll (ctx : Context) (dedicated : Bool) :
    List (String × String) → Session (Outcome Unit)
  | [] => return .ok ()
  | (name, value) :: rest => do
    if Variable.isName name then
      match ← callIn ctx (.exec (Variable.setStatement name value) []) with
      | none => setAll ctx dedicated rest
      | some failure =>
        release dedicated
        return .error failure
    else
      release dedicated
      return .error (.plain ("invalid session variable name: " ++ Text.quoted name))

/-- Finds a connection for a statement and sets its variables. -/
def lease (dialect : String) (place : Place) (ctx : Context) : Session (Outcome Lease) :=
  if ctx.vars.isEmpty then return .ok ⟨false, []⟩
  else do
    let dedicated := place = .pool
    let acquired ← if dedicated then callIn ctx .acquire else pure none
    match acquired with
    | some failure => return .error failure
    | none =>
      match ← setAll ctx dedicated ctx.vars with
      | .error failure => return .error failure
      | .ok () =>
        return .ok ⟨dedicated, Variable.resets dialect (ctx.vars.map (·.1))⟩

end Session

end SchemaCompiler.Database
