import SchemaCompiler.Database.Session

/-!
# Scripted databases

A database that holds a list of names, answers every query with it, and fails where rules say so.
-/

namespace SchemaCompiler.Database

/-- A kind of call fails when its text contains a piece. -/
structure FailureRule where
  kind : String
  piece : String
  message : String
  deriving DecidableEq, Repr

namespace Call

def kind : Call → String
  | acquire => "acquire"
  | release => "release"
  | exec .. => "exec"
  | query .. => "query"
  | closeRows => "rowsClose"
  | start => "begin"
  | commit => "commit"
  | rollback => "rollback"

def statement : Call → String
  | exec text _ | query text _ => text
  | _ => ""

def args : Call → List Datum
  | exec _ args | query _ args => args
  | _ => []

/-- A call as a line of text; the pool is out of sight. -/
def event? : Call → Option String
  | acquire | release => none
  | exec text args => some ("exec: " ++ text ++ argsText args)
  | query text args => some ("query: " ++ text ++ argsText args)
  | c => some c.kind
where
  argsText (args : List Datum) : String :=
    if args.isEmpty then "" else " " ++ (Datum.list args).show

end Call

/-- A database that holds names and fails by rules; the first rule that fits decides. -/
def Oracle.scripted (rules : List FailureRule) (names : List String) : Oracle where
  failure? _ c :=
    (rules.find? fun r => r.kind = c.kind && Text.contains r.piece c.statement).map
      fun r => .plain r.message
  affected _ c := c.args.length
  rows _ _ := (names, (rules.find? (·.kind = "next")).map fun r => .plain r.message)
  takes _ _ := 0

end SchemaCompiler.Database
