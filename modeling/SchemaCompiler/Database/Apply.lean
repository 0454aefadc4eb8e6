import SchemaCompiler.Database.Driver
import SchemaCompiler.Database.Script

/-!
# Applying a script

Runs the statements of a script one after the other up to the first failure: in one transaction,
which is committed only if all succeed, or one by one.
-/

namespace SchemaCompiler.Database

structure ApplyOptions where
  /-- The schema in which a database looks for tables; none if empty. -/
  schema : String
  /-- Whether the statements run without a transaction. -/
  direct : Bool
  deriving DecidableEq, Repr

/-- How many statements have succeeded, and why not all have. -/
structure Applied where
  count : Nat
  failure : Option Failure

/-- Runs statements, of which some have run before. -/
def runAll (r : Runner) (ctx : Context) (before : Nat) : List String → Session Applied
  | [] => return ⟨before, none⟩
  | statement :: rest => do
    if ctx.cancelled (← get).calls then return ⟨before, some Context.cancellation⟩
    else
      match ← r.exec ctx statement (.list []) .nowhere with
      | .error failure => return ⟨before, some (.statement (before + 1) statement (some failure))⟩
      | .ok _ => runAll r ctx (before + 1) rest

def appliedLog (dialect : String) (count : Nat) (attributes : Attributes) : LogLine :=
  ⟨.info, "script applied",
    [("dialect", dialect), ("statements", toString count)] ++ attributes⟩

def applyDirectly (d : Driver) (ctx : Context) (statements : List String) : Session Applied := do
  let applied ← runAll d.toRunner ctx 0 statements
  if applied.failure.isNone then
    Session.log (appliedLog d.dialect applied.count [("tx", "false")])
  return applied

def applyInTransaction (d : Driver) (ctx : Context) (statements : List String) :
    Session Applied := do
  match ← d.start ctx with
  | .error failure => return ⟨0, some (.context "dialect/sql: begin" failure)⟩
  | .ok t =>
    let applied ← runAll t.toRunner ctx 0 statements
    match applied.failure with
    | some failure =>
      match ← t.rollback with
      | none => return ⟨0, some failure⟩
      | some undone =>
        return ⟨0, some (.joined [failure, .context "dialect/sql: rollback" undone])⟩
    | none =>
      match ← t.commit with
      | some failure => return ⟨0, some (.context "dialect/sql: commit" failure)⟩
      | none =>
        Session.log (appliedLog d.dialect applied.count [])
        return applied

def apply (d : Driver) (ctx : Context) (o : ApplyOptions) (script : String) : Session Applied :=
  match Script.statements script with
  | .error failure => return ⟨0, some failure⟩
  | .ok statements =>
    let ctx :=
      if o.schema ≠ "" && d.dialect = Dialect.postgres.name then ctx.withSearchPath o.schema
      else ctx
    if o.direct then applyDirectly d ctx statements else applyInTransaction d ctx statements

end SchemaCompiler.Database
