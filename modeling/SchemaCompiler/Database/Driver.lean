import SchemaCompiler.Database.Variables

/-!
# Drivers

A driver runs statements on a database and starts transactions.  It may be decorated: one
decoration counts statements, another logs them.
-/

namespace SchemaCompiler.Database

/-- What is handed over as the arguments of a statement. -/
inductive Arguments where
  | list (items : List Datum)
  /-- A value of another type. -/
  | other (type : String)

/-- Where the result of a statement is to go. -/
inductive Destination where
  | nowhere
  | affected
  | rows
  /-- A place of another type. -/
  | other (type : String)
  deriving DecidableEq, Repr

def Destination.type : Destination → String
  | nowhere => "<nil>"
  | affected => "*sql.Result"
  | rows => "*sql.Rows"
  | other type => type

/-- The rows of a query that is not closed yet. -/
structure Cursor where
  names : List String
  /-- What goes wrong behind the last row. -/
  failure : Option Failure
  lease : Lease

/-- Reads to the end, which closes the rows. -/
def Cursor.exhaust (c : Cursor) : Session (Option Failure) := do
  let closed ← Session.call .closeRows
  return c.failure <|> closed

/-- Gives the connection back. -/
def Cursor.close (c : Cursor) : Session (Option Failure) := Session.giveBack c.lease

/-- Something that statements run on. -/
structure Runner where
  exec : Context → String → Arguments → Destination → Session (Outcome Nat)
  query : Context → String → Arguments → Destination → Session (Outcome Cursor)

structure Transaction extends Runner where
  commit : Session (Option Failure)
  rollback : Session (Option Failure)

structure Driver extends Runner where
  dialect : String
  start : Context → Session (Outcome Transaction)

/-! ## Plain drivers -/

def wrongArguments (type : String) : Failure :=
  .plain ("dialect/sql: invalid type " ++ type ++ ". expect []any for args")

def wrongResult (type expected : String) : Failure :=
  .plain ("dialect/sql: invalid type " ++ type ++ ". expect " ++ expected)

/-- Runs a statement on a connection. -/
def execOn (ctx : Context) (statement : String) (args : List Datum) : Session (Outcome Nat) := do
  let oracle ← read
  let before := (← get).calls
  match ← Session.callIn ctx (.exec statement args) with
  | some failure => return .error (.context "dialect/sql: exec" failure)
  | none => return .ok (oracle.affected before (.exec statement args))

/-- Joins the failure of giving a connection back to what a statement gave. -/
def settled (lease : Lease) (result : Outcome Nat) (closed : Option Failure) : Outcome Nat :=
  if lease.dedicated then
    match result, closed with
    | .ok n, none => .ok n
    | .ok _, some failure => .error (.joined [failure])
    | .error failure, closed => .error (.joined (failure :: closed.toList))
  else result

def exec (dialect : String) (place : Place) (ctx : Context) (statement : String)
    (args : Arguments) (destination : Destination) : Session (Outcome Nat) :=
  match args with
  | .other type => return .error (wrongArguments type)
  | .list items => do
    match ← Session.lease dialect place ctx with
    | .error failure =>
      return .error (.context "dialect/sql: exec" (.context "set session vars" failure))
    | .ok lease =>
      let result ← match destination with
        | .nowhere | .affected => execOn ctx statement items
        | _ => pure (.error (wrongResult destination.type "*sql.Result"))
      let closed ← Session.giveBack lease
      return settled lease result closed

def query (dialect : String) (place : Place) (ctx : Context) (statement : String)
    (args : Arguments) (destination : Destination) : Session (Outcome Cursor) :=
  match destination, args with
  | .rows, .other type => return .error (wrongArguments type)
  | .rows, .list items => do
    match ← Session.lease dialect place ctx with
    | .error failure =>
      return .error (.context "dialect/sql: query" (.context "set session vars" failure))
    | .ok lease =>
      let oracle ← read
      let before := (← get).calls
      match ← Session.callIn ctx (.query statement items) with
      | some failure =>
        let closed ← Session.giveBack lease
        let failure := if lease.dedicated then .joined (failure :: closed.toList) else failure
        return .error (.context "dialect/sql: query" failure)
      | none =>
        let (names, failure) := oracle.rows before (.query statement items)
        return .ok ⟨names, failure, lease⟩
  | _, _ => return .error (wrongResult destination.type "*sql.Rows")

def plainTransaction (dialect : String) (ctx : Context) : Transaction where
  exec := exec dialect .transaction
  query := query dialect .transaction
  commit := Session.commitIn ctx
  rollback := Session.call .rollback

/-- The family of a dialect: the supported dialect that its name starts with. -/
def family (dialect : String) : String :=
  ((Dialect.all.map Dialect.name).find? (Text.startsWith · dialect)).getD dialect

/-- The driver of a pool of connections. -/
def Driver.plain (dialect : String) : Driver where
  exec := Database.exec dialect .pool
  query := Database.query dialect .pool
  dialect := family dialect
  start ctx := do
    match ← Session.callIn ctx .start with
    | some failure => return .error failure
    | none => return .ok (plainTransaction dialect ctx)

/-! ## Counting -/

def isError {α : Type} : Outcome α → Bool
  | .ok _ => false
  | .error _ => true

/-- Counts a statement, and warns if it was slow. -/
def count (statement : String) (isQuery failed : Bool) (began ended : Nat) : Session Unit := do
  let w ← get
  let taken : Duration := ended - began
  set { w with statistics := w.statistics.record isQuery failed w.threshold taken }
  if w.threshold < taken then
    Session.log ⟨.warn, "slow statement", [("duration", taken.text), ("query", statement)]⟩

def counting {α : Type} (isQuery : Bool) (statement : String) (run : Session (Outcome α)) :
    Session (Outcome α) := do
  let began ← Session.now
  let result ← run
  let ended ← Session.now
  count statement isQuery (isError result) began ended
  return result

def Runner.counted (r : Runner) : Runner where
  exec ctx statement args destination :=
    counting false statement (r.exec ctx statement args destination)
  query ctx statement args destination :=
    counting true statement (r.query ctx statement args destination)

def Transaction.counted (t : Transaction) : Transaction where
  toRunner := t.toRunner.counted
  commit := t.commit
  rollback := t.rollback

/-- A driver that counts its statements, inside transactions too. -/
def Driver.counted (d : Driver) : Driver where
  toRunner := d.toRunner.counted
  dialect := d.dialect
  start ctx := do
    match ← d.start ctx with
    | .error failure => return .error failure
    | .ok t => return .ok t.counted

/-! ## Logging -/

abbrev Attributes := List (String × String)

def argumentAttribute : Arguments → Attributes
  | .list [] => []
  | .list items => [("args", toString items.length)]
  | .other _ => []

def logStatement (attributes : Attributes) (op statement : String) (args : Arguments) :
    Session Unit :=
  Session.log ⟨.debug, "statement",
    attributes ++ [("op", op), ("stmt", Failure.firstLine statement)] ++ argumentAttribute args⟩

def Runner.logged (attributes : Attributes) (r : Runner) : Runner where
  exec ctx statement args destination := do
    logStatement attributes "exec" statement args
    r.exec ctx statement args destination
  query ctx statement args destination := do
    logStatement attributes "query" statement args
    r.query ctx statement args destination

/-- Ends a transaction and logs the outcome. -/
def loggedEnd (attributes : Attributes) (message : String) (run : Session (Option Failure)) :
    Session (Option Failure) := do
  let result ← run
  Session.log ⟨.debug, message,
    attributes ++ [("error", (result.map Failure.message).getD "<nil>")]⟩
  return result

def Transaction.logged (attributes : Attributes) (t : Transaction) : Transaction where
  toRunner := t.toRunner.logged attributes
  commit := loggedEnd attributes "transaction committed" t.commit
  rollback := loggedEnd attributes "transaction rolled back" t.rollback

/-- A driver that logs its statements, inside transactions too. -/
def Driver.logged (d : Driver) : Driver where
  toRunner := d.toRunner.logged [("dialect", d.dialect)]
  dialect := d.dialect
  start ctx := do
    match ← d.start ctx with
    | .error failure => return .error failure
    | .ok t =>
      Session.log ⟨.debug, "transaction started", [("dialect", d.dialect)]⟩
      return .ok (t.logged [("dialect", d.dialect), ("tx", "true")])

/-!
## The tables of a database

Asks a database for the names of its tables.
-/

/-- The query for the base tables of the current schema. -/
def tablesQuery : Dialect → String
  | .postgres =>
    "SELECT table_name FROM information_schema.tables WHERE table_schema = current_schema() "
      ++ "AND table_type = 'BASE TABLE' ORDER BY table_name"
  | .mysql =>
    "SELECT table_name FROM information_schema.tables WHERE table_schema = DATABASE() "
      ++ "AND table_type = 'BASE TABLE' ORDER BY table_name"
  | .sqlite =>
    "SELECT name FROM sqlite_master WHERE type = 'table' AND name NOT LIKE 'sqlite_%' "
      ++ "ORDER BY name"

/-- The names of the tables, sorted. -/
def tables (d : Driver) (ctx : Context) : Session (Outcome (List String)) :=
  match Dialect.ofName? d.dialect with
  | none =>
    return .error (.plain
      ("dialect/sql: tables: unsupported dialect " ++ Text.quoted d.dialect))
  | some dialect => do
    match ← d.query ctx (tablesQuery dialect) (.list []) .rows with
    | .error failure => return .error failure
    | .ok cursor =>
      let failed ← cursor.exhaust
      let closed ← cursor.close
      match failed, closed with
      | some failure, _ => return .error (.context "dialect/sql: tables" failure)
      | none, some failure => return .error failure
      | none, none => return .ok (Text.sort cursor.names)

/-- The wanted tables that a database does not have, in the order in which they are wanted. -/
def missingTables (d : Driver) (ctx : Context) (wanted : List String) :
    Session (Outcome (List String)) := do
  match ← tables d ctx with
  | .error failure => return .error failure
  | .ok found => return .ok (wanted.filter (!found.contains ·))

end SchemaCompiler.Database
