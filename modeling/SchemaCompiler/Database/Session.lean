import SchemaCompiler.Datum
import SchemaCompiler.Log
import SchemaCompiler.Number.Duration

/-!
# Sessions with a database

A session is a computation that calls a database.  The database is an oracle: it answers each call
knowing all the calls before.  What a session did is the list of its calls, next to what it
logged and counted.
-/

/-!
## Statistics

How many statements ran, how long they took and how many of them failed or were slow.
-/

namespace SchemaCompiler

structure Statistics where
  queries : Int
  execs : Int
  duration : Duration
  slow : Int
  errors : Int
  deriving DecidableEq, Repr

namespace Statistics

def zero : Statistics := ⟨0, 0, 0, 0, 0⟩

/-- The mean duration of a statement, rounded toward zero. -/
def average (s : Statistics) : Duration :=
  let total := wrap64 (s.queries + s.execs)
  if total = 0 then 0 else wrap64 (s.duration.tdiv total)

def text (s : Statistics) : String :=
  "queries=" ++ toString s.queries ++ " execs=" ++ toString s.execs
    ++ " duration=" ++ s.duration.text ++ " avg=" ++ s.average.text
    ++ " slow=" ++ toString s.slow ++ " errors=" ++ toString s.errors

/-- A counter after one more event, if there was one. -/
def tick (happened : Bool) (n : Int) : Int :=
  if happened then wrap64 (n + 1) else n

/-- The statistics after one more statement. -/
def record (s : Statistics) (isQuery failed : Bool) (threshold taken : Duration) : Statistics where
  queries := tick isQuery s.queries
  execs := tick (!isQuery) s.execs
  duration := wrap64 (s.duration + taken)
  slow := tick (threshold < taken) s.slow
  errors := tick failed s.errors

end Statistics

end SchemaCompiler

namespace SchemaCompiler.Database

inductive Call where
  /-- Takes a connection out of the pool. -/
  | acquire
  /-- Gives it back. -/
  | release
  | exec (statement : String) (args : List Datum)
  | query (statement : String) (args : List Datum)
  | closeRows
  | start
  | commit
  | rollback

/-- How a database answers a call, by the calls before. -/
structure Oracle where
  failure? : List Call → Call → Option Failure
  /-- How many rows a statement affects. -/
  affected : List Call → Call → Nat
  /-- The rows that a query finds, and what may go wrong behind them. -/
  rows : List Call → Call → List String × Option Failure
  /-- How long a call takes. -/
  takes : List Call → Call → Nat

/-- What a session has done so far. -/
structure World where
  calls : List Call
  logs : List LogLine
  statistics : Statistics
  /-- A statement that takes longer is slow. -/
  threshold : Duration
  clock : Nat

def World.new (threshold : Duration) : World := ⟨[], [], .zero, threshold, 0⟩

abbrev Session := ReaderT Oracle (StateM World)

/-- The settings of one statement.  It may be cancelled at any time; time is told by the calls that
were made. -/
structure Context where
  /-- Session variables in the order in which they are set. -/
  vars : List (String × String)
  /-- Whether it is cancelled once these calls were made. -/
  cancelled : List Call → Bool

namespace Context

def plain : Context := ⟨[], fun _ => false⟩

def cancellation : Failure := .plain "context canceled"

def withVariable (c : Context) (name value : String) : Context :=
  { c with vars := c.vars ++ [(name, value)] }

/-- The first value of a variable. -/
def value? (c : Context) (name : String) : Option String :=
  c.vars.lookup name

/-- Sets the path on which a database looks for tables. -/
def withSearchPath (c : Context) (schema : String) : Context :=
  c.withVariable "search_path" schema

end Context

namespace Session

/-- Makes a call; the clock goes on by what it takes. -/
def call (c : Call) : Session (Option Failure) := do
  let oracle ← read
  let w ← get
  set { w with calls := w.calls ++ [c], clock := w.clock + oracle.takes w.calls c }
  return oracle.failure? w.calls c

/-- Makes a call unless the context is cancelled. -/
def callIn (ctx : Context) (c : Call) : Session (Option Failure) := do
  if ctx.cancelled (← get).calls then return some Context.cancellation else call c

/-- Commits a transaction.  The transaction of a cancelled context is rolled back instead. -/
def commitIn (ctx : Context) : Session (Option Failure) := do
  if ctx.cancelled (← get).calls then
    let _ ← call .rollback
    return some Context.cancellation
  else call .commit

/-- Looks at the clock, which never stands still between two looks. -/
def now : Session Nat :=
  modifyGet fun w => (w.clock, { w with clock := w.clock + 1 })

def log (line : LogLine) : Session Unit :=
  modify fun w => { w with logs := w.logs ++ [line] }

end Session

end SchemaCompiler.Database
