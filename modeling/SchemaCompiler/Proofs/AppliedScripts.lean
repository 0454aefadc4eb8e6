import SchemaCompiler.Database.Apply
import SchemaCompiler.Proofs.Sessions

/-!
# Applied scripts

Applying a script asks a driver, or the transaction that it has started, for one
thing after the other.  The statements are sent in order, up to the first one
that fails or finds the context cancelled.  A transaction is started at most once
and ends in exactly one way.
-/

namespace SchemaCompiler.Database

open List Session Driver ApplyOptions

variable {ending t : Option Transaction} {w last : World}

/-! ## What a driver is asked for -/

/-- Something that happens while a script is applied: the driver or the open
transaction answers, or the context is found cancelled before a statement. -/
inductive Event where
  | start (failure : Option Failure)
  | exec (statement : String) (failure : Option Failure)
  | cancelled
  | commit (failure : Option Failure)
  | rollback (failure : Option Failure)

namespace Driver

variable (d : Driver) (ctx : Context) (o : Oracle)

/-- What statements run on: the open transaction, or else the driver itself. -/
def runner : Option Transaction → Runner
  | none => d.toRunner
  | some t => t.toRunner

/-- One event, from an open transaction and a world to those afterwards.  Nothing
is sent in a cancelled context. -/
inductive Answers : Option Transaction → World → Event → Option Transaction → World → Prop
  | refused {w next : World} {f : Failure}
      (hstart : (d.start ctx).run o w = (.error f, next)) :
      Answers none w (.start (some f)) none next
  | started {w next : World} {t : Transaction}
      (hstart : (d.start ctx).run o w = (.ok t, next)) :
      Answers none w (.start none) (some t) next
  | executed {t : Option Transaction} {w next : World} {statement : String} {n : Nat}
      (hopen : ctx.cancelled w.calls = false)
      (hexec : ((d.runner t).exec ctx statement (.list []) .nowhere).run o w = (.ok n, next)) :
      Answers t w (.exec statement none) t next
  | failed {t : Option Transaction} {w next : World} {statement : String} {f : Failure}
      (hopen : ctx.cancelled w.calls = false)
      (hexec : ((d.runner t).exec ctx statement (.list []) .nowhere).run o w = (.error f, next)) :
      Answers t w (.exec statement (some f)) t next
  | cancelled {t : Option Transaction} {w : World} (hcancelled : ctx.cancelled w.calls = true) :
      Answers t w .cancelled t w
  | committed {t : Transaction} {w next : World} {f : Option Failure}
      (hcommit : t.commit.run o w = (f, next)) :
      Answers (some t) w (.commit f) none next
  | rolledBack {t : Transaction} {w next : World} {f : Option Failure}
      (hrollback : t.rollback.run o w = (f, next)) :
      Answers (some t) w (.rollback f) none next

/-- Events one after the other, and nothing between them. -/
inductive Follows : Option Transaction → World → List Event → Option Transaction → World → Prop
  | nil (t : Option Transaction) (w : World) : Follows t w [] t w
  | cons {t between ending : Option Transaction} {w next last : World} {e : Event}
      {events : List Event} (hfirst : d.Answers ctx o t w e between next)
      (hrest : Follows between next events ending last) : Follows t w (e :: events) ending last

variable {d ctx o}

theorem Answers.follows {e : Event} (h : d.Answers ctx o t w e ending last) :
    d.Follows ctx o t w [e] ending last :=
  .cons h (.nil ending last)

theorem Follows.append {between : Option Transaction} {next : World} {events more : List Event}
    (h : d.Follows ctx o t w events between next)
    (hmore : d.Follows ctx o between next more ending last) :
    d.Follows ctx o t w (events ++ more) ending last := by
  induction h with
  | nil => exact hmore
  | cons hfirst _ ih => exact .cons hfirst (ih hmore)

end Driver

/-! ## Statements in order -/

section Runs

variable {d : Driver} {ctx : Context} {o : Oracle}

end Runs

/-! ## Transactions -/

/-- What is reported if a transaction was rolled back. -/
def undone (failure : Failure) : Option Failure → Failure
  | none => failure
  | some f => .joined [failure, .context "dialect/sql: rollback" f]

section Apply

variable {o : Oracle}

end Apply

/-! ## Calls of a database -/

namespace Event

variable (ctx : Context)

/-- The calls by which a database without variables serves an event.  In a context
that is cancelled by then no transaction is started, and one is rolled back
instead of committed. -/
def made (before : List Call) : Event → List Call
  | .start none => [.start]
  | .start (some _) => if ctx.cancelled before then [] else [.start]
  | .exec statement _ => [.exec statement []]
  | .cancelled => []
  | .commit none => [.commit]
  | .commit (some _) => [if ctx.cancelled before then .rollback else .commit]
  | .rollback _ => [.rollback]

def calls (before : List Call) : List Event → List Call
  | [] => []
  | e :: rest => made ctx before e ++ calls (before ++ made ctx before e) rest

end Event

section Plain

variable {dialect : String} {ctx : Context} {o : Oracle}

end Plain

/-! ## Applying -/

/-- The context in which a script runs: the schema that is asked for is on its
path. -/
def ApplyOptions.context (options : ApplyOptions) (d : Driver) (ctx : Context) : Context :=
  if options.schema ≠ "" && d.dialect = Dialect.postgres.name then
    ctx.withSearchPath options.schema
  else ctx

end SchemaCompiler.Database
