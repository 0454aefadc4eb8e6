import SchemaCompiler.Text

/-!
# Log lines

What the compiler reports beside its results.
-/

namespace SchemaCompiler

inductive LogLevel where
  | debug
  | info
  | warn
  | error
  deriving DecidableEq, Repr

def LogLevel.text : LogLevel → String
  | debug => "DEBUG"
  | info => "INFO"
  | warn => "WARN"
  | error => "ERROR"

def LogLevel.rank : LogLevel → Nat
  | debug => 0
  | info => 1
  | warn => 2
  | error => 3

structure LogLine where
  level : LogLevel
  message : String
  attributes : List (String × String)
  deriving Repr

namespace LogLine

def text (l : LogLine) : String :=
  Text.joinWith " " (l.level.text :: l.message :: l.attributes.map fun (k, v) => k ++ "=" ++ v)

def atLeast (level : LogLevel) (l : LogLine) : Bool :=
  level.rank ≤ l.level.rank

/-- A list as an attribute. -/
def listText (items : List String) : String :=
  "[" ++ Text.joinWith " " items ++ "]"

end LogLine

end SchemaCompiler
