import SchemaCompiler.Template.Token
import SchemaCompiler.Template.Value

/-!
# Template trees

A template is a list of nodes: text, actions that print the value of a pipeline, and blocks under
a condition, a loop or a value.  A pipeline hands the value of each command to the next as its
last argument.
-/

namespace SchemaCompiler.Template

inductive Operand where
  | dot
  | nothing
  | const (value : Value)
  | field (path : List String)
  | var (name : String) (path : List String)
  | function (name : String)
  /-- A pipeline in parentheses: the variables it sets and its commands. -/
  | pipeline (assigns : Bool) (vars : List String) (commands : List (List Operand))
  | chain (operand : Operand) (path : List String)
  deriving Repr, Inhabited

structure Pipeline where
  /-- Sets variables that are there instead of declaring new ones. -/
  assigns : Bool
  vars : List String
  commands : List (List Operand)
  deriving Repr, Inhabited

inductive Node where
  | text (value : String)
  | action (pipeline : Pipeline)
  | condition (pipeline : Pipeline) (body otherwise : List Node)
  | loop (pipeline : Pipeline) (body otherwise : List Node)
  | focus (pipeline : Pipeline) (body otherwise : List Node)
  | call (name : String) (pipeline : Option Pipeline)
  | stop
  | skip
  deriving Repr, Inhabited

/-- Operands that can stand only at the start of a pipeline. -/
def Operand.isConstant : Operand → Bool
  | dot | nothing | const _ => true
  | _ => false

namespace Number

/-- Underscores may stand between digits of a number with a base and nowhere else. -/
def withoutUnderscores (cs : List Char) : List Char := cs.filter (· ≠ '_')

def isDigitIn (base : Nat) (c : Char) : Bool :=
  match Json.hexValue? c with
  | some d => d < base
  | none => false

def inBase (base : Nat) (digits : List Char) : Option Nat :=
  if !digits.isEmpty && digits.all (isDigitIn base) then
    some (digits.foldl (fun n c => base * n + (Json.hexValue? c).getD 0) 0)
  else none

/-- The natural number that digits name, with the base their first characters give. -/
def nat? (cs : List Char) : Option Nat :=
  match withoutUnderscores cs with
  | '0' :: x :: rest =>
    if x = 'x' || x = 'X' then inBase 16 rest
    else if x = 'o' || x = 'O' then inBase 8 rest
    else if x = 'b' || x = 'B' then inBase 2 rest
    else inBase 8 (x :: rest)
  | digits => inBase 10 digits

/-- The constant that a number spells. -/
def value? (spelling : String) : Option Value :=
  let (negative, cs) := match spelling.toList with
    | '-' :: cs => (true, cs)
    | '+' :: cs | cs => (false, cs)
  match nat? cs with
  | some n =>
    let value : Int := if negative then -n else n
    if -Int.pow 2 63 ≤ value && value < Int.pow 2 63 then some (.int value) else none
  | none =>
    let cs := withoutUnderscores cs
    let digits := cs.takeWhile fun c => c.isDigit || c = '.'
    let power := cs.dropWhile fun c => c.isDigit || c = '.'
    let spelled := (digits.any Char.isDigit)
      && (power.isEmpty || power.any Char.isDigit)
      && cs.any fun c => c = '.' || c = 'e' || c = 'E'
    if spelled then
      (Binary64.parse? (String.ofList (if negative then '-' :: cs else cs))).map .number
    else none

end Number

end SchemaCompiler.Template
