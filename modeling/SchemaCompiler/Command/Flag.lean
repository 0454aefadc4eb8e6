import SchemaCompiler.Number.Duration
import SchemaCompiler.Template.Token
import SchemaCompiler.Text

/-!
# Flags

A command line is a command, its flags and further arguments in any order.  A flag has a long name
and may have a short one; it is a switch or takes a value.  Short flags may stand together behind
one dash, and a value may stand behind an equals sign, in the next argument or, for a short flag,
right behind its letter.
-/

namespace SchemaCompiler

inductive FlagKind where
  | switch
  | text
  | texts
  | duration
  deriving DecidableEq, Repr

def FlagKind.typeName : FlagKind → String
  | switch => "bool"
  | text => "string"
  | texts => "[]string"
  | duration => "time.Duration"

structure Flag where
  short : Option Char
  long : String
  kind : FlagKind
  /-- The values that it may have; any if empty. -/
  choices : List String
  /-- The value of a flag that is not given; none if empty. -/
  default : String
  /-- The variable of the environment that gives its value otherwise; none if empty. -/
  environment : String
  description : String
  deriving DecidableEq, Repr

namespace Flag

def takesValue (f : Flag) : Bool := f.kind ≠ .switch

/-- How messages call a flag. -/
def label (f : Flag) : String :=
  match f.short with
  | some c => "-" ++ String.singleton c ++ ", --" ++ f.long
  | none => "--" ++ f.long

def help : Flag := ⟨some 'h', "help", .switch, [], "", "", "Show this help message"⟩

end Flag

/-- An argument that is named by its place. -/
structure Positional where
  name : String
  description : String
  deriving DecidableEq, Repr

structure CommandSpec where
  name : String
  summary : String
  description : String
  flags : List Flag
  positional : Option Positional
  deriving DecidableEq, Repr

/-- Why a command line cannot be understood. -/
inductive UsageFault where
  | unknownCommand (name : String) (commands : List String)
  | missingCommand (commands : List String)
  | unknownFlag (name : String)
  | missingValue (flag : Flag)
  | optionForValue (flag : Flag) (found : String)
  | dashesForValue (flag : Flag)
  | valueForSwitch (flag : Flag)
  | noChoice (flag : Flag) (value : String)
  | unreadable (flag : Flag) (reason : String)
  /-- Not a fault, but a question. -/
  | help (command : Option CommandSpec)
  deriving Repr

namespace UsageFault

def quote (text : String) : String := "\x60" ++ text ++ "'"

/-- A list with its last item set off. -/
def alternatives (items : List String) : String :=
  match items.reverse with
  | [] => ""
  | [item] => item
  | last :: rest => Text.joinWith ", " rest.reverse ++ " or " ++ last

def commandChoice : List String → String
  | [] => ""
  | [name] => "Please specify the " ++ name ++ " command"
  | names => "Please specify one command of: " ++ alternatives names

/-- What may have been meant: a command at less than half its length from the name. -/
def suggestion (name : String) (commands : List String) : Option String :=
  (Text.nearest name commands).bind fun (best, d) =>
    if 2 * d < best.utf8ByteSize then some best else none

def unknownCommandText (name : String) (commands : List String) : String :=
  "Unknown command " ++ quote name ++
    match suggestion name commands, commands with
    | some best, _ => ", did you mean " ++ quote best ++ "?"
    | none, [] => ""
    | none, [only] => ". You should use the " ++ only ++ " command"
    | none, _ => ". " ++ commandChoice commands

/-- The message of a fault; the help that was asked for is written elsewhere. -/
def message : UsageFault → String
  | unknownCommand name commands => unknownCommandText name commands
  | missingCommand commands => commandChoice commands
  | unknownFlag name => "unknown flag " ++ quote name
  | missingValue flag => "expected argument for flag " ++ quote flag.label
  | optionForValue flag found =>
    "expected argument for flag " ++ quote flag.label ++ ", but got option " ++ quote found
  | dashesForValue flag =>
    "expected argument for flag " ++ quote flag.label ++ ", but got double dash " ++ quote "--"
  | valueForSwitch flag => "bool flag " ++ quote flag.label ++ " cannot have an argument"
  | noChoice flag value =>
    "Invalid value " ++ quote value ++ " for option " ++ quote flag.label
      ++ ". Allowed values are: " ++ alternatives flag.choices
  | unreadable flag reason =>
    "invalid argument for flag " ++ quote flag.label ++ " (expected " ++ flag.kind.typeName ++ "): "
      ++ reason
  | help _ => ""

end UsageFault

/-- What was read of a command line so far. -/
structure CommandLine where
  command : Option CommandSpec
  /-- The flags that were given, by their long names and in order. -/
  given : List (String × String)
  /-- The other arguments. -/
  loose : List String
  deriving Repr

namespace CommandLine

def empty : CommandLine := ⟨none, [], []⟩

/-- Whether an argument is written as a flag. -/
def isFlag : List Char → Bool
  | '-' :: '-' :: c :: _ | '-' :: c :: _ => c ≠ '-'
  | _ => false

/-- A value between quotes stands for what is quoted. -/
def unquoted? (value : String) : Option String :=
  match value.toList with
  | '"' :: rest =>
    match Template.Token.quotedText? rest.length rest with
    | some (text, []) => some (String.ofList text)
    | _ => none
  | _ => some value

def flags (line : CommandLine) : List Flag :=
  (line.command.map (·.flags)).getD [] ++ [Flag.help]

def long? (line : CommandLine) (name : String) : Option Flag :=
  line.flags.find? (·.long = name)

def short? (line : CommandLine) (name : Char) : Option Flag :=
  line.flags.find? (·.short = some name)

/-- The value of a flag as it was written, checked. -/
def valueOf (f : Flag) (written : String) : Except UsageFault String :=
  match unquoted? written with
  | none => .error (.unreadable f "invalid syntax")
  | some value =>
    if !f.choices.isEmpty && !f.choices.contains value then .error (.noChoice f value)
    else if f.kind = .duration then
      match Duration.parse value with
      | .error fault => .error (.unreadable f (fault.message value))
      | .ok _ => .ok value
    else .ok value

def setSwitch (line : CommandLine) (f : Flag) : Except UsageFault CommandLine :=
  if f = Flag.help then .error (.help line.command)
  else .ok { line with given := line.given ++ [(f.long, "")] }

def setValue (line : CommandLine) (f : Flag) (written : String) :
    Except UsageFault CommandLine :=
  (valueOf f written).map fun value => { line with given := line.given ++ [(f.long, value)] }

/-- Whether an argument is a negative number where one is expected. -/
def isNegative (f : Flag) (written : String) : Bool :=
  f.kind = .duration && match written.toList with
    | '-' :: c :: _ => c.isDigit
    | _ => false

def nextValue (f : Flag) : List String → Except UsageFault (String × List String)
  | [] => .error (.missingValue f)
  | written :: rest =>
    if isFlag written.toList && !isNegative f written then .error (.optionForValue f written)
    else if written = "--" then .error (.dashesForValue f)
    else .ok (written, rest)

/-- Reads a flag with the value attached to it, if any, or the next argument for its value. -/
def readFlag (line : CommandLine) (f : Flag) (attached : Option String) (rest : List String) :
    Except UsageFault (CommandLine × List String) :=
  match f.takesValue, attached with
  | false, none => (line.setSwitch f).map (·, rest)
  | false, some _ => .error (.valueForSwitch f)
  | true, some written => (line.setValue f written).map (·, rest)
  | true, none => do
    let (written, rest) ← nextValue f rest
    return (← line.setValue f written, rest)

/-- A name and the text behind the first equals sign. -/
def splitAtEquals (cs : List Char) : List Char × Option String :=
  match cs.dropWhile (· ≠ '=') with
  | [] => (cs, none)
  | _ :: value => (cs.takeWhile (· ≠ '='), some (String.ofList value))

def readLong (line : CommandLine) (cs : List Char) (rest : List String) :
    Except UsageFault (CommandLine × List String) :=
  let (name, attached) := splitAtEquals cs
  match line.long? (String.ofList name) with
  | none => .error (.unknownFlag (String.ofList name))
  | some f => line.readFlag f attached rest

/-- Reads short flags that stand together; only the last can take the next argument. -/
def readCluster : CommandLine → List Char → List String →
    Except UsageFault (CommandLine × List String)
  | line, [], rest => .ok (line, rest)
  | line, c :: more, rest =>
    match line.short? c with
    | none => .error (.unknownFlag (String.singleton c))
    | some f =>
      if more.isEmpty then line.readFlag f none rest
      else if f.takesValue then .error (.missingValue f)
      else
        match line.setSwitch f with
        | .error fault => .error fault
        | .ok line => readCluster line more rest

/-- Reads what follows a single dash. -/
def readShort (line : CommandLine) (cs : List Char) (rest : List String) :
    Except UsageFault (CommandLine × List String) :=
  match cs with
  | c :: '=' :: value =>
    match line.short? c with
    | none => .error (.unknownFlag (String.singleton c))
    | some f => line.readFlag f (some (String.ofList value)) rest
  | c :: d :: more =>
    match line.short? c with
    | some f =>
      if f.takesValue then line.readFlag f (some (String.ofList (d :: more))) rest
      else line.readCluster cs rest
    | none => line.readCluster cs rest
  | _ => line.readCluster cs rest

/-- Reads arguments one after the other; each step takes one at least.  Without a command, the
first argument that is no flag must name one. -/
def readWithin (commands : List CommandSpec) :
    (budget : Nat) → CommandLine → List String → Except UsageFault CommandLine
  | _, line, [] | 0, line, _ => .ok line
  | budget + 1, line, arg :: rest =>
    if arg = "--" then .ok { line with loose := line.loose ++ rest }
    else
      match arg.toList, isFlag arg.toList with
      | '-' :: '-' :: cs, true => do
        let (line, rest) ← line.readLong cs rest
        readWithin commands budget line rest
      | '-' :: cs, true => do
        let (line, rest) ← line.readShort cs rest
        readWithin commands budget line rest
      | _, _ =>
        match line.command, commands.find? (·.name = arg) with
        | none, some command => readWithin commands budget { line with command } rest
        | none, none => .ok { line with loose := line.loose ++ [arg] }
        | some _, _ => readWithin commands budget { line with loose := line.loose ++ [arg] } rest

def commandNames (commands : List CommandSpec) : List String :=
  Text.sort (commands.map (·.name))

/-- Reads a command line; the command must be there. -/
def read (commands : List CommandSpec) (args : List String) :
    Except UsageFault (CommandSpec × CommandLine) := do
  let line ← readWithin commands args.length empty args
  match line.command, line.loose with
  | some command, _ => return (command, line)
  | none, name :: _ => .error (.unknownCommand name (commandNames commands))
  | none, [] => .error (.missingCommand (commandNames commands))

/-- All values of a flag. -/
def values (line : CommandLine) (long : String) : List String :=
  line.given.filterMap fun (name, value) => if name = long then some value else none

def isGiven (line : CommandLine) (long : String) : Bool :=
  line.given.any (·.1 = long)

/-- The last value of a flag, or another if there is none. -/
def value (line : CommandLine) (long : String) (otherwise : String) : String :=
  ((line.values long).getLast?).getD otherwise

end CommandLine

end SchemaCompiler
