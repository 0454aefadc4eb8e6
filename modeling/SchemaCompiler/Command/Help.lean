import SchemaCompiler.Command.Flag

/-!
# Help

How a program and its commands are used: a line of usage, then the flags in columns, wrapped to the
width of a terminal.
-/

namespace SchemaCompiler.Help

/-- The width of a terminal. -/
def columns : Nat := 80

/-- Breaks a line at spaces where it is longer than `width`; the budget is its length. -/
def wrapLine (width : Nat) : (budget : Nat) → List Char → List String
  | 0, _ => []
  | budget + 1, line =>
    if line.isEmpty then []
    else if line.length ≤ width then [String.ofList line]
    else
      match Text.splitLast? ' ' (line.take width) with
      | some (before, _) =>
        (String.ofList before).trimAscii.toString
          :: wrapLine width budget ((line.drop before.length).dropWhile (· = ' '))
      | none =>
        (String.ofList (line.take (width - 1)) ++ "-\n")
          :: wrapLine width budget ((line.drop (width - 1)).dropWhile (· = ' '))

/-- Wraps a text; lines after the first stand behind `margin` blanks. -/
def wrap (width margin : Nat) (text : String) : String :=
  Text.joinWith ("\n" ++ Text.spaces margin)
    (wrapLine (max width 10) text.length text.toList)

/-- The choices of a flag behind its name. -/
def choicesText (f : Flag) : String :=
  if f.choices.isEmpty then "" else "[" ++ Text.joinWith "|" f.choices ++ "]"

/-- Where descriptions start: behind the longest name.  Names of a command's own flags stand four
blanks further in. -/
def descriptionColumn (command : Option CommandSpec) : Nat :=
  let own := (command.map fun c =>
    (c.positional.map fun p => p.name.length + 4).toList
      ++ c.flags.map fun f => (f.long ++ choicesText f).length + 4).getD []
  (own ++ [Flag.help.long.length]).foldl max 0 + 10

def flagText (column : Nat) (inner : Bool) (f : Flag) : String :=
  let head := Text.spaces (if inner then 6 else 2)
    ++ (match f.short with
      | some c => "-" ++ String.singleton c ++ ", --"
      | none => "    --")
    ++ f.long ++ (if f.takesValue then "=" else "") ++ choicesText f
  let description := f.description
    ++ (if f.default = "" then "" else " (default: " ++ f.default ++ ")")
    ++ (if f.environment = "" then "" else " [$" ++ f.environment ++ "]")
  head ++ Text.spaces (column - head.length) ++ wrap (columns - column) column description ++ "\n"

def usage (program : String) : Option CommandSpec → String
  | none => "  " ++ program ++ " [OPTIONS] <command>\n"
  | some c =>
    "  " ++ program ++ " [OPTIONS] " ++ c.name
      ++ (if c.flags.isEmpty then "" else " [" ++ c.name ++ "-OPTIONS]")
      ++ ((c.positional.map fun p => " [" ++ p.name ++ "]").getD "") ++ "\n\n"
      ++ wrap columns 0 c.description ++ "\n"

def commandText (column : Nat) (c : CommandSpec) : String :=
  "\n[" ++ c.name ++ " command options]\n" ++ String.join (c.flags.map (flagText column true))
    ++ match c.positional with
      | none => ""
      | some p =>
        let head := "  " ++ p.name ++ ":"
        "\n[" ++ c.name ++ " command arguments]\n" ++ head ++ Text.spaces (column - head.length)
          ++ wrap (columns - 1 - column) column p.description ++ "\n"

/-- The commands by name, with what they do. -/
def commandList (commands : List CommandSpec) : String :=
  let width := (commands.map (·.name.length)).foldl max 0
  let sorted := commands.mergeSort fun a b => Text.le a.name b.name
  "\nAvailable commands:\n" ++ String.join (sorted.map fun c =>
    "  " ++ Text.padRight width c.name ++ "  " ++ c.summary ++ "\n")

def text (program : String) (commands : List CommandSpec) (command : Option CommandSpec) : String :=
  let column := descriptionColumn command
  "Usage:\n" ++ usage program command ++ "\nHelp Options:\n" ++ flagText column false Flag.help
    ++ match command with
      | none => commandList commands
      | some c => commandText column c

end SchemaCompiler.Help
