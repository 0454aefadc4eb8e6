import SchemaCompiler.Naming
import SchemaCompiler.Template.Format

/-!
# Template functions

Functions take the values of their arguments in order.  A function refuses a number of arguments
or a kind of value that it has no meaning for.
-/

namespace SchemaCompiler.Template

open Text

namespace Value

def text? : Value → Option String
  | text s => some s
  | bytes _ => some "�"
  | _ => none

/-- Compares two values, absent ones only with each other. -/
def equal? : Value → Value → Option Bool
  | bool a, bool b | int a, int b => some (a = b)
  | number a, number b => some (a.mantissa = 0 && b.mantissa = 0 || a = b)
  | text a, text b | bytes a, bytes b => some (a = b)
  | absent, absent | absent, null | null, absent | null, null => some true
  | absent, _ | null, _ | _, absent | _, null => some false
  | _, _ => none

def numberBelow (a b : Binary64) : Bool :=
  let (n, d) := a.ratio
  let (m, e) := b.ratio
  let left : Int := if a.negative then -(n * e : Nat) else (n * e : Nat)
  let right : Int := if b.negative then -(m * d : Nat) else (m * d : Nat)
  left < right

def below? : Value → Value → Option Bool
  | int a, int b => some (a < b)
  | number a, number b => some (numberBelow a b)
  | text a, text b => some (a < b)
  | _, _ => none

def member (key : String) (members : List (String × Value)) : Value :=
  (members.lookup key).getD null

/-- An item of a list, a member of a map or a byte of a text. -/
def at? (v place : Value) : Option Value :=
  match v, place with
  | list items, int i | records items, int i => if i < 0 then none else items[i.toNat]?
  | text s, int i => if i < 0 then none else s.toUTF8.toList[i.toNat]?.map fun b => int b.toNat
  | map members, text key => some (member key members)
  | _, _ => none

def cut? {α : Type} (items : List α) : List Value → Option (List α)
  | [] => some items
  | [int i] => if 0 ≤ i && i ≤ items.length then some (items.drop i.toNat) else none
  | [int i, int j] =>
    if 0 ≤ i && i ≤ j && j ≤ items.length then some ((items.take j.toNat).drop i.toNat) else none
  | _ => none

def slice? (v : Value) (places : List Value) : Option Value :=
  match v with
  | list items => (cut? items places).map list
  | records items => (cut? items places).map records
  | text s => (cut? s.toUTF8.toList places).map (ofContent <| Content.ofBytes ·)
  | _ => none

def size? : Value → Option Nat
  | text s => some s.utf8ByteSize
  | bytes b => some b.length
  | list items | records items => some items.length
  | map members => some members.length
  | _ => none

/-- The items of a list, written and joined; any other value is written as it is. -/
def joined (v : Value) (sep : String) : String :=
  match v with
  | absent | null => ""
  | list items => joinWith sep (items.map «show»)
  | v => v.show

end Value

/-- The text that escaping functions work on. -/
def sideText (args : List Value) : String :=
  sideBySide (args.map fun v => match v with
    | .absent | .null => .text "<no value>"
    | v => v)

def markupEscape (c : Char) : String :=
  match c with
  | '\'' => "&#39;"
  | '"' => "&#34;"
  | '&' => "&amp;"
  | '<' => "&lt;"
  | '>' => "&gt;"
  | c => if c.toNat = 0 then "�" else String.singleton c

def scriptEscape (c : Char) : String :=
  if c = '\\' then "\\\\"
  else if c = '\'' then "\\'"
  else if c = '"' then "\\\""
  else if c ∈ ['<', '>', '&', '='] || c.toNat < 0x20 || !Text.isPrintable c then
    "\\u" ++ upper (String.ofList (hexDigits 4 c.toNat))
  else String.singleton c

def queryEscape (c : Char) : String :=
  if c.isAlphanum || c ∈ ['-', '_', '.', '~'] then String.singleton c
  else if c = ' ' then "+"
  else
    joinWith "" ((String.singleton c).toUTF8.toList.map fun b =>
      "%" ++ upper (String.ofList (hexDigits 2 b.toNat)))

def escapedWith (escape : Char → String) (s : String) : String :=
  joinWith "" (s.toList.map escape)

/-- A function of one text. -/
def onText (f : String → Option Value) : List Value → Option Value
  | [v] => v.text?.bind f
  | _ => none

def camelValue (s : String) : Option Value :=
  (Naming.camel s).map (Value.ofContent <| Content.ofBytes ·)

def equalsOne? (v : Value) : List Value → Option Bool
  | [] => some false
  | w :: rest => do if ← v.equal? w then some true else equalsOne? v rest

def comparison (f : Value → Value → Option Bool) : List Value → Option Value
  | [a, b] => (f a b).map .bool
  | _ => none

/-- Calls a function; `and` and `or` are not among these since they leave arguments alone. -/
def call? (name : String) (args : List Value) : Option Value :=
  match name with
  | "snake" => onText (some <| .text <| Naming.snake ·) args
  | "pascal" => onText (some <| .text <| Naming.pascal ·) args
  | "camel" => onText camelValue args
  | "plural" => onText (some <| .text <| Naming.plural ·) args
  | "quote" => onText (some <| .text <| Naming.quoteReserved ·) args
  | "upper" => onText (some <| .text <| upper ·) args
  | "title" => onText (some <| .text <| title ·) args
  | "join" =>
    match args with
    | [v, sep] => sep.text?.map fun sep => .text (v.joined sep)
    | _ => none
  | "not" =>
    match args with
    | [v] => some (.bool !v.truth)
    | _ => none
  | "len" =>
    match args with
    | [v] => v.size?.map fun n => .int n
    | _ => none
  | "index" =>
    match args with
    | [] | .absent :: _ | .null :: _ => none
    | v :: places => places.foldlM Value.at? v
  | "slice" =>
    match args with
    | [] => none
    | v :: places => v.slice? places
  | "print" => some (.text (sideBySide args))
  | "println" => some (.text (joinWith " " (args.map Value.show) ++ "\n"))
  | "printf" =>
    match args with
    | [] => none
    | places :: args => places.text?.map fun places => .text (format places args)
  | "eq" =>
    match args with
    | [] | [_] => none
    | v :: rest => (equalsOne? v rest).map .bool
  | "ne" => comparison (fun a b => (a.equal? b).map (!·)) args
  | "lt" => comparison Value.below? args
  | "le" => comparison (fun a b => do return (← a.below? b) || (← a.equal? b)) args
  | "gt" => comparison (fun a b => do return !((← a.below? b) || (← a.equal? b))) args
  | "ge" => comparison (fun a b => do return !(← a.below? b)) args
  | "html" => some (.text (escapedWith markupEscape (sideText args)))
  | "js" => some (.text (escapedWith scriptEscape (sideText args)))
  | "urlquery" => some (.text (escapedWith queryEscape (sideText args)))
  | _ => none

end SchemaCompiler.Template
