import SchemaCompiler.Json.Reading

/-!
# YAML documents

A document is a tree of scalars, sequences and mappings.  A scalar without quotes may stand for a
number, a truth value or nothing at all; which, is said by its text.
-/

namespace SchemaCompiler.Yaml

open Json

inductive Node where
  | scalar (text : String) (plain : Bool)
  | sequence (items : List Node)
  | mapping (entries : List (String × Node))
  deriving Repr, Inhabited

/-- What a text without quotes stands for. -/
inductive Kind where
  | null
  | bool
  | int (value : Int)
  | float
  | timestamp
  | text
  deriving DecidableEq, Repr

def nullTexts : List String := ["", "~", "null", "Null", "NULL"]

def boolTexts : List String := ["true", "True", "TRUE", "false", "False", "FALSE"]

def specialFloats : List String :=
  [".nan", ".NaN", ".NAN", ".inf", ".Inf", ".INF", "+.inf", "+.Inf", "+.INF", "-.inf", "-.Inf",
    "-.INF"]

def digitValue? (c : Char) : Option Nat :=
  if c.isDigit then some (c.toNat - '0'.toNat)
  else if 'a' ≤ c && c ≤ 'f' then some (c.toNat - 'a'.toNat + 10)
  else if 'A' ≤ c && c ≤ 'F' then some (c.toNat - 'A'.toNat + 10)
  else none

/-- The number that digits of a base spell. -/
def digits? (base : Nat) (cs : List Char) : Option Nat :=
  if cs.isEmpty then none
  else
    cs.foldlM (fun n c =>
      match digitValue? c with
      | some d => if d < base then some (n * base + d) else none
      | none => none) 0

/-- The number that digits spell; their head may name another base. -/
def magnitude? : List Char → Option Nat
  | '0' :: c :: rest =>
    if c = 'x' || c = 'X' then digits? 16 rest
    else if c = 'b' || c = 'B' then digits? 2 rest
    else if c = 'o' || c = 'O' then digits? 8 rest
    else digits? 8 (c :: rest)
  | cs => digits? 10 cs

/-- The integer that a text spells, if it fits a machine word. -/
def int? (cs : List Char) : Option Int :=
  match cs with
  | '-' :: rest => (magnitude? rest).bind fun n => if n ≤ Nat.pow 2 63 then some (-n) else none
  | '+' :: rest => (magnitude? rest).bind fun n => if n < Nat.pow 2 64 then some n else none
  | cs => (magnitude? cs).bind fun n => if n < Nat.pow 2 64 then some n else none

def dropSign : List Char → List Char
  | '-' :: rest | '+' :: rest => rest
  | cs => cs

/-- Whether a text is the exponent of a number, or nothing. -/
def isExponent : List Char → Bool
  | [] => true
  | e :: rest =>
    (e = 'e' || e = 'E') &&
      (let digits := dropSign rest; !digits.isEmpty && digits.all Char.isDigit)

/-- Whether a text is a decimal number. -/
def isFloat (cs : List Char) : Bool :=
  let cs := dropSign cs
  let whole := cs.takeWhile Char.isDigit
  match cs.dropWhile Char.isDigit with
  | '.' :: rest =>
    (!whole.isEmpty || (rest.head?.any Char.isDigit)) && isExponent (rest.dropWhile Char.isDigit)
  | rest => !whole.isEmpty && isExponent rest

/-- The leading digits of a text, from `least` to `most` of them, and what follows. -/
def someDigits? (least most : Nat) (cs : List Char) : Option (Nat × List Char) :=
  let found := (cs.takeWhile Char.isDigit).take most
  if found.length < least then none
  else (digits? 10 found).map fun n => (n, cs.drop found.length)

def isZone : List Char → Bool
  | [] | ['Z'] => true
  | [sign, a, b, ':', c, d] => (sign = '+' || sign = '-') && [a, b, c, d].all Char.isDigit
  | _ => false

def isClock (zoned : Bool) (cs : List Char) : Bool :=
  match someDigits? 1 2 cs with
  | some (h, ':' :: rest) =>
    match someDigits? 1 2 rest with
    | some (m, ':' :: rest) =>
      match someDigits? 1 2 rest with
      | some (s, rest) =>
        let rest := match rest with
          | '.' :: more => more.dropWhile Char.isDigit
          | more => more
        h < 24 && m < 60 && s < 60 && (if zoned then isZone rest && !rest.isEmpty else rest.isEmpty)
      | none => false
    | _ => false
  | _ => false

/-- Whether a text is a date, perhaps with a time of day. -/
def isTimestamp (cs : List Char) : Bool :=
  match someDigits? 4 4 cs with
  | some (_, '-' :: rest) =>
    match someDigits? 1 2 rest with
    | some (month, '-' :: rest) =>
      match someDigits? 1 2 rest with
      | some (day, rest) =>
        1 ≤ month && month ≤ 12 && 1 ≤ day && day ≤ 31 &&
        match rest with
        | [] => true
        | 'T' :: clock | 't' :: clock => isClock true clock
        | ' ' :: clock => isClock false clock
        | _ => false
      | none => false
    | _ => false
  | _ => false

/-- What a text without quotes stands for. -/
def kindOf (text : String) : Kind :=
  let cs := text.toList
  let bare := cs.filter (· ≠ '_')
  if nullTexts.contains text then .null
  else if boolTexts.contains text then .bool
  else if specialFloats.contains text then .float
  else
    match cs with
    | [] => .null
    | c :: _ =>
      if c.isDigit || c = '+' || c = '-' then
        if isTimestamp cs then .timestamp
        else
          match int? bare with
          | some n => .int n
          | none => if isFloat bare then .float else .text
      else if c = '.' && isFloat cs then .float
      else .text

/-! ## Reading typed values -/

/-- The end of a reading: a mismatch refuses the document. -/
def finish {α : Type} : Reading α → Outcome α
  | .error failure => .error failure
  | .ok (value, none) => .ok value
  | .ok (_, some _) => .error (.malformed .yaml)

/-- A node of another kind than the one that was to be read, for which there are no words here. -/
def misfit {α : Type} (old : α) : Reading α := .mismatch old ⟨"", "", "", []⟩

namespace Node

def isNull : Node → Bool
  | scalar text true => kindOf text = .null
  | _ => false

/-- A text; numbers and truth values count by their spelling. -/
def readText (old : String) : Node → Reading String
  | scalar text plain => if (scalar text plain).isNull then .clean old else .clean text
  | _ => misfit old

/-- The power of ten at the end of a decimal number. -/
def exponent (cs : List Char) : Int :=
  match cs with
  | _ :: rest =>
    let n : Int := (digits? 10 (dropSign rest)).getD 0
    if rest.head? = some '-' then -n else n
  | [] => 0

/-- The whole part of a decimal number, unless it is too large for a machine word. -/
def truncated? (text : String) : Option Int :=
  let cs := text.toList.filter (· ≠ '_')
  let body := dropSign cs
  let whole := body.takeWhile Char.isDigit
  let (fraction, tail) := match body.dropWhile Char.isDigit with
    | '.' :: rest => (rest.takeWhile Char.isDigit, rest.dropWhile Char.isDigit)
    | rest => ([], rest)
  let power := exponent tail - fraction.length
  let n := (digits? 10 (whole ++ fraction)).getD 0
  let size := if 0 ≤ power then n * Nat.pow 10 (min power.toNat 400)
    else n / Nat.pow 10 (min (-power).toNat (whole.length + fraction.length + 1))
  if Nat.pow 2 63 ≤ size then none else some (if cs.head? = some '-' then -size else size)

/-- An integer; the fraction of a decimal number is cut off. -/
def readInt (old : Int) : Node → Reading Int
  | scalar text true =>
    match kindOf text with
    | .null => .clean old
    | .int n => if n < Int.pow 2 63 then .clean n else misfit old
    | .float =>
      if specialFloats.contains text then misfit old
      else
        match truncated? text with
        | some n => .clean n
        | none => misfit old
    | _ => misfit old
  | _ => misfit old

/-- The items of a list, each read over a blank value. -/
def readItems {α : Type} (read : α → Node → Reading α) (blank : α) :
    List Node → Reading (List α)
  | [] => .clean []
  | n :: rest => do
    let item ← read blank n
    return item :: (← readItems read blank rest)

/-- A list that may be missing. -/
def readList? {α : Type} (read : α → Node → Reading α) (blank : α) (old : Option (List α)) :
    Node → Reading (Option (List α))
  | sequence items => do return some (← readItems read blank items)
  | n => if n.isNull then .clean none else misfit old

def readTexts? (old : Option (List String)) (n : Node) : Reading (Option (List String)) :=
  readList? readText "" old n

/-- The members of a record; members of other names are passed over. -/
def readEntries {α : Type} (read : α → String → Node → Reading α) :
    α → List (String × Node) → Reading α
  | a, [] => .clean a
  | a, (name, n) :: rest => (read a name n).andThen fun a => readEntries read a rest

/-- A record, of which no name may occur twice. -/
def readRecord {α : Type} (read : α → String → Node → Reading α) (old : α) :
    Node → Reading α
  | mapping entries =>
    if (entries.map (·.1)).Nodup then readEntries read old entries else misfit old
  | n => if n.isNull then .clean old else misfit old

/-- A record that may be missing. -/
def readRecord? {α : Type} (read : α → String → Node → Reading α) (blank : α)
    (old : Option α) (n : Node) : Reading (Option α) :=
  if n.isNull then .clean none
  else do return some (← readRecord read (old.getD blank) n)

end Node

end SchemaCompiler.Yaml
