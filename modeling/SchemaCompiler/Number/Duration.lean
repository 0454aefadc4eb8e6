import SchemaCompiler.Text.Quoted

/-!
# Durations

A duration is a number of nanoseconds in a signed 64-bit word.  Its text has the largest units that
it fills: hours, minutes and seconds from one second on, else one of the smaller units, each with
the decimals that it needs.  Reading takes the same units in any order.
-/

namespace SchemaCompiler

/-- The value of an integer in a signed 64-bit word. -/
def wrap64 (n : Int) : Int :=
  (n + Int.pow 2 63) % Int.pow 2 64 - Int.pow 2 63

/-- A number of nanoseconds. -/
abbrev Duration := Int

namespace Duration

def trimZeros (digits : List Char) : List Char :=
  (digits.reverse.dropWhile (· = '0')).reverse

/-- Left-pads a number with zeros. -/
def padded (width n : Nat) : String :=
  let digits := toString n
  String.ofList (List.replicate (width - digits.length) '0') ++ digits

/-- The number `n / 10 ^ places` with the decimals that it needs. -/
def decimal (n places : Nat) : String :=
  let whole := n / Nat.pow 10 places
  let fraction := trimZeros (padded places (n % Nat.pow 10 places)).toList
  if fraction.isEmpty then toString whole
  else toString whole ++ "." ++ String.ofList fraction

def magnitudeText (n : Nat) : String :=
  if n = 0 then "0s"
  else if n < 1000 then toString n ++ "ns"
  else if n < 1000000 then decimal n 3 ++ "µs"
  else if n < 1000000000 then decimal n 6 ++ "ms"
  else
    let minutes := n / 60000000000
    let seconds := decimal (n % 60000000000) 9 ++ "s"
    if minutes = 0 then seconds
    else if minutes < 60 then toString minutes ++ "m" ++ seconds
    else toString (minutes / 60) ++ "h" ++ toString (minutes % 60) ++ "m" ++ seconds

def text (d : Duration) : String :=
  (if d < 0 then "-" else "") ++ magnitudeText d.natAbs

/-! ## Reading -/

/-- Why a text is no duration. -/
inductive Fault where
  | invalid
  | missingUnit
  | unknownUnit (unit : String)
  deriving DecidableEq, Repr

def Fault.message (text : String) : Fault → String
  | invalid => "time: invalid duration " ++ Text.quoted text
  | missingUnit => "time: missing unit in duration " ++ Text.quoted text
  | unknownUnit unit =>
    "time: unknown unit " ++ Text.quoted unit ++ " in duration " ++ Text.quoted text

/-- The nanoseconds of a unit. -/
def unit? : String → Option Nat
  | "ns" => some 1
  | "us" | "µs" | "μs" => some 1000
  | "ms" => some 1000000
  | "s" => some 1000000000
  | "m" => some 60000000000
  | "h" => some 3600000000000
  | _ => none

def digitsValue (digits : List Char) : Nat :=
  digits.foldl (fun n d => 10 * n + (d.toNat - 48)) 0

/-- The digits of a fraction, and what follows. -/
def fraction : List Char → List Char × List Char
  | '.' :: rest => (rest.takeWhile Char.isDigit, rest.dropWhile Char.isDigit)
  | rest => ([], rest)

/-- The nanoseconds of one number and its unit, and what follows. -/
def readPart (cs : List Char) : Except Fault (Nat × List Char) :=
  let whole := cs.takeWhile Char.isDigit
  let (part, rest) := fraction (cs.dropWhile Char.isDigit)
  let name := rest.takeWhile fun c => !(c = '.' || c.isDigit)
  if whole.isEmpty && part.isEmpty then .error .invalid
  else if name.isEmpty then .error .missingUnit
  else
    match unit? (String.ofList name) with
    | none => .error (.unknownUnit (String.ofList name))
    | some unit =>
      let n := digitsValue whole * unit + digitsValue part * unit / Nat.pow 10 part.length
      if n ≤ Nat.pow 2 63 then .ok (n, rest.drop name.length) else .error .invalid

/-- The sum of all parts; each takes a character at least. -/
def readParts : (budget : Nat) → Nat → List Char → Except Fault Nat
  | _, total, [] => .ok total
  | 0, _, _ => .error .invalid
  | budget + 1, total, cs =>
    match readPart cs with
    | .error fault => .error fault
    | .ok (n, rest) =>
      if total + n ≤ Nat.pow 2 63 then readParts budget (total + n) rest else .error .invalid

def readMagnitude (cs : List Char) : Except Fault Nat :=
  if cs = ['0'] then .ok 0
  else if cs.isEmpty then .error .invalid
  else readParts cs.length 0 cs

/-- Reads a duration: numbers with their units one after the other, behind an optional sign. -/
def parse (text : String) : Except Fault Duration :=
  match text.toList with
  | '-' :: rest => (readMagnitude rest).map fun n => -(n : Int)
  | cs =>
    let rest := match cs with
      | '+' :: rest => rest
      | _ => cs
    match readMagnitude rest with
    | .error fault => .error fault
    | .ok n => if n < Nat.pow 2 63 then .ok n else .error .invalid

end Duration

end SchemaCompiler
