import SchemaCompiler.Template.Value
import SchemaCompiler.Text.LetterCase

/-!
# Formats

Texts with places for values: a percent sign, marks, a width, a precision, and a verb that says
how the value of the place is written.
-/

namespace SchemaCompiler.Template

/-- A place in a format. -/
structure Place where
  left : Bool := false
  plus : Bool := false
  sharp : Bool := false
  blank : Bool := false
  zero : Bool := false
  width : Option Nat := none
  precision : Option Nat := none

namespace Place

/-- Fills a text up to the width of its place. -/
def pad (p : Place) (s : String) : String :=
  match p.width with
  | none => s
  | some w =>
    let mark := if p.zero && !p.left then '0' else ' '
    let fill := String.ofList (List.replicate (w - s.length) mark)
    if p.left then s ++ fill else fill ++ s

/-- Fills a number up to its width; zeros stand behind its sign. -/
def padNumber (p : Place) (sign digits : String) : String :=
  match p.width with
  | none => sign ++ digits
  | some w =>
    if p.zero && !p.left then
      sign ++ String.ofList (List.replicate (w - sign.length - digits.length) '0') ++ digits
    else p.pad (sign ++ digits)

def signOf (p : Place) (negative : Bool) : String :=
  if negative then "-" else if p.plus then "+" else if p.blank then " " else ""

end Place

def digitsIn (base : Nat) (capitals : Bool) (n : Nat) : String :=
  let s := String.ofList (Nat.toDigits base n)
  if capitals then Text.upper s else s

/-- A ratio with a fixed number of places behind the point. -/
def fixedText (num den : Nat) (places : Nat) : String :=
  let n := Binary64.roundDiv (num * Nat.pow 10 places) den
  if places = 0 then toString n
  else
    let digits := (toString n).toList
    let digits := List.replicate (places + 1 - digits.length) '0' ++ digits
    String.ofList (digits.take (digits.length - places)) ++ "."
      ++ String.ofList (digits.drop (digits.length - places))

def exponentText (e : Int) : String :=
  let digits := toString e.natAbs
  (if e < 0 then "e-" else "e+") ++ (if digits.length < 2 then "0" ++ digits else digits)

/-- A number in powers of ten with a number of places behind the point. -/
def scientificText (x : Binary64) (places : Nat) : String :=
  if x.mantissa = 0 then fixedText 0 1 places ++ "e+00"
  else
    let (num, den) := x.ratio
    let scaled (e : Int) : Nat :=
      let k : Int := places - e
      if 0 ≤ k then Binary64.roundDiv (num * Nat.pow 10 k.toNat) den
      else Binary64.roundDiv num (den * Nat.pow 10 (-k).toNat)
    let e := Binary64.pointOf num den - 1
    let e := if Nat.pow 10 (places + 1) ≤ scaled e then e + 1 else e
    let digits := (toString (scaled e)).toList
    let tail := if places = 0 then "" else "." ++ String.ofList (digits.drop 1)
    String.ofList (digits.take 1) ++ tail ++ exponentText e

def hexBytes (capitals : Bool) (s : String) : String :=
  let digits := String.ofList (s.toUTF8.toList.flatMap fun b => Text.hexDigits 2 b.toNat)
  if capitals then Text.upper digits else digits

def badVerb (verb : Char) (v : Value) : String :=
  "%!" ++ String.singleton verb ++ "(" ++ v.described ++ ")"

def formatInt (p : Place) (verb : Char) (n : Int) : Option String :=
  let sign := p.signOf (n < 0)
  let number (base : Nat) (capitals : Bool) (mark : String) : String :=
    p.padNumber (sign ++ (if p.sharp then mark else "")) (digitsIn base capitals n.natAbs)
  match verb with
  | 'v' | 'd' => some (number 10 false "")
  | 'b' => some (number 2 false "0b")
  | 'o' => some (number 8 false "0")
  | 'x' => some (number 16 false "0x")
  | 'X' => some (number 16 true "0X")
  | 'c' => some (p.pad (String.singleton (Char.ofNat n.toNat)))
  | _ => none

def formatNumber (p : Place) (verb : Char) (x : Binary64) : Option String :=
  let sign := p.signOf x.negative
  let (num, den) := x.ratio
  let places := p.precision.getD 6
  match verb with
  | 'v' | 'g' => some (p.padNumber sign { x with negative := false }.text)
  | 'f' | 'F' => some (p.padNumber sign (fixedText num den places))
  | 'e' => some (p.padNumber sign (scientificText x places))
  | _ => none

def formatText (p : Place) (verb : Char) (s : String) : Option String :=
  let s := match p.precision with
    | some n => String.ofList (s.toList.take n)
    | none => s
  match verb with
  | 'v' | 's' => some (p.pad s)
  | 'q' => some (p.pad (Text.quoted s))
  | 'x' => some (p.pad (hexBytes false s))
  | 'X' => some (p.pad (hexBytes true s))
  | _ => none

mutual

def formatValue (p : Place) (verb : Char) : Value → String
  | .absent | .null => if verb = 'v' then p.pad "<nil>" else badVerb verb .null
  | .bool b =>
    if verb = 't' || verb = 'v' then p.pad (toString b) else badVerb verb (.bool b)
  | .int n => (formatInt p verb n).getD (badVerb verb (.int n))
  | .number x => (formatNumber p verb x).getD (badVerb verb (.number x))
  | .text s => (formatText p verb s).getD (badVerb verb (.text s))
  | .bytes b => (formatText p verb "�").getD (badVerb verb (.bytes b))
  | .list items | .records items => "[" ++ Text.joinWith " " (formatValues p verb items) ++ "]"
  | .map members => "map[" ++ Text.joinWith " " (formatMembers p verb members) ++ "]"

def formatValues (p : Place) (verb : Char) : List Value → List String
  | [] => []
  | v :: rest => formatValue p verb v :: formatValues p verb rest

def formatMembers (p : Place) (verb : Char) : List (String × Value) → List String
  | [] => []
  | (key, v) :: rest =>
    ((formatText p verb key).getD (badVerb verb (.text key)) ++ ":" ++ formatValue p verb v)
      :: formatMembers p verb rest

end

/-- What stands between a percent sign and its verb, read so far. -/
inductive Reading where
  | plain
  | marks (place : Place)
  | width (place : Place)
  | precision (place : Place)

def withMark (p : Place) : Char → Option Place
  | '-' => some { p with left := true }
  | '+' => some { p with plus := true }
  | '#' => some { p with sharp := true }
  | ' ' => some { p with blank := true }
  | '0' => some { p with zero := true }
  | _ => none

def writePlace (p : Place) (verb : Char) (args : List Value) : String × List Value :=
  if verb = '%' then ("%", args)
  else
    match args with
    | [] => ("%!" ++ String.singleton verb ++ "(MISSING)", [])
    | v :: rest =>
      if verb = 'T' then (p.pad v.typeName, rest) else (formatValue p verb v, rest)

def digitOf (c : Char) : Nat := c.toNat - 48

def formatFrom (reading : Reading) (args : List Value) : List Char → String
  | [] =>
    let tail := match reading with
      | .plain => ""
      | _ => "%!(NOVERB)"
    if args.isEmpty then tail
    else tail ++ "%!(EXTRA " ++ Text.joinWith ", " (args.map Value.described) ++ ")"
  | c :: rest =>
    let verbAt (p : Place) : String :=
      let (s, args) := writePlace p c args
      s ++ formatFrom .plain args rest
    let go (next : Reading) : String := formatFrom next args rest
    let further (n : Option Nat) : Option Nat := some (10 * n.getD 0 + digitOf c)
    let sized (p : Place) : String :=
      if c.isDigit then go (.width { p with width := further p.width })
      else if c = '.' then go (.precision { p with precision := some 0 })
      else verbAt p
    match reading with
    | .plain => if c = '%' then go (.marks {}) else String.singleton c ++ go .plain
    | .marks p =>
      match withMark p c with
      | some p => go (.marks p)
      | none => sized p
    | .width p => sized p
    | .precision p =>
      if c.isDigit then go (.precision { p with precision := further p.precision })
      else verbAt p

def format (places : String) (args : List Value) : String :=
  formatFrom .plain args places.toList

/-- Values side by side; a blank stands between two that are not texts. -/
def sideBySide : List Value → String
  | [] => ""
  | [v] => v.show
  | v :: next :: rest =>
    let isText : Value → Bool
      | .text _ | .bytes _ => true
      | _ => false
    v.show ++ (if isText v || isText next then "" else " ") ++ sideBySide (next :: rest)

end SchemaCompiler.Template
