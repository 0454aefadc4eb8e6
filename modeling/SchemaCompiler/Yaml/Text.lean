import SchemaCompiler.Yaml.Node

/-!
# Writing YAML

Documents whose scalars are texts.  A text is written without quotes when it reads back as the same
text, else between single quotes, or between double quotes if it would stand for something else or
has characters that need an escape.
-/

namespace SchemaCompiler.Yaml

open Text

/-- Texts that some readers take for truth values. -/
def oldBools : List String :=
  ["y", "Y", "yes", "Yes", "YES", "on", "On", "ON", "n", "N", "no", "No", "NO", "off", "Off",
    "OFF"]

/-- Whether a text is a number in minutes and seconds, as in `1:30`. -/
def isSexagesimal (cs : List Char) : Bool :=
  let cs := dropSign cs
  let groups := cs.splitOn ':'
  match groups with
  | first :: more :: rest =>
    let tail := more :: rest
    first.head?.any Char.isDigit && first.all (fun c => c.isDigit || c = '_')
      && tail.dropLast.all isGroup
      && (match (tail.getLast?.getD []).splitOn '.' with
        | [last] => isGroup last
        | [last, fraction] => isGroup last && fraction.all fun c => c.isDigit || c = '_'
        | _ => false)
  | _ => false
where
  isGroup : List Char → Bool
    | [a] => a.isDigit
    | [a, b] => '0' ≤ a && a ≤ '5' && b.isDigit
    | _ => false

/-- Whether a character stands for itself in every style. -/
def isOrdinary (c : Char) : Bool :=
  let n := c.toNat
  n = 0x0A || (0x20 ≤ n && n ≤ 0x7E) || (0xA0 ≤ n && n ≤ 0xD7FF)
    || (0xE000 ≤ n && n ≤ 0xFFFD && n ≠ 0xFEFF)

def isLineBreak (c : Char) : Bool :=
  c = '\r' || c = '\n' || c.toNat = 0x85 || c.toNat = 0x2028 || c.toNat = 0x2029

/-- Whether a sign inside a text would end it or open something else. -/
def hasIndicator (before : Bool) : List Char → Bool
  | [] => false
  | c :: rest =>
    (c = ':' && (rest.isEmpty || rest.head?.any fun d => d = ' ' || d = '\t'))
      || (c = '#' && before)
      || hasIndicator (c = ' ' || c = '\t' || isLineBreak c) rest

/-- Whether a text may not start this way without quotes. -/
def opensOther : List Char → Bool
  | [] => false
  | c :: rest =>
    let blank := rest.isEmpty || rest.head?.any fun d => d = ' ' || d = '\t'
    c.toNat = 0x60 || "#,[]\x7b\x7d&*!|>'\"%@".toList.contains c
      || ((c = '?' || c = ':' || c = '-') && blank)

/-- Whether the grammar admits a text without quotes. -/
def admitsPlain (cs : List Char) : Bool :=
  cs.all (fun c => isOrdinary c && !isLineBreak c)
    && !opensOther cs && !hasIndicator false (cs.drop 1)
    && cs.head? ≠ some ' ' && cs.getLast? ≠ some ' '
    && !(['-', '-', '-'].isPrefixOf cs || ['.', '.', '.'].isPrefixOf cs)

def hexDigits (width n : Nat) : List Char :=
  let digits := (Nat.toDigits 16 n).map Char.toUpper
  List.replicate (width - digits.length) '0' ++ digits

def shortEscapes : List (Nat × Char) :=
  [(0x00, '0'), (0x07, 'a'), (0x08, 'b'), (0x09, 't'), (0x0A, 'n'), (0x0B, 'v'), (0x0C, 'f'),
    (0x0D, 'r'), (0x1B, 'e'), (0x22, '"'), (0x5C, '\\'), (0x85, 'N'), (0xA0, '_'),
    (0x2028, 'L'), (0x2029, 'P')]

def escaped (c : Char) : List Char :=
  if isOrdinary c && !isLineBreak c && c ≠ '"' && c ≠ '\\' then [c]
  else
    '\\' :: match shortEscapes.lookup c.toNat with
      | some letter => [letter]
      | none =>
        if c.toNat ≤ 0xFF then 'x' :: hexDigits 2 c.toNat
        else if c.toNat ≤ 0xFFFF then 'u' :: hexDigits 4 c.toNat
        else 'U' :: hexDigits 8 c.toNat

def doubleText (cs : List Char) : String :=
  String.ofList ('"' :: cs.flatMap escaped ++ ['"'])

def singleText (cs : List Char) : String :=
  String.ofList ('\'' :: cs.flatMap (fun c => if c = '\'' then ['\'', '\''] else [c]) ++ ['\''])

def lineText (text : String) : String :=
  let cs := text.toList
  if kindOf text ≠ .text || oldBools.contains text || isSexagesimal cs then doubleText cs
  else if admitsPlain cs then text
  else if cs.all (fun c => isOrdinary c && !isLineBreak c) then singleText cs
  else doubleText cs

/-- A text of several lines below its key. -/
def blockText (indent : Nat) (text : String) : String :=
  let lines := splitOn '\n' text
  let trailing := (lines.reverse.takeWhile (· = "")).length
  let hint := if startsWith " " text || startsWith "\n" text then "4" else ""
  let chomp := if trailing = 0 then "-" else if trailing = 1 then "" else "+"
  let body := if trailing = 0 then lines else lines.dropLast
  "|" ++ hint ++ chomp
    ++ String.join (body.map fun line =>
      "\n" ++ if line = "" then "" else spaces indent ++ line)

/-- A text as a value. -/
def scalarText (indent : Nat) (text : String) : String :=
  let cs := text.toList
  let fitsBlock := cs.all isOrdinary && cs.getLast? ≠ some ' '
    && !Text.contains " \n" text
  if cs.contains '\n' && fitsBlock then blockText indent text
  else if cs.contains '\n' then doubleText cs
  else lineText text

/-- A key, which stands on one line. -/
def keyText (key : String) : String :=
  if key.toList.contains '\n' then doubleText key.toList else lineText key

mutual

def nodeLines (indent : Nat) : Node → List String
  | .scalar text _ => [spaces indent ++ scalarText (indent + 4) text]
  | .sequence items => itemLines indent items
  | .mapping entries => entryLines indent entries

def itemLines (indent : Nat) : List Node → List String
  | [] => []
  | .scalar text _ :: rest =>
    (spaces indent ++ "- " ++ scalarText (indent + 4) text) :: itemLines indent rest
  | node :: rest =>
    (match nodeLines (indent + 2) node with
      | [] => [spaces indent ++ "- []"]
      | first :: more => (spaces indent ++ "- " ++ dropHead (spaces (indent + 2)) first) :: more)
      ++ itemLines indent rest

def entryLines (indent : Nat) : List (String × Node) → List String
  | [] => []
  | (key, node) :: rest =>
    (match node with
      | .scalar text _ =>
        [spaces indent ++ keyText key ++ ": " ++ scalarText (indent + 4) text]
      | .sequence [] => [spaces indent ++ keyText key ++ ": []"]
      | .mapping [] => [spaces indent ++ keyText key ++ ": \x7b\x7d"]
      | node => (spaces indent ++ keyText key ++ ":") :: nodeLines (indent + 4) node)
      ++ entryLines indent rest

end

/-- The text of a document. -/
def render : Node → String
  | .sequence [] => "[]\n"
  | .mapping [] => "\x7b\x7d\n"
  | node => String.join ((nodeLines 0 node).map (· ++ "\n"))

/-! ## The order of keys -/

/-- The digits at the start of a text, read on from a number. -/
def readOn (n : Nat) (cs : List Char) : Nat :=
  (cs.takeWhile isDigit).foldl (fun n c => n * 10 + (c.toNat - '0'.toNat)) n

/-- Whether a key comes before another: runs of digits count as numbers, and letters come last.
`before` holds the common head, last character first. -/
def keyLess (before : List Char) : List Char → List Char → Bool
  | a :: as, b :: bs =>
    if a = b then keyLess (a :: before) as bs
    else
      let al := isLetter a
      let bl := isLetter b
      if al && bl then a < b
      else if al || bl then
        if before.head?.any isDigit then al else bl
      else
        let start :=
          if (a = '0' || b = '0') && (before.takeWhile isDigit).any (· ≠ '0') then 1 else 0
        let an := readOn start (a :: as)
        let bn := readOn start (b :: bs)
        let ai := ((a :: as).takeWhile isDigit).length
        let bi := ((b :: bs).takeWhile isDigit).length
        if an ≠ bn then an < bn else if ai ≠ bi then ai < bi else a < b
  | [], _ :: _ => true
  | _, [] => false

/-- Entries in the order of their keys. -/
def sortEntries {α : Type} (entries : List (String × α)) : List (String × α) :=
  entries.mergeSort fun a b => !keyLess [] b.1.toList a.1.toList

end SchemaCompiler.Yaml
