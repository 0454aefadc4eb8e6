/-!
# Text

Prefixes, suffixes, pieces and joins of text, by code point.
-/

namespace SchemaCompiler.Text

def startsWith (head text : String) : Bool :=
  head.toList.isPrefixOf text.toList

def endsWith (tail text : String) : Bool :=
  tail.toList.isSuffixOf text.toList

/-- The text without `tail` at its end, unchanged when it ends otherwise. -/
def dropTail (tail text : String) : String :=
  if endsWith tail text then
    String.ofList (text.toList.take (text.toList.length - tail.toList.length))
  else text

/-- The text without `head` at its start, unchanged when it starts otherwise. -/
def dropHead (head text : String) : String :=
  if startsWith head text then String.ofList (text.toList.drop head.toList.length) else text

/-- The pieces between occurrences of `sep`; there is always at least one. -/
def pieces (sep : Char) : List Char → List (List Char)
  | [] => [[]]
  | c :: rest =>
    if c = sep then [] :: pieces sep rest
    else match pieces sep rest with
      | [] => [[c]]
      | first :: others => (c :: first) :: others

def splitOn (sep : Char) (text : String) : List String :=
  (pieces sep text.toList).map String.ofList

def splitLast? (sep : Char) (text : List Char) : Option (List Char × List Char) :=
  let tail := text.reverse.takeWhile (· ≠ sep)
  match text.reverse.dropWhile (· ≠ sep) with
  | [] => none
  | _ :: head => some (head.reverse, tail.reverse)

def replaceChar (old : Char) (new : String) (text : String) : String :=
  String.ofList (text.toList.flatMap fun c => if c = old then new.toList else [c])

def joinWith (sep : String) (parts : List String) : String :=
  sep.intercalate parts

/-- Whether `needle` stands somewhere in `hay`. -/
def isInfix (needle : List Char) : List Char → Bool
  | [] => needle.isEmpty
  | c :: rest => needle.isPrefixOf (c :: rest) || isInfix needle rest

def contains (needle hay : String) : Bool :=
  isInfix needle.toList hay.toList

/-- The order of text: by code point, which is also the order of the UTF-8 bytes. -/
def le (a b : String) : Bool :=
  !decide (b < a)

def sort (texts : List String) : List String :=
  texts.mergeSort le

/-- Texts in order, each once. -/
def sortedSet (texts : List String) : List String :=
  (sort texts.eraseDups)

/-- The last element of a list of texts, or the empty text. -/
def lastOf (texts : List String) : String :=
  texts.getLast?.getD ""

/-- Pads on the right to `width` code points. -/
def padRight (width : Nat) (text : String) : String :=
  text ++ String.ofList (List.replicate (width - text.length) ' ')

def spaces (n : Nat) : String :=
  String.ofList (List.replicate n ' ')

/-!
## Distances of texts

How many characters must be replaced, removed or added to make one text of another.  The table is
filled row by row, one row for each head of the first text.  The last column starts at zero, so a
short text is never further from a long one than it has characters.
-/

/-- The first row: one step for each character, and none for all of them. -/
def firstRow (n : Nat) : List Nat :=
  List.range n ++ [0]

/-- The entries of a row from those to the left, above left and above. -/
def nextEntries (c : Char) : (left : Nat) → List Char → List Nat → List Nat
  | left, d :: rest, aboveLeft :: above :: row =>
    let changed := if aboveLeft + 1 > left then left + 1 else aboveLeft + 1
    let entry :=
      if c = d then aboveLeft
      else if above < changed then above + 1
      else changed
    entry :: nextEntries c entry rest (above :: row)
  | _, _, _ => []

def nextRow (other : List Char) (row : List Nat) (c : Char) : List Nat :=
  let start := row.headD 0 + 1
  start :: nextEntries c start other row

def distance (text other : String) : Nat :=
  if text = "" then other.length
  else if other = "" then text.length
  else (text.toList.foldl (nextRow other.toList) (firstRow other.length)).getLastD 0

/-- The first of the texts nearest to a given one, and its distance. -/
def nearest (text : String) : List String → Option (String × Nat)
  | [] => none
  | other :: rest =>
    let d := distance text other
    match nearest text rest with
    | none => some (other, d)
    | some (best, e) => if e < d then some (best, e) else some (other, d)

end SchemaCompiler.Text
