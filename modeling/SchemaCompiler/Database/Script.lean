import SchemaCompiler.Failure
import SchemaCompiler.Text.LetterCase

/-!
# Statements of a script

A script is split where its delimiter stands outside parentheses, quotes and comments.  Comments
before a statement are dropped.  The splitter reads one character at a time and may look ahead:
its mode says what the current character belongs to.
-/

namespace SchemaCompiler.Script

/-- A place in a text: lines count from one, columns are bytes behind the last line break. -/
structure Place where
  line : Nat
  column : Nat
  deriving DecidableEq, Repr

namespace Place

def start : Place := ⟨1, 0⟩

def after (p : Place) (c : Char) : Place :=
  if c = '\n' then ⟨p.line + 1, 0⟩ else ⟨p.line, p.column + c.utf8Size⟩

def failure (p : Place) (message : String) : Failure :=
  .plain (toString p.line ++ ":" ++ toString p.column ++ ": " ++ message)

end Place

/-- A statement that is being read. -/
structure Frame where
  delimiter : List Char
  /-- What was read of it, last character first. -/
  taken : List Char
  /-- How many parentheses are open, and where the first of them is. -/
  depth : Nat
  opening : Place
  place : Place
  deriving Repr

namespace Frame

def fresh : Frame := ⟨[';'], [], 0, .start, .start⟩

def take (f : Frame) (c : Char) : Frame :=
  { f with taken := c :: f.taken, place := f.place.after c }

/-- Goes past a character that is not part of the statement. -/
def pass (f : Frame) (c : Char) : Frame := { f with place := f.place.after c }

def next (f : Frame) : Frame := { f with taken := [], depth := 0 }

def trim (cs : List Char) : List Char :=
  ((cs.dropWhile Text.isSpaceChar).reverse.dropWhile Text.isSpaceChar).reverse

/-- The text of the statement; a delimiter that was set is not part of it. -/
def text (f : Frame) : List Char :=
  let whole := f.taken.reverse
  trim <|
    if f.delimiter ≠ [';'] && f.delimiter.isSuffixOf whole then
      whole.take (whole.length - f.delimiter.length)
    else whole

end Frame

/-- What the next character belongs to. -/
inductive Mode where
  /-- The blanks before a statement. -/
  | blank
  | plain
  | quote (mark : Char) (opening : Place)
  /-- A part of the statement that ends with a text. -/
  | until (closer : List Char)
  /-- A comment before the statement. -/
  | drop (closer : List Char)
  /-- The line that sets the delimiter. -/
  | command
  /-- Some characters that are known, and what comes behind them. -/
  | skip (count : Nat) (next : Mode)
  /-- The end of the statement. -/
  | finish
  /-- The statements inside a compound statement. -/
  | enter
  deriving Repr

structure State where
  frame : Frame
  /-- The statements around this one, and where it starts in them. -/
  outer : List (Frame × Place)
  mode : Mode
  /-- Last first. -/
  done : List (List Char)
  deriving Repr

def lowerText (cs : List Char) : List Char := cs.map Text.lowerChar

def commandWord : List Char := "delimiter".toList

def isTagStart (c : Char) : Bool :=
  c.isAlpha || c = '_' || (0xC8 ≤ c.toNat && c.toNat ≤ 0xFF)

def isTagPart (c : Char) : Bool := isTagStart c || c.isDigit

/-- The mark that opens a quoted body, such as two dollar signs with a tag between them. -/
def bodyMark? : List Char → Option (List Char)
  | '$' :: rest =>
    let tag := rest.takeWhile isTagPart
    match rest.dropWhile isTagPart with
    | '$' :: _ => if tag.head?.all isTagStart then some ('$' :: tag ++ ['$']) else none
    | _ => none
  | _ => none

def isBlankByte (c : Char) : Bool :=
  c = ' ' || c = '\t' || c = '\n' || c = '\r' || c.toNat = 0x0C

def blanks (cs : List Char) : Nat := (cs.takeWhile isBlankByte).length

/-- The length of the words that open a compound statement, with the blanks around them. -/
def compoundHead? (cs : List Char) : Option Nat :=
  let a := blanks cs
  let afterFirst := cs.drop (a + 5)
  let b := blanks afterFirst
  let afterSecond := afterFirst.drop (b + 6)
  let c := blanks afterSecond
  if lowerText ((cs.drop a).take 5) = "begin".toList && 0 < b
      && lowerText ((afterFirst.drop b).take 6) = "atomic".toList && 0 < c then
    some (a + 5 + b + 6 + c)
  else none

/-- Whether a statement closes a compound statement. -/
def isEnd (text : List Char) : Bool :=
  lowerText (Frame.trim (if text.getLast? = some ';' then text.dropLast else text))
    = "end".toList

/-- The delimiter that a command line sets. -/
def delimiterOf (line : List Char) : List Char :=
  let given := Frame.trim (line.drop commandWord.length)
  match given, given.getLast? with
  | mark :: _ :: _, some last =>
    if mark = last && (mark = '\'' || mark = '"') then (given.drop 1).dropLast else given
  | _, _ => given

/-- Escaped line breaks and tabs of a delimiter. -/
def unescape : List Char → List Char
  | '\\' :: 'n' :: rest => '\n' :: unescape rest
  | '\\' :: 'r' :: rest => '\r' :: unescape rest
  | '\\' :: 't' :: rest => '\t' :: unescape rest
  | c :: rest => c :: unescape rest
  | [] => []

def setDelimiter (f : Frame) (given : List Char) : Outcome Frame :=
  if given.isEmpty then .error (.plain "empty delimiter")
  else .ok { f with delimiter := unescape given }

namespace State

def start (f : Frame) : State := ⟨f, [], .blank, []⟩

/-- The enclosing statements see every character. -/
def takeOuter (s : State) (c : Char) : State :=
  { s with outer := s.outer.map fun (f, p) => (f.take c, p) }

def take (s : State) (c : Char) : State :=
  { s.takeOuter c with frame := s.frame.take c }

def pass (s : State) (c : Char) : State :=
  { s.takeOuter c with frame := s.frame.pass c }

/-- Ends the statement of a frame.  The last statement of a compound one hands its delimiter on. -/
def emit (done : List (List Char)) (f : Frame) : List (Frame × Place) → State
  | [] => ⟨f.next, [], .blank, f.text :: done⟩
  | (g, p) :: rest =>
    if isEnd f.text then
      if g.depth = 0 && g.delimiter = [';'] then emit done g rest else ⟨g, rest, .plain, done⟩
    else ⟨f.next, (g, p) :: rest, .blank, done⟩

/-- Turns to a mode; some modes are left at once. -/
def turn (s : State) : Mode → State
  | .skip 0 next => turn s next
  | .finish => emit s.done s.frame s.outer
  | .enter => ⟨.fresh, (s.frame, s.frame.place) :: s.outer, .blank, s.done⟩
  | mode => { s with mode }

/-- Turns to a mode behind some further characters. -/
def turnAfter (s : State) (count : Nat) (next : Mode) : State :=
  s.turn (.skip count next)

/-- A comment that opens with two characters; without its end it is plain text. -/
def comment (s : State) (first : Bool) (closer : List Char) (rest : List Char) : State :=
  if Text.isInfix closer (rest.drop 1) then
    s.turnAfter 1 (if first then .drop closer else .until closer)
  else s.turnAfter 1 .plain

def plain (s : State) (c : Char) (rest : List Char) : Outcome State :=
  let first := s.frame.taken.isEmpty
  let f := s.frame
  let s := { s.take c with mode := .plain }
  let here := s.frame.place
  if c = '(' then
    .ok { s with frame := { s.frame with
      depth := f.depth + 1, opening := if f.depth = 0 then here else f.opening } }
  else if c = ')' then
    if f.depth = 0 then .error (here.failure "unexpected ')'")
    else .ok { s with frame := { s.frame with depth := f.depth - 1 } }
  else if c = '"' || c = '\'' || c.toNat = 0x60 then .ok (s.turn (.quote c here))
  else if first && lowerText ((c :: rest).take 9) = commandWord && 9 ≤ rest.length then
    if rest[8]? = some ' ' then .ok (s.turnAfter 8 .command) else .ok (s.turnAfter 8 .plain)
  else if f.depth = 0 && f.delimiter.isPrefixOf (c :: rest) then
    .ok (s.turnAfter (f.delimiter.length - 1) .finish)
  else
    match bodyMark? (c :: rest) with
    | some mark => .ok (s.turnAfter (mark.length - 1) (.until mark))
    | none =>
      if c = '-' && rest.head? = some '-' then .ok (s.comment first ['\n'] rest)
      else if c = '/' && rest.head? = some '*' then .ok (s.comment first ['*', '/'] rest)
      else
        match compoundHead? (c :: rest) with
        | some count => .ok (s.turnAfter (count - 1) .enter)
        | none => .ok s

/-- Reads a character. -/
def step (s : State) (c : Char) (rest : List Char) : Outcome State :=
  match s.mode with
  | .blank => if Text.isSpaceChar c then .ok (s.pass c) else s.plain c rest
  | .plain => s.plain c rest
  | .quote mark opening => .ok ((s.take c).turn (if c = mark then .plain else .quote mark opening))
  | .until closer =>
    if closer.isPrefixOf (c :: rest) then .ok ((s.take c).turnAfter (closer.length - 1) .plain)
    else .ok (s.take c)
  | .drop closer =>
    if closer.isPrefixOf (c :: rest) then
      let s := s.take c
      .ok ({ s with frame := s.frame.next }.turnAfter (closer.length - 1) .blank)
    else .ok (s.take c)
  | .command =>
    let s := s.take c
    if c = '\n' then do
      let f ← setDelimiter s.frame (delimiterOf s.frame.taken.reverse)
      return { s with frame := f.next, mode := .plain }
    else return s
  | .skip count next =>
    match next with
    | .blank => .ok ((s.pass c).turn (.skip (count - 1) next))
    | _ => .ok ((s.take c).turn (.skip (count - 1) next))
  | .finish | .enter => .ok (s.take c)

/-- Ends the statements that are still open. -/
def closeFrames (done : List (List Char)) (f : Frame) :
    List (Frame × Place) → Outcome (List (List Char))
  | [] =>
    if 0 < f.depth then .error (f.opening.failure "unclosed '('")
    else if f.taken.isEmpty then .ok done
    else .ok (f.text :: done)
  | (g, p) :: rest =>
    if 0 < f.depth then .error (f.opening.failure "unclosed '('")
    else if isEnd f.text then closeFrames done g rest
    else .error (p.failure "unexpected eof when scanning compound statements")

/-- The end of the script. -/
def close (s : State) : Outcome (List (List Char)) :=
  match s.mode with
  | .quote mark opening =>
    .error (opening.failure ("unclosed quote "
      ++ (if mark = '\'' then "'\\''" else "'" ++ mark.toString ++ "'")))
  | .command => do
    let f ← setDelimiter s.frame (delimiterOf s.frame.taken.reverse)
    closeFrames s.done f.next s.outer
  | _ => closeFrames s.done s.frame s.outer

def run : State → List Char → Outcome (List (List Char))
  | s, [] => s.close
  | s, c :: rest =>
    match s.step c rest with
    | .error failure => .error failure
    | .ok s => run s rest

end State

def isPrintable (c : Char) : Bool := 0x20 ≤ c.toNat && c.toNat ≤ 0x7E

/-- What a first line sets as the delimiter, when it does. -/
def directive? (script : List Char) : Option (List Char) :=
  let line := script.takeWhile isPrintable
  let head := "-- atlas:delimiter".toList
  let rest := line.drop head.length
  if head.isPrefixOf line then
    match rest with
    | [] => some []
    | ' ' :: _ => some (rest.dropWhile (· = ' '))
    | _ => none
  else none

/-- The splitter at the start of a script, and the text that it has to read. -/
def begin (script : List Char) : Outcome (State × List Char) :=
  match directive? script with
  | none => .ok (.start .fresh, script)
  | some given => do
    let f ← setDelimiter .fresh given
    match script.dropWhile (· ≠ '\n') with
    | [] =>
      .error (Place.start.failure
        ("no input found after delimiter " ++ Text.quoted (String.ofList given)))
    | _ :: rest => return (.start { f with place := ⟨2, 0⟩ }, rest)

def statements (script : String) : Outcome (List String) :=
  match (begin script.toList).bind fun (s, text) => s.run text with
  | .error failure => .error (.context "dialect/sql: split script" failure)
  | .ok done => .ok ((done.reverse.filter (!·.isEmpty)).map String.ofList)

end SchemaCompiler.Script
