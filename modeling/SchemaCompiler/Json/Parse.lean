import SchemaCompiler.Json

/-!
# Reading JSON text

Text is cut into tokens by one pass over its characters, and the tokens are put together by one
pass with a stack of the arrays and objects that are still open.  Both passes follow the list they
read, so reading always ends.
-/

namespace SchemaCompiler.Json

inductive Token where
  | leftBrace
  | rightBrace
  | leftBracket
  | rightBracket
  | comma
  | colon
  | scalar (value : Json)
  | str (spelling : String)
  deriving Repr

/-! ## Numbers -/

def digitsThen (next : List Char → Bool) (cs : List Char) : Bool :=
  !(cs.takeWhile Char.isDigit).isEmpty && next (cs.dropWhile Char.isDigit)

def isExponent : List Char → Bool
  | [] => true
  | e :: cs =>
    (e == 'e' || e == 'E') &&
      match cs with
      | '+' :: ds | '-' :: ds | ds => digitsThen List.isEmpty ds

def isFraction : List Char → Bool
  | '.' :: cs => digitsThen isExponent cs
  | cs => isExponent cs

def isUnsigned : List Char → Bool
  | '0' :: cs => isFraction cs
  | cs => digitsThen isFraction cs

/-- Whether the characters spell a JSON number. -/
def isNumber : List Char → Bool
  | '-' :: cs | cs => isUnsigned cs

/-! ## Tokens -/

/-- The value of a run of characters that are neither blank, punctuation nor quoted. -/
def word? (spelling : List Char) : Option Json :=
  if spelling = "null".toList then some .null
  else if spelling = "true".toList then some (.bool true)
  else if spelling = "false".toList then some (.bool false)
  else if isNumber spelling then some (.num (String.ofList spelling))
  else none

/-- What the characters read so far have left open; spellings are held backwards. -/
inductive Lexing where
  | between
  | word (spelling : List Char)
  | quoted (spelling : List Char)
  | escape (spelling : List Char)
  | unicode (left : Nat) (spelling : List Char)

def isBlank (c : Char) : Bool :=
  c = ' ' || c = '\t' || c = '\n' || c = '\r'

def punctuation? : Char → Option Token
  | '{' => some .leftBrace
  | '}' => some .rightBrace
  | '[' => some .leftBracket
  | ']' => some .rightBracket
  | ',' => some .comma
  | ':' => some .colon
  | _ => none

/-- Reads a character outside of any word or quoted text. -/
def lexBetween (tokens : List Token) (c : Char) : Lexing × List Token :=
  if isBlank c then (.between, tokens)
  else match punctuation? c with
    | some token => (.between, token :: tokens)
    | none => if c = '"' then (.quoted [], tokens) else (.word [c], tokens)

/-- One character of the first pass; tokens are held backwards. -/
def lexStep : Lexing × List Token → Char → Option (Lexing × List Token)
  | (.between, tokens), c => some (lexBetween tokens c)
  | (.word spelling, tokens), c =>
    if isBlank c || (punctuation? c).isSome || c = '"' then do
      let value ← word? spelling.reverse
      return lexBetween (.scalar value :: tokens) c
    else some (.word (c :: spelling), tokens)
  | (.quoted spelling, tokens), c =>
    if c = '"' then some (.between, .str (String.ofList spelling.reverse) :: tokens)
    else if c = '\\' then some (.escape ('\\' :: spelling), tokens)
    else if c.toNat < 0x20 then none
    else some (.quoted (c :: spelling), tokens)
  | (.escape spelling, tokens), c =>
    if c = 'u' then some (.unicode 4 ('u' :: spelling), tokens)
    else if c ∈ ['"', '\\', '/', 'b', 'f', 'n', 'r', 't'] then
      some (.quoted (c :: spelling), tokens)
    else none
  | (.unicode left spelling, tokens), c =>
    if (hexValue? c).isSome then
      some (if left ≤ 1 then .quoted (c :: spelling) else .unicode (left - 1) (c :: spelling),
        tokens)
    else none

def tokens? (text : List Char) : Option (List Token) := do
  match ← text.foldlM lexStep (.between, []) with
  | (.between, tokens) => some tokens.reverse
  | (.word spelling, tokens) => do
    let value ← word? spelling.reverse
    return (.scalar value :: tokens).reverse
  | _ => none

/-! ## Values -/

/-- An array or object that is still open, its contents held backwards. -/
inductive Opened where
  | arr (items : List Json)
  | obj (members : List (String × Json)) (key : String)

/-- What has to follow. -/
inductive Wanted where
  | value
  | valueOrEnd
  | separatorOrEnd
  | key (members : List (String × Json))
  | keyOrEnd
  | colon (members : List (String × Json)) (key : String)

inductive Building where
  | wanting (wanted : Wanted) (opened : List Opened)
  | done (value : Json)

/-- A value is complete: it goes to the innermost open array or object. -/
def complete (value : Json) : List Opened → Building
  | [] => .done value
  | .arr items :: rest => .wanting .separatorOrEnd (.arr (value :: items) :: rest)
  | .obj members key :: rest =>
    .wanting .separatorOrEnd (.obj ((key, value) :: members) "" :: rest)

/-- Arrays and objects nest at most this deep. -/
def maxDepth : Nat := 10000

def startValue (opened : List Opened) : Token → Option Building
  | .scalar value => some (complete value opened)
  | .str spelling => some (complete (.str spelling) opened)
  | .leftBracket =>
    if opened.length < maxDepth then some (.wanting .valueOrEnd (.arr [] :: opened)) else none
  | .leftBrace =>
    if opened.length < maxDepth then some (.wanting .keyOrEnd opened) else none
  | _ => none

/-- One token of the second pass. -/
def buildStep : Building → Token → Option Building
  | .done _, _ => none
  | .wanting .value opened, token => startValue opened token
  | .wanting .valueOrEnd (.arr [] :: rest), .rightBracket => some (complete (.arr []) rest)
  | .wanting .valueOrEnd opened, token => startValue opened token
  | .wanting .keyOrEnd opened, .rightBrace => some (complete (.obj []) opened)
  | .wanting .keyOrEnd opened, .str spelling => some (.wanting (.colon [] spelling) opened)
  | .wanting (.key members) opened, .str spelling =>
    some (.wanting (.colon members spelling) opened)
  | .wanting (.colon members key) opened, .colon =>
    some (.wanting .value (.obj members key :: opened))
  | .wanting .separatorOrEnd (.arr items :: rest), .comma =>
    some (.wanting .value (.arr items :: rest))
  | .wanting .separatorOrEnd (.arr items :: rest), .rightBracket =>
    some (complete (.arr items.reverse) rest)
  | .wanting .separatorOrEnd (.obj members _ :: rest), .comma =>
    some (.wanting (.key members) rest)
  | .wanting .separatorOrEnd (.obj members _ :: rest), .rightBrace =>
    some (complete (.obj members.reverse) rest)
  | _, _ => none

def build? (tokens : List Token) : Option Json := do
  match ← tokens.foldlM buildStep (.wanting .value []) with
  | .done value => some value
  | .wanting .. => none

/-- The value that a text spells. -/
def parse? (text : String) : Option Json := do
  build? (← tokens? text.toList)

/-! ## Spelling of members -/

/-- A pass over the text of an object that cuts it at the punctuation of the outermost level. -/
structure Cutting where
  depth : Nat
  inText : Bool
  afterBackslash : Bool
  piece : List Char
  pieces : List String

def trimBlank (piece : List Char) : String :=
  String.ofList ((piece.dropWhile isBlank).reverse.dropWhile isBlank)

def cutStep (s : Cutting) (c : Char) : Cutting :=
  if s.inText then
    { s with
      inText := s.afterBackslash || c ≠ '"'
      afterBackslash := !s.afterBackslash && c = '\\'
      piece := c :: s.piece }
  else if s.depth = 1 && (c = ',' || c = ':' || c = '}') then
    { s with
      depth := if c = '}' then 0 else 1
      piece := []
      pieces := trimBlank s.piece :: s.pieces }
  else if c = '{' || c = '[' then
    { s with depth := s.depth + 1, piece := if s.depth = 0 then [] else c :: s.piece }
  else if c = '}' || c = ']' then
    { s with depth := s.depth - 1, piece := c :: s.piece }
  else { s with inText := c = '"', piece := c :: s.piece }

def pairUp : List String → List (String × String)
  | key :: value :: rest => (key, value) :: pairUp rest
  | _ => []

/-- The members of a spelled object, each value as it is spelled with its own white space.  Keys
are given as they are meant. -/
def spelledMembers (text : String) : List (String × String) :=
  let cut := text.toList.foldl cutStep ⟨0, false, false, [], []⟩
  (pairUp cut.pieces.reverse).map fun (key, value) =>
    (unescape (String.ofList (key.toList.drop 1).dropLast), value)

end SchemaCompiler.Json
