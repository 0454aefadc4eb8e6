import SchemaCompiler.Json

/-!
# Template tokens

A template is text with actions between double braces.  A hyphen next to the braces, set off by a
blank, removes the white space on that side of the action.
-/

namespace SchemaCompiler.Template

inductive Token where
  | text (value : String)
  | opening
  | closing
  | blank
  | assign
  | declare
  | pipe
  | leftParen
  | rightParen
  | dot
  | nothing
  | bool (value : Bool)
  | str (value : String)
  | number (spelling : String)
  | char (code : Nat)
  | var (name : String)
  | field (name : String)
  | word (name : String)
  | other (c : Char)
  deriving DecidableEq, Repr

namespace Token

def isSpace (c : Char) : Bool :=
  c = ' ' || c = '\t' || c = '\r' || c = '\n'

/-- Text up to the next opening braces and what follows them. -/
def beforeAction : List Char → List Char × Option (List Char)
  | '{' :: '{' :: rest => ([], some rest)
  | [] => ([], none)
  | c :: rest =>
    let (head, tail) := beforeAction rest
    (c :: head, tail)

/-- What follows the end of a comment. -/
def afterComment : List Char → Option (List Char)
  | '*' :: '/' :: rest => some rest
  | [] => none
  | _ :: rest => afterComment rest

def dropSpaces (cs : List Char) : List Char := cs.dropWhile isSpace

def trimEnd (cs : List Char) : List Char := (cs.reverse.dropWhile isSpace).reverse

/-- What follows closing braces, if they are next. -/
def afterClosing? : List Char → Option (List Char)
  | '}' :: '}' :: rest => some rest
  | c :: '-' :: '}' :: '}' :: rest => if isSpace c then some (dropSpaces rest) else none
  | _ => none

/-- Whether a name or number may end here. -/
def atEnd (cs : List Char) : Bool :=
  match cs with
  | [] | '}' :: '}' :: _ => true
  | c :: _ => isSpace c || c ∈ ['.', ',', '|', ':', ')', '(']

/-- The character of an escape after the backslash, and what follows. -/
def escaped? (quote : Char) : List Char → Option (Char × List Char)
  | 'a' :: rest => some (Char.ofNat 7, rest)
  | 'b' :: rest => some (Char.ofNat 8, rest)
  | 'f' :: rest => some (Char.ofNat 12, rest)
  | 'n' :: rest => some ('\n', rest)
  | 'r' :: rest => some ('\r', rest)
  | 't' :: rest => some ('\t', rest)
  | 'v' :: rest => some (Char.ofNat 11, rest)
  | '\\' :: rest => some ('\\', rest)
  | 'x' :: rest => hexEscape 2 rest
  | 'u' :: rest => hexEscape 4 rest
  | 'U' :: rest => hexEscape 8 rest
  | a :: rest =>
    if a = quote then some (quote, rest)
    else
      match rest with
      | b :: c :: rest =>
        if [a, b, c].all fun d => '0' ≤ d && d ≤ '7' then
          some (Char.ofNat ([a, b, c].foldl (fun n d => 8 * n + (d.toNat - 48)) 0), rest)
        else none
      | _ => none
  | [] => none
where
  hexEscape (count : Nat) (cs : List Char) : Option (Char × List Char) :=
    let digits := cs.take count
    if digits.length = count && digits.all fun d => (Json.hexValue? d).isSome then
      some (Char.ofNat (Json.hexNumber digits), cs.drop count)
    else none

/-- The rest of a quoted text and what follows its closing quote; the budget is the number of
characters. -/
def quotedText? : (budget : Nat) → List Char → Option (List Char × List Char)
  | 0, _ | _, [] | _, '\n' :: _ => none
  | _ + 1, '"' :: rest => some ([], rest)
  | budget + 1, '\\' :: rest => do
    let (c, rest) ← escaped? '"' rest
    let (more, rest) ← quotedText? budget rest
    return (c :: more, rest)
  | budget + 1, c :: rest => do
    let (more, rest) ← quotedText? budget rest
    return (c :: more, rest)

def quotedChar? : List Char → Option (Nat × List Char)
  | '\\' :: rest =>
    match escaped? '\'' rest with
    | some (c, '\'' :: rest) => some (c.toNat, rest)
    | _ => none
  | c :: '\'' :: rest => if c = '\'' || c = '\n' then none else some (c.toNat, rest)
  | _ => none

/-- The characters of a number with its sign, base, fraction and exponent. -/
def numberChars (cs : List Char) : List Char × List Char :=
  let sign := (cs.takeWhile fun c => c = '+' || c = '-').take 1
  let cs := cs.drop sign.length
  let isDecimal (c : Char) : Bool := c.isDigit || c = '_'
  match cs with
  | '0' :: x :: rest =>
    if x ∈ ['x', 'X', 'o', 'O', 'b', 'B'] then
      let isDigit (c : Char) : Bool := (Json.hexValue? c).isSome || c = '_'
      (sign ++ '0' :: x :: rest.takeWhile isDigit, rest.dropWhile isDigit)
    else decimal sign isDecimal cs
  | _ => decimal sign isDecimal cs
where
  decimal (sign : List Char) (isDecimal : Char → Bool) (cs : List Char) :
      List Char × List Char :=
    let whole := cs.takeWhile isDecimal
    let cs := cs.dropWhile isDecimal
    let (fraction, cs) := match cs with
      | '.' :: rest => ('.' :: rest.takeWhile isDecimal, rest.dropWhile isDecimal)
      | _ => ([], cs)
    let (power, cs) := match cs with
      | e :: rest =>
        if e = 'e' || e = 'E' then
          let mark := (rest.takeWhile fun c => c = '+' || c = '-').take 1
          let rest := rest.drop mark.length
          (e :: mark ++ rest.takeWhile isDecimal, rest.dropWhile isDecimal)
        else ([], cs)
      | [] => ([], cs)
    (sign ++ whole ++ fraction ++ power, cs)

def wordToken (name : String) : Token :=
  if name = "true" then bool true
  else if name = "false" then bool false
  else if name = "nil" then nothing
  else word name

/-- The next token of an action and what follows it. -/
def next? (cs : List Char) : Option (Token × List Char) :=
  match cs with
  | [] => none
  | c :: rest =>
    if isSpace c then some (blank, spaces cs)
    else if c = '=' then some (assign, rest)
    else if c = ':' then
      match rest with
      | '=' :: rest => some (declare, rest)
      | _ => none
    else if c = '|' then some (pipe, rest)
    else if c = '"' then do
      let (value, rest) ← quotedText? (rest.length + 1) rest
      return (str (String.ofList value), rest)
    else if c.toNat = 0x60 then
      let value := rest.takeWhile (·.toNat ≠ 0x60)
      match rest.dropWhile (·.toNat ≠ 0x60) with
      | _ :: rest => some (str (String.ofList (value.filter (· ≠ '\r'))), rest)
      | [] => none
    else if c = '\'' then do
      let (code, rest) ← quotedChar? rest
      return (char code, rest)
    else if c = '$' then
      let name := rest.takeWhile Text.isWordChar
      let rest := rest.dropWhile Text.isWordChar
      if atEnd rest then some (var (String.ofList ('$' :: name)), rest) else none
    else if c = '.' && !(rest.head?.map Char.isDigit).getD false then
      let name := rest.takeWhile Text.isWordChar
      let rest := rest.dropWhile Text.isWordChar
      if !atEnd rest then none
      else if name.isEmpty then some (dot, rest)
      else some (field (String.ofList name), rest)
    else if c = '.' || c = '+' || c = '-' || c.isDigit then
      let (digits, rest) := numberChars cs
      if (rest.head?.map Text.isWordChar).getD false then none
      else some (number (String.ofList digits), rest)
    else if Text.isWordChar c then
      let name := cs.takeWhile Text.isWordChar
      let rest := cs.dropWhile Text.isWordChar
      if atEnd rest then some (wordToken (String.ofList name), rest) else none
    else if c = '(' then some (leftParen, rest)
    else if c = ')' then some (rightParen, rest)
    else if 0x20 ≤ c.toNat && c.toNat < 0x7f then some (other c, rest)
    else none
where
  /-- Skips blanks but for one that belongs to closing braces. -/
  spaces : List Char → List Char
    | [] => []
    | c :: rest =>
      if (afterClosing? (c :: rest)).isSome then c :: rest
      else if isSpace c then spaces rest else c :: rest

/-- The tokens of an action and what follows its closing braces. -/
def action? : (budget : Nat) → (depth : Nat) → List Char → Option (List Token × List Char)
  | 0, _, _ => none
  | budget + 1, depth, cs =>
    match afterClosing? cs with
    | some rest => if depth = 0 then some ([closing], rest) else none
    | none => do
      let (token, rest) ← next? cs
      let depth ← match token with
        | leftParen => some (depth + 1)
        | rightParen => if depth = 0 then none else some (depth - 1)
        | _ => some depth
      let (more, rest) ← action? budget depth rest
      return (token :: more, rest)

def textToken (cs : List Char) : List Token :=
  if cs.isEmpty then [] else [text (String.ofList cs)]

/-- The tokens of a template; each turn passes an action, so its length is enough of a budget. -/
def scan : (budget : Nat) → List Char → Option (List Token)
  | 0, _ => none
  | budget + 1, cs =>
    match beforeAction cs with
    | (head, none) => some (textToken head)
    | (head, some rest) =>
      let (head, rest) := match rest with
        | '-' :: c :: more => if isSpace c then (trimEnd head, more) else (head, rest)
        | _ => (head, rest)
      match rest with
      | '/' :: '*' :: rest => do
        let rest ← afterClosing? (← afterComment rest)
        return textToken head ++ (← scan budget rest)
      | _ => do
        let (tokens, rest) ← action? (rest.length + 1) 0 rest
        return textToken head ++ opening :: tokens ++ (← scan budget rest)

end Token

def tokens? (template : String) : Option (List Token) :=
  Token.scan (template.length + 1) template.toList

end SchemaCompiler.Template
