import SchemaCompiler.Text.Quoted

/-!
# JSON values

A JSON value as it is spelled, up to insignificant white space: members keep their order and
repetitions, numbers and texts keep their spelling.  A text is stored as it stands between its
quotes; `unescape` gives what it means and `escape` spells a meaning.
-/

namespace SchemaCompiler

inductive Json where
  | null
  | bool (value : Bool)
  | num (spelling : String)
  | str (spelling : String)
  | arr (items : List Json)
  | obj (members : List (String × Json))
  deriving Repr, Inhabited

namespace Json

/-! ## Spelling of texts -/

/-- How a character is spelled inside quotes.  The characters that are special in markup and in
scripts are spelled as escapes too. -/
def escapeChar (c : Char) : List Char :=
  match c with
  | '"' => ['\\', '"']
  | '\\' => ['\\', '\\']
  | '\n' => ['\\', 'n']
  | '\r' => ['\\', 'r']
  | '\t' => ['\\', 't']
  | c =>
    match c.toNat with
    | 0x08 => ['\\', 'b']
    | 0x0c => ['\\', 'f']
    | n =>
      if n < 0x20 || c = '<' || c = '>' || c = '&' || n == 0x2028 || n == 0x2029 then
        '\\' :: 'u' :: Text.hexDigits 4 n
      else [c]

def escape (meaning : String) : String :=
  String.ofList (meaning.toList.flatMap escapeChar)

/-- The value of a hexadecimal digit. -/
def hexValue? (c : Char) : Option Nat :=
  if '0' ≤ c && c ≤ '9' then some (c.toNat - 48)
  else if 'a' ≤ c && c ≤ 'f' then some (c.toNat - 87)
  else if 'A' ≤ c && c ≤ 'F' then some (c.toNat - 55)
  else none

/-- The number spelled by hexadecimal digits, other characters counting as zero. -/
def hexNumber (digits : List Char) : Nat :=
  digits.foldl (fun n c => 16 * n + (hexValue? c).getD 0) 0

/-- The character that stands for a code unit that is no character. -/
def replacement : Char := Char.ofNat 0xfffd

def isHighSurrogate (n : Nat) : Bool := 0xd800 ≤ n && n < 0xdc00
def isLowSurrogate (n : Nat) : Bool := 0xdc00 ≤ n && n < 0xe000

/-- The character of a code unit that is not part of a pair. -/
def unitChar (n : Nat) : Char :=
  if isHighSurrogate n || isLowSurrogate n then replacement else Char.ofNat n

/-- What a spelled text means.  A surrogate that is not part of a pair means the replacement
character. -/
def unescapeChars : List Char → List Char
  | [] => []
  | '\\' :: 'u' :: a :: b :: c :: d :: '\\' :: 'u' :: e :: f :: g :: h :: rest =>
    let first := hexNumber [a, b, c, d]
    let second := hexNumber [e, f, g, h]
    if isHighSurrogate first && isLowSurrogate second then
      Char.ofNat (0x10000 + (first - 0xd800) * 0x400 + (second - 0xdc00)) :: unescapeChars rest
    else unitChar first :: unescapeChars ('\\' :: 'u' :: e :: f :: g :: h :: rest)
  | '\\' :: 'u' :: a :: b :: c :: d :: rest =>
    unitChar (hexNumber [a, b, c, d]) :: unescapeChars rest
  | '\\' :: c :: rest =>
    (match c with
      | 'b' => Char.ofNat 0x08
      | 'f' => Char.ofNat 0x0c
      | 'n' => '\n'
      | 'r' => '\r'
      | 't' => '\t'
      | c => c) :: unescapeChars rest
  | c :: rest => c :: unescapeChars rest

def unescape (spelling : String) : String :=
  String.ofList (unescapeChars spelling.toList)

def text (meaning : String) : Json :=
  str (escape meaning)

/-- An object from keys as they are meant. -/
def object (members : List (String × Json)) : Json :=
  obj (members.map fun (key, value) => (escape key, value))

def nat (n : Nat) : Json := num (toString n)

def int (n : Int) : Json := num (toString n)

/-! ## Compact text -/

mutual

def renderChars : Json → List Char
  | null => "null".toList
  | bool true => "true".toList
  | bool false => "false".toList
  | num spelling => spelling.toList
  | str spelling => '"' :: (spelling.toList ++ ['"'])
  | arr items => '[' :: (renderItems items ++ [']'])
  | obj members => '{' :: (renderMembers members ++ ['}'])

def renderItems : List Json → List Char
  | [] => []
  | [item] => renderChars item
  | item :: next :: rest => renderChars item ++ ',' :: renderItems (next :: rest)

def renderMembers : List (String × Json) → List Char
  | [] => []
  | [(key, value)] => '"' :: (key.toList ++ '"' :: ':' :: renderChars value)
  | (key, value) :: next :: rest =>
    '"' :: (key.toList ++ '"' :: ':' :: (renderChars value ++ ',' :: renderMembers (next :: rest)))

end

/-- The value without insignificant white space. -/
def render (j : Json) : String :=
  String.ofList j.renderChars

/-! ## Nesting -/

mutual

/-- How deep arrays and objects are nested. -/
def depth : Json → Nat
  | arr items => depthItems items + 1
  | obj members => depthMembers members + 1
  | _ => 0

def depthItems : List Json → Nat
  | [] => 0
  | item :: rest => max (depth item) (depthItems rest)

def depthMembers : List (String × Json) → Nat
  | [] => 0
  | (_, value) :: rest => max (depth value) (depthMembers rest)

end

/-! ## Indented text -/

def lineBreak (level : Nat) : List Char :=
  '\n' :: List.replicate (2 * level) ' '

mutual

/-- The value with each item and member on a line of its own, indented by two blanks a level;
empty arrays and objects stay closed. -/
def indentChars (level : Nat) : Json → List Char
  | arr [] => ['[', ']']
  | obj [] => ['{', '}']
  | arr items => '[' :: (indentItems (level + 1) items ++ lineBreak level ++ [']'])
  | obj members => '{' :: (indentMembers (level + 1) members ++ lineBreak level ++ ['}'])
  | j => renderChars j

def indentItems (level : Nat) : List Json → List Char
  | [] => []
  | [item] => lineBreak level ++ indentChars level item
  | item :: next :: rest =>
    lineBreak level ++ indentChars level item ++ ',' :: indentItems level (next :: rest)

def indentMembers (level : Nat) : List (String × Json) → List Char
  | [] => []
  | [(key, value)] =>
    lineBreak level ++ '"' :: (key.toList ++ '"' :: ':' :: ' ' :: indentChars level value)
  | (key, value) :: next :: rest =>
    lineBreak level ++ '"' :: (key.toList ++ '"' :: ':' :: ' ' :: indentChars level value)
      ++ ',' :: indentMembers level (next :: rest)

end

def indent (j : Json) : String :=
  String.ofList (indentChars 0 j)

/-! ## Markup-safe spelling -/

/-- Spells the characters that are special in markup and scripts as escapes and leaves the rest
of a spelling alone. -/
def shield (spelling : String) : String :=
  String.ofList (spelling.toList.flatMap fun c =>
    if c = '<' || c = '>' || c = '&' || c.toNat == 0x2028 || c.toNat == 0x2029 then
      '\\' :: 'u' :: Text.hexDigits 4 c.toNat
    else [c])

mutual

def shielded : Json → Json
  | str spelling => str (shield spelling)
  | arr items => arr (shieldedItems items)
  | obj members => obj (shieldedMembers members)
  | j => j

def shieldedItems : List Json → List Json
  | [] => []
  | item :: rest => shielded item :: shieldedItems rest

def shieldedMembers : List (String × Json) → List (String × Json)
  | [] => []
  | (key, value) :: rest => (shield key, shielded value) :: shieldedMembers rest

end

end Json

end SchemaCompiler
