import SchemaCompiler.Json.Parse

/-!
# What is wrong with a text

The words for a text that is no JSON.  They name the first character that cannot follow those
before it; behind the last character a blank is tried.
-/

namespace SchemaCompiler.Json

/-- What the next character belongs to. -/
inductive Place where
  | value
  | valueOrEnd
  | key
  | keyOrEnd
  /-- A value or a key is complete. -/
  | behind
  | quoted
  | escape
  | unicode (left : Nat)
  | word (word : String) (rest : List Char)
  | minus
  | zero
  | whole
  | point
  | fraction
  | exponent
  | signed
  | power

/-- What a value or a key is part of. -/
inductive Around where
  | key
  | member
  | item

structure Scan where
  place : Place
  around : List Around

namespace Scan

/-- The scan behind one more character, or the words for where that character cannot stand. -/
abbrev Step := Except String Scan

def behind (around : List Around) (c : Char) : Step :=
  if isBlank c then .ok ⟨.behind, around⟩
  else match around, c with
    | .key :: rest, ':' => .ok ⟨.value, .member :: rest⟩
    | .member :: rest, ',' => .ok ⟨.key, .key :: rest⟩
    | .member :: rest, '}' => .ok ⟨.behind, rest⟩
    | .item :: rest, ',' => .ok ⟨.value, .item :: rest⟩
    | .item :: rest, ']' => .ok ⟨.behind, rest⟩
    | [], _ => .error "after top-level value"
    | .key :: _, _ => .error "after object key"
    | .member :: _, _ => .error "after object key:value pair"
    | .item :: _, _ => .error "after array element"

def enter (place : Place) (inner : Around) (around : List Around) : Step :=
  if around.length < maxDepth then .ok ⟨place, inner :: around⟩ else .error "exceeded max depth"

def startValue (around : List Around) (c : Char) : Step :=
  match c with
  | '{' => enter .keyOrEnd .key around
  | '[' => enter .valueOrEnd .item around
  | '"' => .ok ⟨.quoted, around⟩
  | '-' => .ok ⟨.minus, around⟩
  | '0' => .ok ⟨.zero, around⟩
  | 't' => .ok ⟨.word "true" "rue".toList, around⟩
  | 'f' => .ok ⟨.word "false" "alse".toList, around⟩
  | 'n' => .ok ⟨.word "null" "ull".toList, around⟩
  | c => if c.isDigit then .ok ⟨.whole, around⟩ else .error "looking for beginning of value"

def startKey (around : List Around) (c : Char) : Step :=
  if c = '"' then .ok ⟨.quoted, around⟩ else .error "looking for beginning of object key string"

/-- A digit that has to be there. -/
def digit (s : Scan) (place : Place) (words : String) (c : Char) : Step :=
  if c.isDigit then .ok { s with place } else .error words

/-- A number that may be complete. -/
def number (s : Scan) (more point : Bool) (c : Char) : Step :=
  if more && c.isDigit then .ok s
  else if point && c = '.' then .ok { s with place := .point }
  else if (point || s.place matches .fraction) && (c = 'e' || c = 'E') then
    .ok { s with place := .exponent }
  else behind s.around c

def step (s : Scan) (c : Char) : Step :=
  match s.place with
  | .value => if isBlank c then .ok s else startValue s.around c
  | .valueOrEnd =>
    if isBlank c then .ok s
    else if c = ']' then .ok ⟨.behind, s.around.tail⟩
    else startValue s.around c
  | .key => if isBlank c then .ok s else startKey s.around c
  | .keyOrEnd =>
    if isBlank c then .ok s
    else if c = '}' then .ok ⟨.behind, s.around.tail⟩
    else startKey s.around c
  | .behind => behind s.around c
  | .quoted =>
    if c = '"' then .ok { s with place := .behind }
    else if c = '\\' then .ok { s with place := .escape }
    else if c.toNat < 0x20 then .error "in string literal"
    else .ok s
  | .escape =>
    if c = 'u' then .ok { s with place := .unicode 4 }
    else if c ∈ ['"', '\\', '/', 'b', 'f', 'n', 'r', 't'] then .ok { s with place := .quoted }
    else .error "in string escape code"
  | .unicode left =>
    if (hexValue? c).isSome then
      .ok { s with place := if left ≤ 1 then .quoted else .unicode (left - 1) }
    else .error "in \\u hexadecimal character escape"
  | .word word rest =>
    if rest.head? = some c then
      .ok { s with place := if rest.length ≤ 1 then .behind else .word word rest.tail }
    else .error ("in literal " ++ word ++ " (expecting '" ++ String.ofList (rest.take 1) ++ "')")
  | .minus =>
    if c = '0' then .ok { s with place := .zero } else s.digit .whole "in numeric literal" c
  | .zero => s.number false true c
  | .whole => s.number true true c
  | .point => s.digit .fraction "after decimal point in numeric literal" c
  | .fraction => s.number true false c
  | .exponent =>
    if c = '+' || c = '-' then .ok { s with place := .signed }
    else s.digit .power "in exponent of numeric literal" c
  | .signed => s.digit .power "in exponent of numeric literal" c
  | .power => s.number true false c

end Scan

/-- A character as it is shown; of one that takes several bytes the first is seen. -/
def shownChar (c : Char) : String :=
  if c = '\'' then "'\\''"
  else if c = '"' then "'\"'"
  else
    let seen := ((String.utf8EncodeChar c).map fun byte => Char.ofNat byte.toNat).headD c
    "'" ++ Text.quotedChar seen ++ "'"

def Scan.complaint (s : Scan) : List Char → String
  | [] =>
    match s.step ' ' with
    | .error place => "invalid character ' ' " ++ place
    | .ok _ => "unexpected end of JSON input"
  | c :: rest =>
    match s.step c with
    | .error place => "invalid character " ++ shownChar c ++ " " ++ place
    | .ok s => s.complaint rest

/-- The words for a text that is no JSON. -/
def complaint (text : String) : String :=
  Scan.complaint ⟨.value, []⟩ text.toList

end SchemaCompiler.Json
