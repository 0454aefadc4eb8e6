import SchemaCompiler.Sdl.Document

/-!
# Reading query schemas

The reader takes the part of the language that `Sdl.Text` writes: definitions with descriptions,
and no arguments, interfaces or directives.  Its budget is the number of tokens.
-/

namespace SchemaCompiler.Sdl

inductive Token where
  | name (text : String)
  | description (text : String)
  | mark (c : Char)
  deriving DecidableEq, Repr

namespace Token

def isNameStart (c : Char) : Bool := c.isAlpha || c = '_'

def isNameChar (c : Char) : Bool := c.isAlphanum || c = '_'

def isIgnored (c : Char) : Bool :=
  c = ' ' || c = '\t' || c = '\n' || c = '\r' || c = ',' || c.toNat = 0xfeff

/-- The rest of a text between three quotes, up to the next three that are not escaped. -/
def block? : List Char → Option (List Char × List Char)
  | '"' :: '"' :: '"' :: rest => some ([], rest)
  | '\\' :: '"' :: '"' :: '"' :: rest => do
    let (body, rest) ← block? rest
    return ('"' :: '"' :: '"' :: body, rest)
  | [] => none
  | c :: rest =>
    if c.toNat < 0x20 && c ≠ '\t' && c ≠ '\n' && c ≠ '\r' then none
    else do
      let (body, rest) ← block? rest
      return (c :: body, rest)

def scan : (budget : Nat) → List Char → Option (List Token)
  | 0, _ => none
  | _ + 1, [] => some []
  | budget + 1, '"' :: '"' :: '"' :: rest => do
    let (body, rest) ← block? rest
    return description (String.ofList body) :: (← scan budget rest)
  | budget + 1, c :: rest =>
    if isIgnored c then scan budget rest
    else if c = '#' then scan budget (rest.dropWhile fun c => c ≠ '\n' && c ≠ '\r')
    else if isNameStart c then do
      let word := c :: rest.takeWhile isNameChar
      return name (String.ofList word) :: (← scan budget (rest.dropWhile isNameChar))
    else if c ∈ ['!', ':', '=', '[', ']', '{', '|', '}'] then do
      return mark c :: (← scan budget rest)
    else none

end Token

abbrev Reader (α : Type) := List Token → Option (α × List Token)

def readType : (budget : Nat) → Reader TypeRef
  | 0, _ => none
  | budget + 1, tokens =>
    let required (t : Bool → TypeRef) (rest : List Token) : Option (TypeRef × List Token) :=
      match rest with
      | .mark '!' :: rest => some (t true, rest)
      | rest => some (t false, rest)
    match tokens with
    | .name n :: rest => required (.named n) rest
    | .mark '[' :: rest =>
      match readType budget rest with
      | some (item, .mark ']' :: rest) => required (.list item) rest
      | _ => none
    | _ => none

def readDescription : List Token → String × List Token
  | .description text :: rest => (text, rest)
  | rest => ("", rest)

/-- The members of an object up to the closing brace. -/
def readMembers : (budget : Nat) → Reader (List Member)
  | 0, _ => none
  | budget + 1, tokens =>
    match tokens with
    | .mark '}' :: rest => some ([], rest)
    | tokens =>
      let (description, rest) := readDescription tokens
      match rest with
      | .name name :: .mark ':' :: rest => do
        let (type, rest) ← readType budget rest
        let (more, rest) ← readMembers budget rest
        return (⟨name, description, type⟩ :: more, rest)
      | _ => none

def readValues : (budget : Nat) → Reader (List String)
  | 0, _ => none
  | budget + 1, tokens =>
    match tokens with
    | .mark '}' :: rest => some ([], rest)
    | tokens =>
      match readDescription tokens with
      | (_, .name name :: rest) => do
        let (more, rest) ← readValues budget rest
        return (name :: more, rest)
      | _ => none

/-- Something between braces, which may be missing but not empty. -/
def readBlock {α : Type} (inner : Reader (List α)) : Reader (List α)
  | .mark '{' :: rest => do
    let (found, rest) ← inner rest
    if found.isEmpty then none else some (found, rest)
  | rest => some ([], rest)

def readAlternatives : (budget : Nat) → Reader (List String)
  | 0, _ => none
  | budget + 1, tokens =>
    match tokens with
    | .name name :: .mark '|' :: rest => do
      let (more, rest) ← readAlternatives budget rest
      return (name :: more, rest)
    | .name name :: rest => some ([name], rest)
    | _ => none

def readBody (budget : Nat) (keyword : String) : Reader Body := fun tokens =>
  match keyword with
  | "scalar" => some (.scalar, tokens)
  | "type" => (readBlock (readMembers budget) tokens).map fun (found, rest) => (.object found, rest)
  | "enum" =>
    (readBlock (readValues budget) tokens).map fun (found, rest) => (.enumeration found, rest)
  | "union" =>
    match tokens with
    | .mark '=' :: .mark '|' :: rest =>
      (readAlternatives budget rest).map fun (found, rest) => (.union found, rest)
    | .mark '=' :: rest =>
      (readAlternatives budget rest).map fun (found, rest) => (.union found, rest)
    | rest => some (.union [], rest)
  | _ => none

def readDefinitions : (budget : Nat) → List Token → Option Document
  | 0, _ => none
  | _ + 1, [] => some []
  | budget + 1, tokens =>
    match readDescription tokens with
    | (description, .name keyword :: .name name :: rest) => do
      let (body, rest) ← readBody budget keyword rest
      return ⟨name, description, body⟩ :: (← readDefinitions budget rest)
    | _ => none

def document? (text : String) : Option Document := do
  let tokens ← Token.scan (text.length + 1) text.toList
  readDefinitions (tokens.length + 1) tokens

end SchemaCompiler.Sdl
