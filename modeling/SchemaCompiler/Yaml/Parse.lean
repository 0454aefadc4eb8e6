import SchemaCompiler.Yaml.Node

/-!
# Reading YAML

Block collections are told by the columns of their entries, flow collections by brackets.  Line
breaks inside a scalar are folded: one break is a blank, each further one stays.
-/

namespace SchemaCompiler.Yaml

/-- The text that is left, and the column at which it starts. -/
structure Cursor where
  rest : List Char
  column : Nat
  deriving Repr

namespace Cursor

def after (column : Nat) : List Char → Nat
  | [] => column
  | '\n' :: rest => after 0 rest
  | _ :: rest => after (column + 1) rest

/-- Goes on to a later part of the text. -/
def moveTo (c : Cursor) (rest : List Char) : Cursor :=
  ⟨rest, after c.column (c.rest.take (c.rest.length - rest.length))⟩

def advance (c : Cursor) (n : Nat) : Cursor := c.moveTo (c.rest.drop n)

end Cursor

def isBlank (c : Char) : Bool := c = ' ' || c = '\t'

/-- Whether a text starts with a blank, a line break or not at all. -/
def startsBlank : List Char → Bool
  | [] => true
  | c :: _ => isBlank c || c = '\n'

def isFlowMark (c : Char) : Bool := c = ',' || c = '[' || c = ']' || c = '{' || c = '}'

/-- Whether a line marks the border of a document. -/
def isMarker (cs : List Char) : Bool :=
  (['-', '-', '-'].isPrefixOf cs || ['.', '.', '.'].isPrefixOf cs) && startsBlank (cs.drop 3)

/-- Goes past blanks, comments and line breaks.  Tabs may not indent anything, and the border of
the document ends the text. -/
def skipLines (comment blank indent tab : Bool) (column : Nat) : List Char → Option Cursor
  | [] => some ⟨[], column⟩
  | c :: rest =>
    if c = '\n' then skipLines false true true false 0 rest
    else if comment then skipLines true true indent tab (column + 1) rest
    else if c = ' ' then skipLines false true indent tab (column + 1) rest
    else if c = '\t' then skipLines false true indent true (column + 1) rest
    else if c = '#' && blank then skipLines true true indent tab (column + 1) rest
    else if indent && tab then none
    else if column = 0 && isMarker (c :: rest) then some ⟨[], 0⟩
    else some ⟨c :: rest, column⟩

/-- The next token, as it is seen behind a finished one. -/
def Cursor.next (c : Cursor) : Option Cursor :=
  skipLines false (c.column = 0) (c.column = 0) false c.column c.rest

def Cursor.skipBlanks (c : Cursor) : Cursor := c.moveTo (c.rest.dropWhile isBlank)

/-- Whether nothing but a comment is left on a line. -/
def lineEnds (cs : List Char) : Bool :=
  match cs.dropWhile isBlank with
  | [] => true
  | c :: _ => c = '\n' || (c = '#' && (cs.head?.any isBlank))

/-! ## Quoted scalars -/

def hex? (cs : List Char) : Option Char := (digits? 16 cs).map Char.ofNat

/-- The text of line breaks inside a scalar. -/
def folded (breaks : Nat) : List Char :=
  if breaks = 0 then [] else if breaks = 1 then [' '] else List.replicate (breaks - 1) '\n'

/-- A text between single quotes, in which a quote is written twice. -/
def singleQuoted (acc : List Char) (breaks : Nat) : List Char → Option (List Char × List Char)
  | [] => none
  | '\'' :: '\'' :: rest => singleQuoted ('\'' :: folded breaks ++ acc) 0 rest
  | '\'' :: rest => some ((folded breaks ++ acc).reverse, rest)
  | '\n' :: rest =>
    singleQuoted (if breaks = 0 then acc.dropWhile isBlank else acc) (breaks + 1) rest
  | c :: rest =>
    if 0 < breaks && isBlank c then singleQuoted acc breaks rest
    else singleQuoted (c :: folded breaks ++ acc) 0 rest

def escapes : List (Char × Char) :=
  [('0', Char.ofNat 0), ('a', Char.ofNat 7), ('b', Char.ofNat 8), ('t', '\t'), ('\t', '\t'),
    ('n', '\n'), ('v', Char.ofNat 0x0B), ('f', Char.ofNat 0x0C), ('r', '\r'),
    ('e', Char.ofNat 0x1B), (' ', ' '), ('"', '"'), ('\'', '\''), ('\\', '\\'), ('/', '/'),
    ('N', Char.ofNat 0x85), ('_', Char.ofNat 0xA0), ('L', Char.ofNat 0x2028),
    ('P', Char.ofNat 0x2029)]

/-- A text between double quotes, in which a backslash starts an escape. -/
def doubleQuoted (acc : List Char) (breaks : Nat) : List Char → Option (List Char × List Char)
  | [] => none
  | '"' :: rest => some ((folded breaks ++ acc).reverse, rest)
  | '\\' :: 'x' :: a :: b :: rest => do
    doubleQuoted ((← hex? [a, b]) :: folded breaks ++ acc) 0 rest
  | '\\' :: 'u' :: a :: b :: c :: d :: rest => do
    doubleQuoted ((← hex? [a, b, c, d]) :: folded breaks ++ acc) 0 rest
  | '\\' :: 'U' :: a :: b :: c :: d :: e :: f :: g :: h :: rest => do
    doubleQuoted ((← hex? [a, b, c, d, e, f, g, h]) :: folded breaks ++ acc) 0 rest
  | '\\' :: c :: rest => do
    doubleQuoted ((← escapes.lookup c) :: folded breaks ++ acc) 0 rest
  | '\n' :: rest =>
    doubleQuoted (if breaks = 0 then acc.dropWhile isBlank else acc) (breaks + 1) rest
  | c :: rest =>
    if 0 < breaks && isBlank c then doubleQuoted acc breaks rest
    else doubleQuoted (c :: folded breaks ++ acc) 0 rest

/-- A quoted scalar at the start of a text. -/
def quoted? : List Char → Option (List Char × List Char)
  | '\'' :: rest => singleQuoted [] 0 rest
  | '"' :: rest => doubleQuoted [] 0 rest
  | _ => none

/-! ## Plain scalars -/

/-- Whether a scalar without quotes may start here. -/
def startsPlain (flow : Bool) : List Char → Bool
  | [] => false
  | c :: rest =>
    if c = '-' || c = '?' || c = ':' then
      !startsBlank rest && !(flow && rest.head?.any isFlowMark)
    else
      !(isBlank c || c = '\n' || isFlowMark c || c.toNat = 0x60
        || "#&*!|>'\"%@".toList.contains c)

/-- The part of a plain scalar on one line, with the blanks behind it, and what follows. -/
def plainRun (flow blank : Bool) : List Char → List Char × List Char
  | [] => ([], [])
  | c :: rest =>
    if c = '\n' then ([], c :: rest)
    else if c = ':' && (startsBlank rest || (flow && rest.head?.any isFlowMark)) then
      ([], c :: rest)
    else if c = '#' && blank then ([], c :: rest)
    else if flow && isFlowMark c then ([], c :: rest)
    else
      let (more, left) := plainRun flow (isBlank c) rest
      (c :: more, left)

def trimRight (cs : List Char) : List Char := (cs.reverse.dropWhile isBlank).reverse

def plainLine (flow : Bool) (cs : List Char) : List Char × List Char :=
  let (text, rest) := plainRun flow false cs
  (trimRight text, rest)

/-- Goes past line breaks and blanks; counts the breaks. -/
def skipBreaks (breaks column : Nat) : List Char → Nat × Nat × List Char
  | [] => (breaks, column, [])
  | c :: rest =>
    if c = '\n' then skipBreaks (breaks + 1) 0 rest
    else if isBlank c then skipBreaks breaks (column + 1) rest
    else (breaks, column, c :: rest)

/-- The further lines of a plain scalar: those that are indented more than its parent. -/
def plainMore (flow : Bool) (least : Nat) : Nat → List Char → List Char × List Char
  | 0, cs => ([], cs)
  | fuel + 1, cs =>
    match cs with
    | '\n' :: _ =>
      let (breaks, column, rest) := skipBreaks 0 0 cs
      if rest.isEmpty || (!flow && column < least) || rest.head? = some '#'
          || (column = 0 && isMarker rest) || (flow && rest.head?.any isFlowMark) then ([], cs)
      else
        let (text, left) := plainLine flow rest
        if text.isEmpty then ([], cs)
        else
          let (more, left) := plainMore flow least fuel left
          (folded breaks ++ text ++ more, left)
    | _ => ([], cs)

def plainText (flow : Bool) (least : Nat) (cs : List Char) : List Char × List Char :=
  let (text, rest) := plainLine flow cs
  let (more, left) := plainMore flow least rest.length rest
  (text ++ more, left)

/-! ## Flow collections -/

def skipFlow (comment blank : Bool) : List Char → List Char
  | [] => []
  | c :: rest =>
    if c = '\n' then skipFlow false true rest
    else if comment then skipFlow true true rest
    else if isBlank c then skipFlow false true rest
    else if c = '#' && blank then skipFlow true true rest
    else c :: rest

/-- The start of the next token inside brackets. -/
def flowNext : List Char → List Char := skipFlow false true

/-- A scalar inside brackets. -/
def flowScalar? (cs : List Char) : Option (String × Bool × List Char) :=
  match quoted? cs with
  | some (text, rest) => some (String.ofList text, false, rest)
  | none =>
    if startsPlain true cs then
      let (text, rest) := plainText true 0 cs
      some (String.ofList text, true, rest)
    else none

mutual

def flowNode? : Nat → List Char → Option (Node × List Char)
  | 0, _ => none
  | fuel + 1, cs =>
    match flowNext cs with
    | '[' :: rest => (flowItems? fuel [] rest).map fun (items, rest) => (.sequence items, rest)
    | '{' :: rest =>
      (flowEntries? fuel [] rest).map fun (entries, rest) => (.mapping entries, rest)
    | cs => (flowScalar? cs).map fun (text, plain, rest) => (.scalar text plain, rest)

def flowItems? : Nat → List Node → List Char → Option (List Node × List Char)
  | 0, _, _ => none
  | fuel + 1, acc, cs =>
    match flowNext cs with
    | ']' :: rest => some (acc.reverse, rest)
    | cs => do
      let (item, rest) ← flowNode? fuel cs
      let (item, rest) ← flowPair? fuel item (flowNext rest)
      match flowNext rest with
      | ',' :: rest => flowItems? fuel (item :: acc) rest
      | ']' :: rest => some ((item :: acc).reverse, rest)
      | _ => none

/-- An item of a list that is a single entry of a mapping. -/
def flowPair? : Nat → Node → List Char → Option (Node × List Char)
  | 0, _, _ => none
  | fuel + 1, .scalar key _, ':' :: rest =>
    (flowValue? fuel rest).map fun (value, rest) => (.mapping [(key, value)], rest)
  | _ + 1, item, cs => some (item, cs)

/-- A value behind a colon; it may be missing. -/
def flowValue? : Nat → List Char → Option (Node × List Char)
  | 0, _ => none
  | fuel + 1, cs =>
    match flowNext cs with
    | ',' :: rest => some (.scalar "" true, ',' :: rest)
    | ']' :: rest => some (.scalar "" true, ']' :: rest)
    | '}' :: rest => some (.scalar "" true, '}' :: rest)
    | cs => flowNode? fuel cs

def flowEntries? :
    Nat → List (String × Node) → List Char → Option (List (String × Node) × List Char)
  | 0, _, _ => none
  | fuel + 1, acc, cs =>
    match flowNext cs with
    | '}' :: rest => some (acc.reverse, rest)
    | cs => do
      let (key, _, rest) ← flowScalar? cs
      let (value, rest) ← match flowNext rest with
        | ':' :: rest => flowValue? fuel rest
        | rest => some (.scalar "" true, rest)
      match flowNext rest with
      | ',' :: rest => flowEntries? fuel ((key, value) :: acc) rest
      | '}' :: rest => some (((key, value) :: acc).reverse, rest)
      | _ => none

end

/-! ## Block scalars -/

structure BlockHeader where
  keep : Bool
  strip : Bool
  indent : Option Nat

/-- The signs behind the mark of a block scalar. -/
def blockHeader? (h : BlockHeader) : List Char → Option (BlockHeader × List Char)
  | '+' :: rest => blockHeader? { h with keep := true } rest
  | '-' :: rest => blockHeader? { h with strip := true } rest
  | c :: rest =>
    if '1' ≤ c && c ≤ '9' then blockHeader? { h with indent := digitValue? c } rest
    else if lineEnds (c :: rest) then
      some (h, ((c :: rest).dropWhile (· ≠ '\n')).drop 1)
    else none
  | [] => some (h, [])

def linesOf : List Char → List (List Char)
  | [] => []
  | cs => cs.splitBy (fun a _ => a ≠ '\n') |>.map fun line => line.filter (· ≠ '\n')

def indentOf (line : List Char) : Nat := (line.takeWhile (· = ' ')).length

def isEmptyLine (line : List Char) : Bool := line.all (· = ' ')

/-- The lines of a block scalar, without their indentation. -/
def blockLines (indent : Nat) (lines : List (List Char)) : List (List Char) :=
  (lines.takeWhile fun line => isEmptyLine line || indent ≤ indentOf line).map (·.drop indent)

/-- Lines with a break behind each of them. -/
def literalText (lines : List (List Char)) : List Char :=
  lines.flatMap fun line => line ++ ['\n']

/-- Lines of which neighbours are joined by a blank; indented lines stay as they are. -/
def foldedText (breaks : Nat) (indented : Bool) : List (List Char) → List Char
  | [] => List.replicate breaks '\n'
  | [] :: rest => foldedText (breaks + 1) indented rest
  | line :: rest =>
    let now := line.head?.any isBlank
    let gap := if indented || now then List.replicate breaks '\n' else folded breaks
    gap ++ line ++ foldedText 1 now rest

/-- A block scalar behind its mark. -/
def blockScalar? (literal : Bool) (parent : Option Nat) (cs : List Char) :
    Option (String × List Char) := do
  let (h, rest) ← blockHeader? ⟨false, false, none⟩ cs
  let lines := linesOf rest
  let least := (parent.map (· + 1)).getD 0
  let found := ((lines.dropWhile isEmptyLine).head?.map indentOf).getD 0
  let indent := match h.indent with
    | some n => (parent.getD 0) + n
    | none => if found < least then least else found
  let taken := blockLines indent lines
  let body := (taken.reverse.dropWhile List.isEmpty).reverse
  let trailing := taken.length - body.length
  let text := if literal then literalText body else foldedText 0 false body
  let text :=
    if body.isEmpty then if h.keep then List.replicate trailing '\n' else []
    else if h.strip then (text.reverse.drop 1).reverse
    else if h.keep then text ++ List.replicate trailing '\n'
    else text
  let consumed := (lines.take taken.length).foldl (fun n line => n + line.length) taken.length
  return (String.ofList text, rest.drop consumed)

/-! ## Block collections -/

def isDash : List Char → Bool
  | '-' :: rest => startsBlank rest
  | _ => false

/-- A key on one line, and what follows its colon. -/
def keyAt? (cs : List Char) : Option (String × List Char) := do
  let (text, rest) ← match quoted? cs with
    | some (text, rest) =>
      if (cs.take (cs.length - rest.length)).contains '\n' then none else some (text, rest)
    | none => if startsPlain false cs then some (plainLine false cs) else none
  match rest.dropWhile isBlank with
  | ':' :: rest => if startsBlank rest then some (String.ofList text, rest) else none
  | _ => none

/-- A node that is neither a block sequence nor a block mapping. -/
def inline? (parent : Option Nat) (c : Cursor) : Option (Node × Cursor) := do
  match c.rest with
  | '|' :: rest | '>' :: rest =>
    let (text, rest) ← blockScalar? (c.rest.head? = some '|') parent rest
    return (.scalar text false, c.moveTo rest)
  | cs =>
    let (node, rest) ← match cs, quoted? cs with
      | '[' :: _, _ | '{' :: _, _ => flowNode? (4 * cs.length + 4) cs
      | _, some (text, rest) => some (.scalar (String.ofList text) false, rest)
      | _, none =>
        if startsPlain false cs then
          let (text, rest) := plainText false ((parent.map (· + 1)).getD 0) cs
          some (.scalar (String.ofList text) true, rest)
        else none
    if lineEnds rest then return (node, c.moveTo rest) else none

mutual

/-- The node at a token. -/
def block? : Nat → Option Nat → Cursor → Option (Node × Cursor)
  | 0, _, _ => none
  | fuel + 1, parent, c =>
    if isDash c.rest then
      (items? fuel c.column [] c).map fun (items, c) => (.sequence items, c)
    else if (keyAt? c.rest).isSome then
      (entries? fuel c.column [] c).map fun (entries, c) => (.mapping entries, c)
    else inline? parent c

/-- The items of a block sequence. -/
def items? : Nat → Nat → List Node → Cursor → Option (List Node × Cursor)
  | 0, _, _, _ => none
  | fuel + 1, column, acc, c => do
    let c := (c.advance 1).skipBlanks
    let (item, c) ←
      if lineEnds (' ' :: c.rest) then do
        let c ← c.next
        if !c.rest.isEmpty && column < c.column then block? fuel (some column) c
        else some (.scalar "" true, c)
      else block? fuel (some column) c
    let c ← c.next
    if c.rest.isEmpty || c.column < column then some ((item :: acc).reverse, c)
    else if c.column = column then
      if isDash c.rest then items? fuel column (item :: acc) c
      else some ((item :: acc).reverse, c)
    else none

/-- The entries of a block mapping. -/
def entries? :
    Nat → Nat → List (String × Node) → Cursor → Option (List (String × Node) × Cursor)
  | 0, _, _, _ => none
  | fuel + 1, column, acc, c => do
    let (key, rest) ← keyAt? c.rest
    let (value, c) ← value? fuel column (c.moveTo rest).skipBlanks
    let c ← c.next
    if c.rest.isEmpty || c.column < column then some (((key, value) :: acc).reverse, c)
    else if c.column = column then entries? fuel column ((key, value) :: acc) c
    else none

/-- The value of a key. -/
def value? : Nat → Nat → Cursor → Option (Node × Cursor)
  | 0, _, _ => none
  | fuel + 1, column, c => do
    if lineEnds (' ' :: c.rest) then
      let c ← c.next
      if c.rest.isEmpty then some (.scalar "" true, c)
      else if column < c.column then block? fuel (some column) c
      else if c.column = column && isDash c.rest then
        (items? fuel column [] c).map fun (items, c) => (.sequence items, c)
      else some (.scalar "" true, c)
    else if isDash c.rest || (keyAt? c.rest).isSome then none
    else inline? (some column) c

end

/-- Line breaks in one spelling. -/
def plainBreaks : List Char → List Char
  | [] => []
  | '\r' :: '\n' :: rest | '\r' :: rest => '\n' :: plainBreaks rest
  | c :: rest => c :: plainBreaks rest

/-- The text of the first document, behind its opening mark. -/
def opening (cs : List Char) : List Char :=
  let cs := if cs.head? = some (Char.ofNat 0xFEFF) then cs.drop 1 else cs
  let body := flowNext cs
  if ['-', '-', '-'].isPrefixOf body && startsBlank (body.drop 3)
      && (cs.take (cs.length - body.length)).getLast?.all (· = '\n') then body.drop 3
  else cs

/-- The document that a text holds; nothing counts as a null. -/
def parse? (text : String) : Option Node := do
  let cs := opening (plainBreaks text.toList)
  let c ← (Cursor.mk cs 0).next
  if c.rest.isEmpty then return .scalar "" true
  let (node, c) ← block? (4 * cs.length + 4) none c
  if (← c.next).rest.isEmpty then return node else none

def parse (text : String) : Outcome Node :=
  match parse? text with
  | some node => .ok node
  | none => .error (.malformed .yaml)

end SchemaCompiler.Yaml
