import SchemaCompiler.Template.Tree

/-!
# Reading templates

Tokens become nodes.  Variables must be declared before they are used and functions must be
known; a template can define others by name.  The budget of the mutual readers is the number of
tokens, since each of them takes at least one token before it hands on.
-/

namespace SchemaCompiler.Template

/-- A template by name. -/
abbrev Definitions := List (String × List Node)

/-- What is left to read, the variables in scope and the templates defined so far. -/
structure Cursor where
  tokens : List Token
  vars : List String
  definitions : Definitions

abbrev Reader := StateT Cursor Option

namespace Reader

/-- The functions that templates can call. -/
def functions : List String :=
  ["and", "or", "not", "len", "index", "slice", "print", "printf", "println", "eq", "ne", "lt",
    "le", "gt", "ge", "html", "js", "urlquery", "call", "snake", "pascal", "camel", "plural",
    "quote", "join", "title", "upper"]

def refuse {α : Type} : Reader α := fun _ => none

def peek : Reader (Option Token) := do return (← get).tokens.head?

def take : Reader Token := do
  match (← get).tokens with
  | [] => refuse
  | t :: rest =>
    modify fun c => { c with tokens := rest }
    return t

def skipBlank : Reader Unit :=
  modify fun c => { c with tokens := c.tokens.dropWhile (· = .blank) }

def peekPast : Reader (Option Token) := do
  skipBlank
  peek

def takePast : Reader Token := do
  skipBlank
  take

def expect (t : Token) : Reader Unit := do
  if (← takePast) = t then return () else refuse

def declare (name : String) : Reader Unit :=
  modify fun c => { c with vars := c.vars ++ [name] }

/-- Reads within a scope of its own. -/
def inScope {α : Type} (r : Reader α) : Reader α := do
  let vars := (← get).vars
  let a ← r
  modify fun c => { c with vars }
  return a

/-- The fields that follow an operand. -/
def fields : Reader (List String) := do
  let path := (← get).tokens.takeWhile fun t => match t with
    | .field _ => true
    | _ => false
  modify fun c => { c with tokens := c.tokens.drop path.length }
  return path.filterMap fun t => match t with
    | .field name => some name
    | _ => none

/-- The variables that a pipeline sets, and whether they are there already. -/
def declarations (isLoop : Bool) : Reader (Bool × List String) := do
  skipBlank
  let c ← get
  let past (tokens : List Token) := tokens.dropWhile (· = .blank)
  let declared (assigns : Bool) (names : List String) (tokens : List Token) := do
    set { c with tokens, vars := c.vars ++ names }
    return (assigns, names)
  match c.tokens with
  | .var v :: rest =>
    match past rest with
    | .assign :: rest => declared true [v] rest
    | .declare :: rest => declared false [v] rest
    | .other ',' :: rest =>
      if !isLoop then refuse
      match past rest with
      | .var w :: rest =>
        match past rest with
        | .assign :: rest => declared true [v, w] rest
        | .declare :: rest => declared false [v, w] rest
        | .other ',' :: _ => refuse
        | _ => declared false [v] (.var w :: rest)
      | _ => refuse
    | _ => return (false, [])
  | _ => return (false, [])

/-- Only the first command of a pipeline can be a constant. -/
def checkCommands : List (List Operand) → Reader Unit
  | [] => refuse
  | _ :: rest =>
    if rest.any fun command => (command.head?.map Operand.isConstant).getD true then refuse
    else return ()

mutual

/-- An operand, if one is next. -/
def term : (budget : Nat) → Reader (Option Operand)
  | 0 => refuse
  | budget + 1 => do
    skipBlank
    let c ← get
    let accept (rest : List Token) (o : Operand) : Reader (Option Operand) := do
      set { c with tokens := rest }
      return some o
    match c.tokens with
    | .word name :: rest =>
      if functions.contains name then accept rest (.function name) else refuse
    | .dot :: rest => accept rest .dot
    | .nothing :: rest => accept rest .nothing
    | .var name :: rest => if c.vars.contains name then accept rest (.var name []) else refuse
    | .field name :: rest => accept rest (.field [name])
    | .bool value :: rest => accept rest (.const (.bool value))
    | .str value :: rest => accept rest (.const (.text value))
    | .char code :: rest => accept rest (.const (.int code))
    | .number spelling :: rest => accept rest (.const (← Number.value? spelling))
    | .leftParen :: rest =>
      set { c with tokens := rest }
      let p ← pipeline budget false .rightParen
      return some (.pipeline p.assigns p.vars p.commands)
    | _ => return none

def operand : (budget : Nat) → Reader (Option Operand)
  | 0 => refuse
  | budget + 1 => do
    match ← term budget with
    | none => return none
    | some o =>
      let path ← fields
      if path.isEmpty then return some o
      match o with
      | .field first => return some (.field (first ++ path))
      | .var name first => return some (.var name (first ++ path))
      | .const _ | .nothing | .dot => refuse
      | o => return some (.chain o path)

/-- The operands of a command, up to a bar or the end of the pipeline. -/
def operands : (budget : Nat) → Reader (List Operand)
  | 0 => refuse
  | budget + 1 => do
    let found ← operand budget
    match (← get).tokens with
    | .blank :: _ =>
      let _ ← take
      return found.toList ++ (← operands budget)
    | .closing :: _ | .rightParen :: _ => return found.toList
    | .pipe :: _ =>
      let _ ← take
      return found.toList
    | _ => refuse

def commands : (budget : Nat) → (last : Token) → Reader (List (List Operand))
  | 0, _ => refuse
  | budget + 1, last => do
    match ← peekPast with
    | none => refuse
    | some t =>
      if t = last then
        let _ ← take
        return []
      match t with
      | .closing | .rightParen | .pipe => refuse
      | _ =>
        let command ← operands budget
        if command.isEmpty then refuse
        return command :: (← commands budget last)

def pipeline : (budget : Nat) → (isLoop : Bool) → (last : Token) → Reader Pipeline
  | 0, _, _ => refuse
  | budget + 1, isLoop, last => do
    let (assigns, vars) ← declarations isLoop
    let found ← commands budget last
    checkCommands found
    return ⟨assigns, vars, found⟩

end

/-- How a list of nodes ends. -/
inductive Ending where
  | finished
  | otherwise
  | text
  deriving DecidableEq

/-- Adds a definition unless another that is not blank has the name. -/
def define (name : String) (body : List Node) : Reader Unit := do
  let isBlank (nodes : List Node) : Bool := nodes.all fun n => match n with
    | .text s => s.toList.all Token.isSpace
    | _ => false
  let definitions := (← get).definitions
  if ((definitions.lookup name).map isBlank).getD true then
    modify fun c => { c with definitions := (name, body) :: definitions }
  else if !isBlank body then refuse

def templateName : Reader String := do
  let .str name ← takePast | refuse
  return name

/-- The next word, taken if it is one of some keywords. -/
def keyword? (keywords : List String) : Reader (Option String) := do
  match ← peekPast with
  | some (.word name) =>
    if !keywords.contains name then return none
    let _ ← take
    return some name
  | _ => return none

/-- The words that an action can begin with. -/
def actions : List String :=
  ["if", "range", "with", "template", "block", "break", "continue", "define"]

/-- Defines a template with a scope of its own; its nodes must come to their end. -/
def defined (name : String) (read : Reader (List Node × Ending)) : Reader Unit := do
  let (body, ending) ← inScope do
    modify fun c => { c with vars := ["$"] }
    read
  if ending ≠ .finished then refuse
  define name body

mutual

/-- Nodes up to an end, an alternative, or the end of the text. -/
def nodes : (budget : Nat) → (inLoop : Bool) → Reader (List Node × Ending)
  | 0, _ => refuse
  | budget + 1, inLoop => do
    match (← get).tokens with
    | [] => return ([], .text)
    | .text s :: _ =>
      let _ ← take
      let (more, ending) ← nodes budget inLoop
      return (.text s :: more, ending)
    | .opening :: _ =>
      let _ ← take
      match ← keyword? ["end", "else"] with
      | some "end" =>
        expect .closing
        return ([], .finished)
      | some _ => return ([], .otherwise)
      | _ =>
        let node ← action budget inLoop
        let (more, ending) ← nodes budget inLoop
        return (node :: more, ending)
    | _ => refuse

def action : (budget : Nat) → (inLoop : Bool) → Reader Node
  | 0, _ => refuse
  | budget + 1, inLoop => do
    match ← keyword? actions with
    | some "if" =>
      let (p, body, otherwise) ← block budget inLoop "if"
      return .condition p body otherwise
    | some "range" =>
      let (p, body, otherwise) ← block budget true "range"
      return .loop p body otherwise
    | some "with" =>
      let (p, body, otherwise) ← block budget inLoop "with"
      return .focus p body otherwise
    | some "template" =>
      let name ← templateName
      if (← peekPast) = some .closing then
        let _ ← take
        return .call name none
      return .call name (some (← pipeline (budget * 8) false .closing))
    | some "block" =>
      let name ← templateName
      let p ← pipeline (budget * 8) false .closing
      defined name (nodes budget false)
      return .call name (some p)
    | some "break" =>
      expect .closing
      if inLoop then return .stop else refuse
    | some "continue" =>
      expect .closing
      if inLoop then return .skip else refuse
    | some _ => refuse
    | none => return .action (← pipeline (budget * 8) false .closing)

def block : (budget : Nat) → (inLoop : Bool) → (keyword : String) →
    Reader (Pipeline × List Node × List Node)
  | 0, _, _ => refuse
  | budget + 1, inLoop, keyword => inScope do
    let p ← pipeline (budget * 8) (keyword = "range") .closing
    let (body, ending) ← nodes budget inLoop
    match ending with
    | .text => refuse
    | .finished => return (p, body, [])
    | .otherwise =>
      match ← peekPast with
      | some (.word next) =>
        if next = keyword && (keyword = "if" || keyword = "with") then
          return (p, body, [← action budget inLoop])
        else refuse
      | _ =>
        expect .closing
        let (otherwise, ending) ← nodes budget inLoop
        if ending = .finished then return (p, body, otherwise) else refuse

end

/-- The nodes of a whole text; templates are defined at its top level. -/
def document : (budget : Nat) → Reader (List Node)
  | 0 => refuse
  | budget + 1 => do
    match (← get).tokens with
    | [] => return []
    | .text s :: _ =>
      let _ ← take
      return .text s :: (← document budget)
    | .opening :: _ =>
      let _ ← take
      match ← keyword? ["define", "end", "else"] with
      | some "define" =>
        let name ← templateName
        expect .closing
        defined name (nodes budget false)
        document budget
      | some _ => refuse
      | none =>
        let node ← action budget false
        return node :: (← document budget)
    | _ => refuse

end Reader

/-- The templates that a text defines, its own under `name`. -/
def definitions? (name text : String) : Option Definitions := do
  let tokens ← tokens? text
  let budget := 4 * tokens.length + 8
  let reading : Reader Unit := do
    let body ← Reader.document budget
    Reader.define name body
  let ((), cursor) ← reading ⟨tokens, ["$"], []⟩
  return cursor.definitions

end SchemaCompiler.Template
