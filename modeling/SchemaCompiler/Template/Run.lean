import SchemaCompiler.Template.Function
import SchemaCompiler.Template.Parse

/-!
# Running templates

A run walks the nodes of a template with a value in focus and writes text.  Walking is recursion
on the tree; only calls of templates by name need a bound on their depth.
-/

namespace SchemaCompiler.Template

/-- The variables of a run, the innermost first, and what it has written, the latest first. -/
structure Progress where
  vars : List (String × Value)
  written : List Content

abbrev Runner := StateT Progress Option

/-- How a list of nodes was left. -/
inductive Leaving where
  | finished
  | stopped
  | skipped
  deriving DecidableEq

namespace Runner

def refuse {α : Type} : Runner α := fun _ => none

def declare (name : String) (v : Value) : Runner Unit :=
  modify fun p => { p with vars := (name, v) :: p.vars }

/-- Sets the innermost variable of a name. -/
def setIn (name : String) (v : Value) :
    List (String × Value) → Option (List (String × Value))
  | [] => none
  | (key, old) :: rest =>
    if key = name then some ((key, v) :: rest)
    else (setIn name v rest).map ((key, old) :: ·)

def assign (name : String) (v : Value) : Runner Unit := do
  let p ← get
  set { p with vars := ← setIn name v p.vars }

/-- Runs in a scope: variables declared inside are gone after it. -/
def inScope {α : Type} (r : Runner α) : Runner α := do
  let depth := (← get).vars.length
  let a ← r
  modify fun p => { p with vars := p.vars.drop (p.vars.length - depth) }
  return a

def write (c : Content) : Runner Unit :=
  modify fun p => { p with written := c :: p.written }

/-- A field of a value: a map has those of its members, nothing has every field. -/
def field (v : Value) (name : String) : Runner Value :=
  match v with
  | .absent => return .absent
  | .map members => return Value.member name members
  | _ => refuse

def fields (v : Value) (path : List String) : Runner Value := path.foldlM field v

/-- A value that takes no arguments was given some. -/
def alone (v : Value) (hasArguments : Bool) : Runner Value :=
  if hasArguments then refuse else return v

/-- Fields take no arguments, unless they are fields of nothing. -/
def fieldsAlone (v : Value) (path : List String) (hasArguments : Bool) : Runner Value :=
  match path with
  | [] => alone v hasArguments
  | [name] =>
    match v with
    | .absent => return .absent
    | v => do alone (← field v name) hasArguments
  | name :: path => do fieldsAlone (← field v name) path hasArguments

def valueOf (name : String) : Runner Value := do
  (← get).vars.lookup name

def bindVariables (assigns : Bool) (names : List String) (v : Value) : Runner Unit :=
  names.forM fun name => if assigns then assign name v else declare name v

mutual

def operand (dot : Value) : Operand → Runner Value
  | .dot => return dot
  | .nothing => return .absent
  | .const v => return v
  | .field path => fields dot path
  | .var name path => do fields (← valueOf name) path
  | .function name =>
    if name = "and" || name = "or" then refuse else call? name []
  | .pipeline assigns names found => do
    let v := (← commands dot none found).settled
    bindVariables assigns names v
    return v
  | .chain o path => do fields (← operand dot o) path

def operandList (dot : Value) : List Operand → Runner (List Value)
  | [] => return []
  | o :: rest => do return (← operand dot o) :: (← operandList dot rest)

/-- The first operand whose truth decides, or else the last. -/
def firstDecisive (dot : Value) (decisive : Bool) (last : Option Value) :
    List Operand → Runner (Option Value)
  | [] => return last
  | [o] => do
    let v ← operand dot o
    return if v.truth = decisive then some v else some (last.getD v)
  | o :: rest => do
    let v ← operand dot o
    if v.truth = decisive then return some v else firstDecisive dot decisive last rest

/-- A command, with the value that the command before hands on. -/
def command (dot : Value) (last : Option Value) : List Operand → Runner Value
  | [] => refuse
  | .function name :: args =>
    if name = "and" || name = "or" then do
      (← firstDecisive dot (name = "or") last args)
    else do
      call? name ((← operandList dot args) ++ last.toList)
  | .nothing :: _ => refuse
  | .field path :: args => fieldsAlone dot path (!args.isEmpty || last.isSome)
  | .var name path :: args => do
    fieldsAlone (← valueOf name) path (!args.isEmpty || last.isSome)
  | .chain o path :: args => do
    fieldsAlone (← operand dot o) path (!args.isEmpty || last.isSome)
  | o :: args => do
    if !args.isEmpty || last.isSome then refuse
    operand dot o

def commands (dot : Value) (last : Option Value) : List (List Operand) → Runner Value
  | [] => return last.getD .absent
  | c :: rest => do commands dot (some (← command dot last c).settled) rest

end

def pipeline (dot : Value) (p : Pipeline) : Runner Value := do
  let v := (← commands dot none p.commands).settled
  bindVariables p.assigns p.vars v
  return v

/-- What a loop runs over: a place and an item for each turn. -/
def turns : Value → Option (List (Value × Value))
  | .absent => some []
  | .list items | .records items => some (items.zipIdx.map fun (item, (i : Nat)) => (.int i, item))
  | .map members => some (members.map fun (key, v) => (.text key, v))
  | .int n => some ((List.range n.toNat).map fun (i : Nat) => (.absent, .int i))
  | _ => none

/-- Sets the variables of a loop for a turn. -/
def setTurn (assigns : Bool) (names : List String) (place item : Value) : Runner Unit :=
  match names with
  | [v] => assign v item
  | [i, v] =>
    if assigns then do assign i place; assign v item
    else modify fun p =>
      match p.vars with
      | (v, _) :: (i, _) :: rest => { p with vars := (v, item) :: (i, place) :: rest }
      | vars => { p with vars }
  | _ => return ()

/-- Takes the turns of a loop until one stops it. -/
def takeTurns (body : Value → Value → Runner Leaving) : List (Value × Value) → Runner Unit
  | [] => return ()
  | (place, item) :: rest => do
    if (← inScope (body place item)) = .stopped then return ()
    takeTurns body rest

mutual

def node (call : String → Value → Runner Unit) (dot : Value) : Node → Runner Leaving
  | .text s => do
    write (.text s)
    return .finished
  | .action p => do
    let v ← pipeline dot p
    if p.vars.isEmpty then write v.printed
    return .finished
  | .condition p body otherwise => inScope do
    if (← pipeline dot p).truth then nodes call dot body else nodes call dot otherwise
  | .focus p body otherwise => inScope do
    let v ← pipeline dot p
    if v.truth then nodes call v body else nodes call dot otherwise
  | .loop p body otherwise => inScope do
    let v ← pipeline dot p
    match v, p.vars with
    | .int _, [_, _] => refuse
    | _, _ =>
      let found ← turns v
      if found.isEmpty then nodes call dot otherwise
      else
        takeTurns (fun place item => do
          setTurn p.assigns p.vars place item
          nodes call item body) found
        return .finished
  | .call name p => inScope do
    let v ← match p with
      | some p => pipeline dot p
      | none => pure .absent
    call name v
    return .finished
  | .stop => return .stopped
  | .skip => return .skipped

def nodes (call : String → Value → Runner Unit) (dot : Value) : List Node → Runner Leaving
  | [] => return .finished
  | n :: rest => do
    match ← node call dot n with
    | .finished => nodes call dot rest
    | leaving => return leaving

end

/-- Runs a template by name, with its own variables. -/
def template (definitions : Definitions) : (depth : Nat) → String → Value → Runner Unit
  | 0, _, _ => refuse
  | depth + 1, name, dot => do
    let body ← definitions.lookup name
    let vars := (← get).vars
    modify fun p => { p with vars := [("$", dot)] }
    let _ ← nodes (template definitions depth) dot body
    modify fun p => { p with vars }

/-- How deep templates may call each other. -/
def maxDepth : Nat := 4000

end Runner

/-- What a template writes on a value. -/
def render? (name text : String) (data : Value) : Option Content := do
  let definitions ← definitions? name text
  let ((), progress) ← Runner.template definitions Runner.maxDepth name data ⟨[], []⟩
  return Content.ofBytes (progress.written.reverse.flatMap Content.toBytes)

end SchemaCompiler.Template
