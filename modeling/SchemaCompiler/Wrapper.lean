import SchemaCompiler.Binding
import SchemaCompiler.Store

/-!
# Wrappers

Some types only wrap another one: lists, optional values, maps with text keys, and references to
declarations.  `Resolver` holds the declarations and the vocabulary of wrappers, and sees one
layer of a type expression at a time.  Aliases are followed with a budget of one visit for each
key of the store, which no chain without a repetition exceeds.
-/

namespace SchemaCompiler

/-- How many values a field holds, by its outermost wrapper. -/
inductive Cardinality where
  | one
  | optional
  | many
  | map
  deriving DecidableEq, Repr, Inhabited

def Cardinality.text : Cardinality → String
  | one => "one"
  | optional => "optional"
  | many => "many"
  | map => "map"

/-- The text of a cardinality given by its number; numbers below zero have none. -/
def Cardinality.numberText (n : Int) : Outcome String :=
  if n < 0 then .error (.panic none)
  else match [one, optional, many, map][n.toNat]? with
    | some c => .ok c.text
    | none => .ok ("Cardinality(" ++ toString n ++ ")")

inductive WrapperKind where
  | plain
  | optional
  | list
  | map
  | reference
  deriving DecidableEq, Repr

namespace WrapperKind

def cardinality : WrapperKind → Cardinality
  | optional => .optional
  | list => .many
  | map => .map
  | _ => .one

def all : List WrapperKind := [plain, optional, list, map, reference]

/-- The kind with a number; a number that names none counts as plain. -/
def ofNumber (n : Int) : WrapperKind :=
  if n < 0 then plain else all[n.toNat]?.getD plain

def text : WrapperKind → String
  | plain => "plain"
  | optional => "optional"
  | list => "list"
  | map => "map"
  | reference => "reference"

end WrapperKind

/-- The vocabulary of wrappers. -/
structure Wrappers where
  lists : List String
  optionals : List String
  optionalRefs : List ScopedName
  maps : List String
  references : List ScopedName
  deriving Repr

namespace Wrappers

def standard : Wrappers where
  lists := ["Vector", "List"]
  optionals := ["Nullable", "Maybe"]
  optionalRefs := [⟨"sys.types", "Maybe"⟩]
  maps := ["StringMap"]
  references := [⟨"savanti.schema.v1.types", "Ref"⟩, ⟨"common.db", "DbKey"⟩]

def isReference (w : Wrappers) (n : ScopedName) : Bool :=
  w.references.contains n

/-- Whether a primitive takes one argument. -/
def isParametric (w : Wrappers) (primitive : String) : Bool :=
  w.lists.contains primitive || w.optionals.contains primitive || w.maps.contains primitive

def primitiveKind (w : Wrappers) (primitive : String) : WrapperKind :=
  if w.lists.contains primitive then .list
  else if w.optionals.contains primitive then .optional
  else if w.maps.contains primitive then .map
  else .plain

end Wrappers

/-- One layer of a type expression.  `inner` is the argument of a wrapper, and the expression
itself when there is none; a reference to a parameter that is still open has no target. -/
structure Wrapped where
  kind : WrapperKind
  inner : TypeExpr
  target : ScopedName
  deriving Repr

/-- A reference to a parameter that is still open. -/
def Wrapped.isOpen (w : Wrapped) : Bool :=
  w.kind = .reference && w.target = .blank

/-- Declarations and the vocabulary of wrappers. -/
structure Resolver where
  store : Store
  wrappers : Wrappers

namespace Resolver

/-- The single argument of a wrapper. -/
def single (name : String) (args : List TypeExpr) : Outcome TypeExpr :=
  match args with
  | [inner] => .ok inner
  | _ =>
    .error (.resolve .arityMismatch .blank "" []
      (name ++ " takes 1 type argument, got " ++ toString args.length) none)

def cyclicAlias (n : ScopedName) : Failure :=
  .resolve .unsupportedRootKind n "" [] "cyclic type alias" none

/-- Follows aliases at the head, at most `budget` of them and none of `seen`. -/
def expandWithin (r : Resolver) : (budget : Nat) → (seen : List ScopedName) → TypeExpr →
    Outcome TypeExpr
  | budget, seen, t =>
    match t.reference? with
    | none => .ok t
    | some n =>
      if r.wrappers.isReference n then .ok t
      else
        match r.store.resolve n with
        | .error failure => .error failure
        | .ok d =>
          match d.decl.body with
          | .synonym params target =>
            match budget with
            | 0 => .error (cyclicAlias n)
            | budget + 1 =>
              if seen.contains n then .error (cyclicAlias n)
              else
                match Env.bind n params t.args with
                | .error failure => .error failure
                | .ok env =>
                  match target.substitute env with
                  | .error failure => .error failure
                  | .ok t => r.expandWithin budget (n :: seen) t
          | _ => .ok t

/-- Follows aliases at the head until it is no alias or a reference wrapper. -/
def expandAliases (r : Resolver) (t : TypeExpr) : Outcome TypeExpr :=
  r.expandWithin (r.store.keys.length + 1) [] t

def nested (wrapper : ScopedName) (inner : TypeExpr) : Failure :=
  .resolve .nestedReferenceWrapper .blank "" [] (wrapper.name ++ " wraps " ++ inner.text) none

/-- The target of a reference wrapper: a declaration that is no reference wrapper itself, also
behind aliases, or none for a parameter. -/
def referenceTarget (r : Resolver) (wrapper : ScopedName) (inner : TypeExpr) :
    Outcome ScopedName :=
  match inner with
  | .missing => .error (.panic (some "resolve: unreachable type ref <nil>"))
  | .app (.param _) _ => .ok .blank
  | .app (.primitive name) _ =>
    .error (.resolve .invalidReferenceTarget .blank "" []
      (wrapper.text ++ " must wrap a declaration, got primitive " ++ name) none)
  | .app (.reference n) _ =>
    if r.wrappers.isReference n then .error (nested wrapper inner)
    else
      match r.expandAliases inner with
      | .error failure => .error failure
      | .ok expanded =>
        match expanded.reference? with
        | some m => if r.wrappers.isReference m then .error (nested wrapper inner) else .ok n
        | none => .ok n

/-- The refusal of a place that holds no type. -/
def missingType : Failure :=
  .panic (some "adlast: unreachable type ref <nil>")

/-- Unwraps one layer. -/
def classify (r : Resolver) (t : TypeExpr) : Outcome Wrapped :=
  match t with
  | .missing => .error missingType
  | .app (.param _) _ => .ok ⟨.plain, t, .blank⟩
  | .app (.primitive name) args =>
    match r.wrappers.primitiveKind name with
    | .plain => .ok ⟨.plain, t, .blank⟩
    | kind =>
      match single name args with
      | .error failure => .error failure
      | .ok inner => .ok ⟨kind, inner, .blank⟩
  | .app (.reference n) args =>
    if r.wrappers.optionalRefs.contains n then
      match single n.text args with
      | .error failure => .error failure
      | .ok inner => .ok ⟨.optional, inner, .blank⟩
    else if r.wrappers.isReference n then
      match single n.text args with
      | .error failure => .error failure
      | .ok inner =>
        match r.referenceTarget n inner with
        | .error failure => .error failure
        | .ok target => .ok ⟨.reference, inner, target⟩
    else .ok ⟨.plain, t, .blank⟩

/-- One layer behind aliases. -/
def classifyExpanded (r : Resolver) (t : TypeExpr) : Outcome Wrapped :=
  match r.expandAliases t with
  | .error failure => .error failure
  | .ok t => r.classify t

/-- The target of a layer that is a reference with a target. -/
def target? (w : Wrapped) : Option ScopedName :=
  if w.kind = .reference && !w.isOpen then some w.target else none

/-- The target of a reference wrapper, behind aliases and at most one optional layer. -/
def link (r : Resolver) (t : TypeExpr) : Outcome (Option ScopedName) :=
  match r.classifyExpanded t with
  | .error failure => .error failure
  | .ok w =>
    if w.kind = .optional then
      match r.classifyExpanded w.inner with
      | .error failure => .error failure
      | .ok w => .ok (target? w)
    else .ok (target? w)

mutual

/-- The targets of all reference wrappers inside wrappers and inside the arguments of
declarations, in order. -/
def references (r : Resolver) : TypeExpr → Outcome (List ScopedName)
  | .missing => .error missingType
  | .app head args =>
    match r.classify (.app head args) with
    | .error failure => .error failure
    | .ok w =>
      match w.kind with
      | .reference => .ok (target? w).toList
      | .plain =>
        match head with
        | .reference _ => r.referencesAll args
        | _ => .ok []
      | _ => r.referencesFirst args

def referencesAll (r : Resolver) : List TypeExpr → Outcome (List ScopedName)
  | [] => .ok []
  | a :: as =>
    match r.references a with
    | .error failure => .error failure
    | .ok found =>
      match r.referencesAll as with
      | .error failure => .error failure
      | .ok more => .ok (found ++ more)

def referencesFirst (r : Resolver) : List TypeExpr → Outcome (List ScopedName)
  | [] => .ok []
  | a :: _ => r.references a

end

mutual

/-- The expression without the lists, optional values and maps around it. -/
def core (r : Resolver) : TypeExpr → Outcome TypeExpr
  | .missing => .error missingType
  | .app head args =>
    match r.classify (.app head args) with
    | .error failure => .error failure
    | .ok w =>
      match w.kind with
      | .reference | .plain => .ok (.app head args)
      | _ => r.coreFirst args

def coreFirst (r : Resolver) : List TypeExpr → Outcome TypeExpr
  | [] => .ok .missing
  | a :: _ => r.core a

end

/-- Replaces an alias or new type at the head by its definition; none when the head is anything
else. -/
def expandOnce (r : Resolver) (t : TypeExpr) : Outcome (Option TypeExpr) :=
  match t.reference? with
  | none => .ok none
  | some n =>
    match r.store.resolve n with
    | .error failure => .error failure
    | .ok d =>
      match d.decl.body.target? with
      | none => .ok none
      | some target =>
        match Env.bind n d.decl.params t.args with
        | .error failure => .error failure
        | .ok env =>
          match target.substitute env with
          | .error failure => .error failure
          | .ok t => .ok (some t)

end Resolver

end SchemaCompiler
