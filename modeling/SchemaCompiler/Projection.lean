import SchemaCompiler.Wrapper

/-!
# Projections

A projection is the list of fields that a declaration has once aliases and new types are expanded
and fields marked as spread are replaced by the fields of their type.  No declaration is entered
twice on one path; the budget of `expand` is one visit for each declaration of the store, so it
is never what ends an expansion that repeats no declaration.
-/

namespace SchemaCompiler

/-- A field after substitution, with what follows from its type. -/
structure ConcreteField where
  field : Field
  cardinality : Cardinality
  /-- No type parameter is left. -/
  concrete : Bool
  /-- Under wrappers, the type applies a declaration to arguments and is concrete. -/
  monomorphized : Bool
  link : Option ScopedName
  references : List ScopedName
  /-- The struct or union that declares the field. -/
  origin : ScopedName
  deriving Repr, Inhabited

def ConcreteField.name (f : ConcreteField) : String := f.field.name

def ConcreteField.typeExpr (f : ConcreteField) : TypeExpr := f.field.typeExpr

structure Projection where
  name : ScopedName
  /-- The declaration that was projected. -/
  decl : ScopedDecl
  kind : DeclKind
  /-- The struct or union that the fields come from. -/
  shape : ScopedName
  fields : List ConcreteField
  annotations : Annotations
  /-- Projected with open type parameters. -/
  generic : Bool
  /-- Outside the focus. -/
  external : Bool
  /-- A monomorphic instance of a generic declaration. -/
  isInstance : Bool
  /-- The application that an instance was projected from. -/
  typeExpr : TypeExpr
  /-- The aliases and new types on the way to the shape. -/
  path : List String
  deriving Repr

def Projection.field? (p : Projection) (name : String) : Option ConcreteField :=
  p.fields.find? (·.name = name)

/-- A union whose branches all have no content. -/
def Projection.isEnum (p : Projection) : Bool :=
  p.kind = .union && isEnumeration (p.fields.map (·.typeExpr))

/-- Fills in the place of a failure that does not know it; a failure of another kind gets the
place in front. -/
def Failure.located (decl : ScopedName) (field : String) (path : List String) : Failure → Failure
  | .resolve rule d f p message cause =>
    .resolve rule (if d = .blank then decl else d) (if f = "" then field else f)
      (if p.isEmpty then path else p) message cause
  | .panic message => .panic message
  | failure =>
    .context ("resolve: " ++ decl.text ++ part " field " field) failure

/-- The annotation of fields that are replaced by the fields of their type. -/
def spreadKey : ScopedName := ⟨"common.db", "DbSpread"⟩

namespace Resolver

/-- Whether an expression and all inside it have as many arguments as their heads take. -/
def checkHead (r : Resolver) : TypeExpr → Outcome Unit
  | .missing | .app (.param _) _ => .ok ()
  | .app (.reference n) args =>
    match r.store.resolve n with
    | .error failure => .error failure
    | .ok d =>
      if d.decl.params.length = args.length then .ok ()
      else
        .error (.resolve .arityMismatch .blank "" []
          (Env.arityMessage n d.decl.params.length args.length) none)
  | .app (.primitive name) args =>
    let wanted := if r.wrappers.isParametric name then 1 else 0
    if args.length = wanted then .ok ()
    else
      .error (.resolve .arityMismatch .blank "" []
        (name ++ " takes " ++ toString wanted ++ " type argument(s), got "
          ++ toString args.length) none)

/-- Checks expressions in order, up to the first failure. -/
def checkHeads (r : Resolver) : List TypeExpr → Outcome Unit
  | [] => .ok ()
  | t :: rest =>
    match r.checkHead t with
    | .error failure => .error failure
    | .ok () => r.checkHeads rest

def checkArity (r : Resolver) (t : TypeExpr) : Outcome Unit :=
  r.checkHeads t.walk

/-- Whether the core of a concrete type is a generic declaration in use. -/
def isApplication (r : Resolver) (core : TypeExpr) : Bool :=
  match core with
  | .app (.reference n) args => !args.isEmpty && !r.wrappers.isReference n
  | _ => false

def concreteField (r : Resolver) (owner : ScopedName) (f : Field) (t : TypeExpr) :
    Outcome ConcreteField := do
  let layer ← r.classify t
  let references ← r.references t
  let core ← r.core t
  let link ← r.link t
  let references := match link with
    | some target => if references.contains target then references else references ++ [target]
    | none => references
  return {
    field := { f with typeExpr := t }
    cardinality := layer.kind.cardinality
    concrete := !t.hasParams
    monomorphized := !t.hasParams && r.isApplication core
    link
    references
    origin := owner }

/-- What a declaration expands to. -/
structure Expansion where
  shape : ScopedDecl
  /-- The declarations entered up to the shape. -/
  path : List String
  fields : List ConcreteField

/-- Where an expansion stands: the declarations it is inside of and how they are written. -/
structure Trail where
  active : List ScopedName
  path : List String

def Trail.enter (trail : Trail) (d : ScopedDecl) : Trail :=
  ⟨d.name :: trail.active, trail.path ++ [d.decl.kind.tag ++ ":" ++ d.decl.name]⟩

/-- How the declarations inside an expansion are expanded. -/
abbrev Enter := Trail → ScopedDecl → Env → Outcome Expansion

/-- Expands the declaration that a substituted type refers to. -/
def expandType (r : Resolver) (enter : Enter) (trail : Trail) (t : TypeExpr) :
    Outcome Expansion :=
  match t.reference? with
  | none =>
    .error (.resolve .unsupportedRootKind .blank "" trail.path
      (t.text ++ " does not denote a struct or union") none)
  | some n =>
    if r.wrappers.isReference n || r.wrappers.optionalRefs.contains n then
      .error (.resolve .unsupportedRootKind .blank "" trail.path
        (t.text ++ " is a wrapper, not a struct or union") none)
    else do
      let target ← r.store.resolve n
      let env ← Env.bind n target.decl.params t.args
      enter trail target env

/-- The fields that one declared field contributes. -/
def expandField (r : Resolver) (enter : Enter) (trail : Trail) (owner : ScopedName) (env : Env)
    (f : Field) : Outcome (List ConcreteField) := do
  let t ← f.typeExpr.substitute env
  r.checkArity t
  if f.annotations.has spreadKey then return (← r.expandType enter trail t).fields
  return [← r.concreteField owner f t]

def expandFields (r : Resolver) (enter : Enter) (trail : Trail) (owner : ScopedName) (env : Env) :
    List Field → Outcome (List ConcreteField)
  | [] => .ok []
  | f :: rest =>
    match r.expandField enter trail owner env f with
    | .error failure => .error (failure.located owner f.name trail.path)
    | .ok found =>
      match r.expandFields enter trail owner env rest with
      | .error failure => .error failure
      | .ok more => .ok (found ++ more)

/-- The first two fields of one name. -/
def clash? (earlier : List ConcreteField) : List ConcreteField →
    Option (ConcreteField × ConcreteField)
  | [] => none
  | f :: rest =>
    match earlier.find? (·.name = f.name) with
    | some first => some (first, f)
    | none => clash? (earlier ++ [f]) rest

/-- All fields of a struct or union; names must differ. -/
def shapeFields (r : Resolver) (enter : Enter) (trail : Trail) (owner : ScopedName) (env : Env)
    (fields : List Field) : Outcome (List ConcreteField) :=
  match r.expandFields enter trail owner env fields with
  | .error failure => .error failure
  | .ok fields =>
    match clash? [] fields with
    | none => .ok fields
    | some (first, second) =>
      .error (.resolve .duplicateField owner second.name trail.path
        ("declared by both " ++ first.origin.text ++ " and " ++ second.origin.text) none)

/-- Expands the definition of an alias or new type. -/
def expandTarget (r : Resolver) (enter : Enter) (trail : Trail) (owner : ScopedName) (env : Env)
    (target : TypeExpr) : Outcome Expansion :=
  match target.substitute env with
  | .error failure => .error (failure.located owner "" trail.path)
  | .ok t =>
    match r.expandType enter trail t with
    | .error failure => .error (failure.located owner "" trail.path)
    | .ok expansion => .ok expansion

/-- Expands a declaration that is not being expanded already. -/
def expand (r : Resolver) : (budget : Nat) → Enter
  | budget, trail, d, env =>
    let repeated := .error (.resolve .unsupportedRootKind d.name "" trail.path
      "declaration expands to itself" none)
    if trail.active.contains d.name then repeated
    else
      match budget with
      | 0 => repeated
      | budget + 1 =>
        let trail := trail.enter d
        match d.decl.body with
        | .struct _ fields => do
          return ⟨d, trail.path, ← r.shapeFields (r.expand budget) trail d.name env fields⟩
        | .union _ fields => do
          return ⟨d, trail.path, ← r.shapeFields (r.expand budget) trail d.name env fields⟩
        | .synonym _ target | .newtype _ target _ =>
          r.expandTarget (r.expand budget) trail d.name env target

/-- A visit for each declaration of the store, one for a declaration from outside and one more. -/
def expansionBudget (r : Resolver) : Nat :=
  r.store.keys.length + 2

/-- Projects a declaration under bindings; without bindings its parameters stay open. -/
def project (r : Resolver) (d : ScopedDecl) (env : Env) : Outcome Projection := do
  let expansion ← r.expand r.expansionBudget ⟨[], []⟩ d env
  return {
    name := d.name
    decl := d
    kind := expansion.shape.decl.kind
    shape := expansion.shape.name
    fields := expansion.fields
    annotations := d.decl.annotations
    generic := !d.decl.params.isEmpty && env.isEmpty
    external := false
    isInstance := false
    typeExpr := .missing
    path := if expansion.path.length < 2 then [] else expansion.path }

/-- Projects the declaration that a type applies to its arguments. -/
def projectType (r : Resolver) (t : TypeExpr) : Outcome Projection :=
  match t.reference? with
  | none =>
    .error (.resolve .unsupportedRootKind .blank "" [] ("cannot project " ++ t.text) none)
  | some n => do
    let d ← r.store.resolve n
    let env ← Env.bind n d.decl.params t.args
    let p ← r.project d env
    return { p with typeExpr := t, generic := t.hasParams }

/-- Whether a declaration is projected on its own account: structs and unions are, aliases and new
types only under one of the keys. -/
def isRoot (tableKeys : List ScopedName) (d : ScopedDecl) : Bool :=
  match d.decl.kind with
  | .struct | .union => true
  | _ => tableKeys.any d.decl.annotations.has

end Resolver

end SchemaCompiler
