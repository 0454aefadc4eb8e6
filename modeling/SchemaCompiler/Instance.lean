import SchemaCompiler.Closure

/-!
# Instances

Each concrete application of a generic declaration gets a name and a projection of its own.  A
tracker records applications as fields use them: an instance is entered under its readable name,
with a hash behind it when another instance of the same declaration holds that name.  Running the
tracker projects each new instance and records what its own fields use, for a bounded number of
rounds.
-/

namespace SchemaCompiler

def Text.hashStep (h : UInt32) (byte : UInt8) : UInt32 :=
  (h ^^^ byte.toUInt32) * 16777619

/-- The 32-bit hash that tells names apart: each byte is mixed in by exclusive or and a
multiplication. -/
def Text.hash32 (text : String) : UInt32 :=
  text.toUTF8.toList.foldl hashStep 2166136261

/-- The hash as eight hexadecimal digits. -/
def Text.hashDigits (text : String) : String :=
  String.ofList (hexDigits 8 (hash32 text).toNat)

structure Instance where
  name : String
  generic : ScopedName
  typeExpr : TypeExpr
  /-- One entry for each use, in order. -/
  referencedBy : List String
  deriving Repr, Inhabited

namespace Instance

def scopedName (i : Instance) : ScopedName := ⟨i.generic.moduleName, i.name⟩

mutual

def readableName : TypeExpr → Outcome String
  | .missing => .error Resolver.missingType
  | .app head args =>
    match args with
    | [] => .ok (TypeExpr.headText ScopedName.name head)
    | a :: as =>
      match readableArgs (a :: as) with
      | .error failure => .error failure
      | .ok args =>
        let mark := match head with
          | .reference _ => "_"
          | _ => ""
        .ok (mark ++ TypeExpr.headText ScopedName.name head ++ args)

def readableArgs : List TypeExpr → Outcome String
  | [] => .ok ""
  | a :: as =>
    match readableName a with
    | .error failure => .error failure
    | .ok first =>
      match readableArgs as with
      | .error failure => .error failure
      | .ok more => .ok ("_" ++ first ++ more)

end

/-- The name of an application among the instances of its declaration. -/
def uniqueName (siblings : List Instance) (t : TypeExpr) : Outcome String :=
  match readableName t with
  | .error failure => .error failure
  | .ok name =>
    match siblings.find? (·.name = name) with
    | none => .ok name
    | some i =>
      if i.typeExpr = t then .ok name
      else .ok (name ++ "_" ++ Text.hashDigits t.scopedText)

def sort (is : List Instance) : List Instance :=
  is.mergeSort fun i j => Text.le i.name j.name

end Instance

structure Tracker where
  /-- The instances of each generic declaration. -/
  instances : List (ScopedName × List Instance)
  /-- The instance name of each recorded application, by its qualified text. -/
  names : List (String × String)
  /-- The projected instances by qualified name. -/
  projections : List (String × Projection)

namespace Tracker

def empty : Tracker := ⟨[], [], []⟩

/-- The instances of a declaration in the order in which they were recorded. -/
def siblings (t : Tracker) (generic : ScopedName) : List Instance :=
  (t.instances.lookup generic).getD []

/-- Puts the instances of a declaration in place of the old ones. -/
def withSiblings (t : Tracker) (generic : ScopedName) (is : List Instance) : Tracker :=
  let instances :=
    if (t.instances.lookup generic).isSome then
      t.instances.map fun (n, old) => if n = generic then (n, is) else (n, old)
    else t.instances ++ [(generic, is)]
  { t with instances }

def instancesOf (t : Tracker) (generic : ScopedName) : List Instance :=
  Instance.sort (t.siblings generic)

/-- The name of an application: the recorded one, else the one it would get now. -/
def nameOf (t : Tracker) (application : TypeExpr) : Outcome String :=
  match t.names.lookup application.scopedText with
  | some name => .ok name
  | none =>
    Instance.uniqueName (t.siblings (application.reference?.getD .blank)) application

/-- The table after a further use of a recorded application. -/
def recordUse (t : Tracker) (generic : ScopedName) (name use : String) :
    Tracker × Outcome (Option (Instance × Bool)) :=
  let siblings := t.siblings generic
  match siblings.find? (·.name = name) with
  | none => (t.withSiblings generic siblings, .error (.panic none))
  | some i =>
    let i := { i with referencedBy := i.referencedBy ++ [use] }
    let siblings := siblings.map fun j => if j.name = name then i else j
    (t.withSiblings generic siblings, .ok (some (i, false)))

/-- The table after the first use of an application. -/
def recordNew (t : Tracker) (generic : ScopedName) (application : TypeExpr) (field use : String) :
    Tracker × Outcome (Option (Instance × Bool)) :=
  let siblings := t.siblings generic
  let entered := t.withSiblings generic siblings
  match Instance.uniqueName siblings application with
  | .error failure => (entered, .error failure)
  | .ok name =>
    match siblings.find? (·.name = name) with
    | some i =>
      (entered, .error (.resolve .instanceNameConflict generic field []
        (i.typeExpr.scopedText ++ " and " ++ application.scopedText ++ " both name instance "
          ++ name) none))
    | none =>
      let i := ⟨name, generic, application, [use]⟩
      let t := t.withSiblings generic (siblings ++ [i])
      ({ t with names := (application.scopedText, name) :: t.names }, .ok (some (i, true)))

/-- Records the application that a monomorphized field of `owner` uses; the answer says whether
the instance is new.  Other fields are passed over. -/
def record (r : Resolver) (t : Tracker) (owner : String) (f : ConcreteField) :
    Tracker × Outcome (Option (Instance × Bool)) :=
  if !f.monomorphized then (t, .ok none)
  else
    match r.core f.typeExpr with
    | .error failure => (t, .error failure)
    | .ok application =>
      let generic := application.reference?.getD .blank
      let use := owner ++ "::" ++ f.name
      match t.names.lookup application.scopedText with
      | some name => t.recordUse generic name use
      | none => t.recordNew generic application f.name use

/-- Records fields in order and returns the new instances; `place` completes a failure. -/
def recordFields (r : Resolver) (owner : String) (place : ConcreteField → Failure → Failure) :
    Tracker → List ConcreteField → Tracker × Outcome (List Instance)
  | t, [] => (t, .ok [])
  | t, f :: rest =>
    match t.record r owner f with
    | (t, .error failure) => (t, .error (place f failure))
    | (t, .ok found) =>
      match recordFields r owner place t rest with
      | (t, .error failure) => (t, .error failure)
      | (t, .ok more) =>
        match found with
        | some (i, true) => (t, .ok (i :: more))
        | _ => (t, .ok more)

/-- Records the fields of projections that are not generic. -/
def recordAll (r : Resolver) : Tracker → List Projection → Tracker × Outcome (List Instance)
  | t, [] => (t, .ok [])
  | t, p :: rest =>
    if p.generic then recordAll r t rest
    else
      match recordFields r p.name.name (fun f => Failure.located p.name f.name p.path) t
          p.fields with
      | (t, .error failure) => (t, .error failure)
      | (t, .ok new) =>
        match recordAll r t rest with
        | (t, .error failure) => (t, .error failure)
        | (t, .ok more) => (t, .ok (new ++ more))

/-- The projection of an instance under its own name. -/
def projectInstance (r : Resolver) (i : Instance) : Outcome Projection := do
  let p ← r.projectType i.typeExpr
  return { p with name := i.scopedName, isInstance := true, generic := false }

/-- Projects instances and records what their fields use. -/
def projectAll (r : Resolver) : Tracker → List Instance → Tracker × Outcome (List Instance)
  | t, [] => (t, .ok [])
  | t, i :: rest =>
    match projectInstance r i with
    | .error failure => (t, .error failure)
    | .ok p =>
      let t := { t with projections := Keyed.insert p.name.text p t.projections }
      match recordFields r i.name (fun f => Failure.located i.generic f.name []) t p.fields with
      | (t, .error failure) => (t, .error failure)
      | (t, .ok new) =>
        match projectAll r t rest with
        | (t, .error failure) => (t, .error failure)
        | (t, .ok more) => (t, .ok (new ++ more))

/-- The most rounds in which instances may lead to new ones. -/
def maxRounds : Nat := 16

def stillExpanding (pending : List Instance) : Failure :=
  .resolve .instanceExpansion ((pending.head?.map (·.generic)).getD .blank) "" []
    ("still expanding after " ++ toString maxRounds ++ " rounds: "
      ++ Text.joinWith ", " (pending.map (·.name))) none

def settle (r : Resolver) : (rounds : Nat) → Tracker → List Instance → Tracker × Outcome Unit
  | _, t, [] => (t, .ok ())
  | 0, t, pending => (t, .error (stillExpanding pending))
  | rounds + 1, t, pending =>
    match projectAll r t pending with
    | (t, .error failure) => (t, .error failure)
    | (t, .ok next) => settle r rounds t next

/-- The projected instances by qualified name. -/
def instanceProjections (t : Tracker) : List Projection :=
  Projection.sort (t.projections.map (·.2))

/-- Records the fields of projections and projects instances until no new one appears. -/
def run (r : Resolver) (t : Tracker) (ps : List Projection) :
    Tracker × Outcome (List Projection) :=
  match recordAll r t ps with
  | (t, .error failure) => (t, .error failure)
  | (t, .ok pending) =>
    match settle r maxRounds t pending with
    | (t, .error failure) => (t, .error failure)
    | (t, .ok ()) => (t, .ok t.instanceProjections)

/-- The instances of each generic declaration by name. -/
def table (t : Tracker) : List (ScopedName × List Instance) :=
  t.instances.map fun (generic, is) => (generic, Instance.sort is)

end Tracker

end SchemaCompiler
