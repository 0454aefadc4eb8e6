import SchemaCompiler.Projection

/-!
# Closures

The closure of a list of roots holds their projections and those of all declarations outside the
focus that a reference wrapper in a projected field points to.  It is collected in rounds; each
round but the first enters a declaration not seen before, so the rounds are at most one more than
the keys of the store.
-/

namespace SchemaCompiler

/-- The order of projections: by qualified name. -/
def Projection.le (p q : Projection) : Bool :=
  ScopedName.le p.name q.name

def Projection.sort (ps : List Projection) : List Projection :=
  ps.mergeSort le

namespace Resolver

/-- The targets that are still to be projected, with the names seen so far. -/
structure Frontier where
  seen : List ScopedName
  next : List ScopedDecl

/-- Enters a target outside the focus that was not seen before. -/
def enterTarget (r : Resolver) (inFocus : ScopedName → Bool) (front : Frontier)
    (target : ScopedName) : Outcome Frontier :=
  if front.seen.contains target || inFocus target then .ok front
  else
    match r.store.resolve target with
    | .error failure => .error failure
    | .ok d => .ok ⟨target :: front.seen, front.next ++ [d]⟩

/-- Enters the targets of a projection, field by field. -/
def enterTargets (r : Resolver) (inFocus : ScopedName → Bool) (p : Projection)
    (front : Frontier) : Outcome Frontier :=
  p.fields.foldlM (fun front f =>
    match f.references.foldlM (r.enterTarget inFocus) front with
    | .error failure => .error (failure.located p.name f.name p.path)
    | .ok front => .ok front) front

/-- The projections of a round, each made by a worker of its own. -/
def projectRound (r : Resolver) (round : List ScopedDecl) : Outcome (List Projection) :=
  round.mapM fun d => (r.project d []).mapError Failure.ofWorker

def closeWithin (r : Resolver) (inFocus : ScopedName → Bool) :
    (budget : Nat) → (seen : List ScopedName) → List ScopedDecl → Outcome (List Projection)
  | _, _, [] | 0, _, _ => .ok []
  | budget + 1, seen, round => do
    let projected ← r.projectRound round
    let front ← projected.foldlM (fun front p => r.enterTargets inFocus p front) ⟨seen, []⟩
    let found := projected.map fun p => { p with external := !inFocus p.name }
    return found ++ (← r.closeWithin inFocus budget front.seen front.next)

/-- Declarations in order, each name once. -/
def distinctRoots (seen : List ScopedName) : List ScopedDecl → List ScopedDecl
  | [] => []
  | d :: rest =>
    if seen.contains d.name then distinctRoots seen rest
    else d :: distinctRoots (d.name :: seen) rest

/-- The closure of `roots`, in order of qualified names. -/
def closure (r : Resolver) (roots : List ScopedDecl) (inFocus : ScopedName → Bool) :
    Outcome (List Projection) := do
  let roots := distinctRoots [] roots
  return Projection.sort
    (← r.closeWithin inFocus (r.store.keys.length + 2) (roots.map (·.name)) roots)

end Resolver

end SchemaCompiler
