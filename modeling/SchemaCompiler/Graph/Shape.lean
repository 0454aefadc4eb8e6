import SchemaCompiler.Graph

/-!
# Shapes

The struct or union that a type denotes once aliases and new types are expanded.  A declaration
outside the graph is projected when it is first asked for and kept; `Shapes` holds what was
projected so far, by qualified name or application.
-/

namespace SchemaCompiler

abbrev Shapes := List (String × Projection)

namespace Graph

/-- The longest chain of aliases and new types that is followed. -/
def maxExpansion : Nat := 64

/-- Projects a declaration or application outside the graph. -/
def projectOutside (g : Graph) (name n : ScopedName) (t : TypeExpr) : Outcome Projection := do
  let p ← if t.args.isEmpty then do
      let d ← g.store.resolve n
      g.resolver.project d []
    else do
      let p ← g.resolver.projectType t
      pure { p with name, isInstance := true }
  return { p with external := !g.settings.inFocus p.name }

/-- The declaration or instance that an expanded type applies. -/
def shapeOf (g : Graph) (shapes : Shapes) (n : ScopedName) (t : TypeExpr) :
    Shapes × Outcome (Option Projection) :=
  let named : Outcome ScopedName :=
    if t.args.isEmpty then .ok n
    else
      match g.tracker.nameOf t with
      | .error failure => .error failure
      | .ok name => .ok ⟨n.moduleName, name⟩
  match named with
  | .error failure => (shapes, .error failure)
  | .ok name =>
    match g.decl? name with
    | some p => (shapes, .ok (some p))
    | none =>
      let key := if t.args.isEmpty then n.text else t.scopedText
      match shapes.lookup key with
      | some p => (shapes, .ok (some p))
      | none =>
        match g.projectOutside name n t with
        | .error failure => (shapes, .error failure)
        | .ok p => ((key, p) :: shapes, .ok (some p))

def shapeWithin (g : Graph) (shapes : Shapes) : (budget : Nat) → TypeExpr →
    Shapes × Outcome (Option Projection)
  | 0, t => (shapes, .error (.plain ("gen: expansion of " ++ t.text ++ " does not terminate")))
  | budget + 1, t =>
    match t.reference? with
    | none => (shapes, .ok none)
    | some n =>
      match g.resolver.classify t with
      | .error failure => (shapes, .error failure)
      | .ok w =>
        if w.kind ≠ .plain then (shapes, .ok none)
        else
          match g.resolver.expandOnce t with
          | .error failure => (shapes, .error failure)
          | .ok none => g.shapeOf shapes n t
          | .ok (some next) => g.shapeWithin shapes budget next

/-- The struct or union that a type denotes; none for primitives, wrappers and parameters. -/
def shape (g : Graph) (shapes : Shapes) (t : TypeExpr) : Shapes × Outcome (Option Projection) :=
  g.shapeWithin shapes maxExpansion t

end Graph

end SchemaCompiler
