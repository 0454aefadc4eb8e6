import SchemaCompiler.Output.Target

/-!
# Worklists

A target that writes one type a declaration gives each declaration a name of its own and keeps
those that are still to be written.  Declarations that are not part of the graph join when they
are first used.
-/

namespace SchemaCompiler

/-- How a target names the types it writes. -/
structure TypeNaming where
  /-- What its types are called in reports. -/
  label : String
  name : ScopedName → String

structure Worklist where
  shapes : Shapes
  /-- Which declaration has which name. -/
  names : List (String × ScopedName)
  /-- What is still to be written, the next one first. -/
  pending : List Projection

namespace Worklist

def start (shapes : Shapes) : Worklist := ⟨shapes, [], []⟩

/-- Adds a declaration under its name, which no other declaration may have. -/
def add (n : TypeNaming) (w : Worklist) (p : Projection) : Outcome Worklist :=
  let name := n.name p.name
  match w.names.lookup name with
  | some earlier =>
    if earlier = p.name then .ok w
    else
      .error (.schema p.name "" (n.label ++ " type " ++ name ++ " is also declared by "
        ++ earlier.text) (some (.condition .invalidSchema)))
  | none => .ok { w with names := (name, p.name) :: w.names, pending := w.pending ++ [p] }

def addAll (n : TypeNaming) (w : Worklist) : List Projection → Outcome Worklist
  | [] => .ok w
  | p :: rest =>
    match w.add n p with
    | .error failure => .error failure
    | .ok w => w.addAll n rest

/-- The struct or union that a type denotes; one outside the graph is added. -/
def use (n : TypeNaming) (g : Graph) (w : Worklist) (t : TypeExpr) :
    Outcome (Option Projection × Worklist) :=
  match g.shape w.shapes t with
  | (_, .error failure) => .error failure
  | (shapes, .ok none) => .ok (none, { w with shapes })
  | (shapes, .ok (some p)) =>
    let w := { w with shapes }
    match g.decl? p.name with
    | some _ => .ok (some p, w)
    | none =>
      match w.add n p with
      | .error failure => .error failure
      | .ok w => .ok (some p, w)

/-- The outcome of work that may have no end; what has none has no defined result. -/
def outcome {α : Type} : Option (Outcome α) → Outcome α
  | some result => result
  | none => .error (.panic none)

end Worklist

end SchemaCompiler
