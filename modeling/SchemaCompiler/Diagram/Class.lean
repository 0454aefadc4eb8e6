import SchemaCompiler.Graph

/-!
# Class diagrams

The declarations of some modules as classes, and their fields as arrows between classes or as
members.  With a focus only the modules in focus are drawn in full; what they refer to outside is
drawn as a bare class.
-/

namespace SchemaCompiler.Diagram

/-!
## Arrows

An arrow goes from a class to the class that one of its fields holds.  Arrows are drawn in order
of their index: those with a negative index first, those without one last.
-/

inductive ArrowStyle where
  | uses
  | realizes
  | embeds
  deriving DecidableEq, Repr

def ArrowStyle.text : ArrowStyle → String
  | uses => "-->"
  | realizes => "<|.."
  | embeds => "--|>"

structure Arrow where
  source : ScopedDecl
  target : ScopedName
  style : ArrowStyle
  field : String
  /-- The cardinality that is written behind the field. -/
  cardinality : String
  index : Option Int
  deriving Repr

/-- Arithmetic on 64 bits. -/
def wrap (n : Int) : Int := Int.bmod n (Nat.pow 2 64)

/-- The rank of arrows without an index. -/
def unindexed : Int := Int.pow 2 30

def rank : Option Int → Int
  | none => unindexed
  | some i => if i < 0 then wrap (i - unindexed) else i

/-- Whether an index is drawn before another. -/
def before (a b : Option Int) : Bool := wrap (rank a - rank b) < 0

/-- Puts an arrow behind the last one that it is not drawn before; the list is reversed. -/
def insertBehind (a : Arrow) : List Arrow → List Arrow
  | [] => [a]
  | b :: rest => if before a.index b.index then b :: insertBehind a rest else a :: b :: rest

/-- Arrows in order; equal ranks keep their order. -/
def sortArrows (arrows : List Arrow) : List Arrow :=
  (arrows.foldl (fun sorted a => insertBehind a sorted) []).reverse

def hiddenKey : ScopedName := ⟨"common.mspec", "Hidden"⟩
def hideRealizationKey : ScopedName := ⟨"common.mspec", "HideRealization"⟩
def embedKey : ScopedName := ⟨"common.mspec", "Embed"⟩
def arrowIndexKey : ScopedName := ⟨"common.mspec", "ArrowIdx"⟩
def representedByKey : ScopedName := ⟨"common.mspec", "RepresentedBy"⟩
def optionsKey : ScopedName := ⟨"common.mspec", "DiagramOptions"⟩

/-- The longest chain of aliases and new types that is followed to the fields of a class. -/
def maxChain : Nat := 64

def isHidden (d : ScopedDecl) : Bool := d.decl.annotations.has hiddenKey

/-- The fields of a class and whether they are branches of a union.  Aliases and new types show
the fields of what they name. -/
def fieldsWithin (g : Graph) (name : ScopedName) : (budget : Nat) → ScopedDecl →
    Outcome (List Field × Bool)
  | 0, _ =>
    .error (.schema name "" "alias chain too long" (some (.condition .invalidSchema)))
  | budget + 1, d =>
    match d.decl.kind with
    | .struct => .ok (d.decl.fields, false)
    | .union => .ok (d.decl.fields, true)
    | _ =>
      match d.decl.body.target?.bind TypeExpr.reference? with
      | none => .ok ([], false)
      | some n =>
        match g.store.resolve n with
        | .error failure => .error (.schema name "" "" (some failure))
        | .ok next => fieldsWithin g name budget next

def fieldsOf (g : Graph) (d : ScopedDecl) : Outcome (List Field × Bool) :=
  fieldsWithin g d.name maxChain d

/-- What a field holds below one list and then one optional layer, and how many of it. -/
def holds (g : Graph) (t : TypeExpr) : Outcome (Option ScopedName × String) := do
  let w ← g.resolver.classify t
  let (t, w, card) ← if w.kind = .list then do
      pure (w.inner, ← g.resolver.classify w.inner, " 0..*")
    else pure (t, w, "")
  let (t, w, card) ← if w.kind = .optional then do
      pure (w.inner, ← g.resolver.classify w.inner, " ?")
    else pure (t, w, card)
  match w.kind with
  | .reference => return (some w.target, card)
  | .plain => return (t.reference?, card)
  | _ => return (none, card)

/-- The style of the arrow of a field; none if it is not drawn. -/
def styleOf (isUnion : Bool) (f : Field) : Option ArrowStyle :=
  if isUnion then if f.annotations.has hideRealizationKey then none else some .realizes
  else if f.annotations.has embedKey then some .embeds else some .uses

def arrowOf (g : Graph) (d : ScopedDecl) (isUnion : Bool) (f : Field) : Outcome (Option Arrow) := do
  let (target, card) ← holds g f.typeExpr
  match target with
  | none => return none
  | some n =>
    if !g.settings.inModules n.moduleName then return none
    if isHidden (← g.store.resolve n) then return none
    match styleOf isUnion f with
    | none => return none
    | some style =>
      let index ← f.annotations.decode arrowIndexKey Json.readInt 0
      return some ⟨d, n, style, f.name, card, index⟩

def arrowsOfFields (g : Graph) (d : ScopedDecl) (isUnion : Bool) :
    List Field → Outcome (List Arrow)
  | [] => .ok []
  | f :: rest =>
    match arrowOf g d isUnion f with
    | .error failure => .error (.schema d.name f.name "" (some failure))
    | .ok arrow => do return arrow.toList ++ (← arrowsOfFields g d isUnion rest)

def arrowsOf (g : Graph) : List ScopedDecl → Outcome (List Arrow)
  | [] => .ok []
  | d :: rest => do
    let (fields, isUnion) ← fieldsOf g d
    let arrows ← arrowsOfFields g d isUnion fields
    return arrows ++ (← arrowsOf g rest)

/-- The classes that are considered, in order of their names. -/
def considered (g : Graph) : List ScopedDecl :=
  g.store.allDecls.filter fun d =>
    g.settings.inModules d.moduleName && (g.settings.filter.map (· d)).getD true

/-- The classes that are drawn in full. -/
def drawn (g : Graph) (decls : List ScopedDecl) : List ScopedDecl :=
  decls.filter fun d => g.settings.inFocus d.name && !isHidden d

end SchemaCompiler.Diagram

namespace SchemaCompiler

structure ClassDiagram where
  direction : String
  /-- The modules of the classes, each of them once. -/
  modules : List String
  /-- The modules that are drawn in full. -/
  focus : List String
  decls : List ScopedDecl
  drawn : List (ScopedDecl × List Field)
  arrows : List Diagram.Arrow
  /-- The targets of arrows out of the focus, each of them once. -/
  outside : List ScopedName
  /-- How many a member holds, by its type. -/
  cardinality : TypeExpr → String

namespace ClassDiagram

open Diagram

/-- The direction in which a diagram is laid out. -/
def readDirection (old : String) (j : Json) : Json.Reading String :=
  j.readRecord ⟨"mermaid", "Options"⟩ ["direction"] (fun s _ value => Json.readText s value) old

def directions : List String := ["LR", "RL", "TB", "BT", "TD"]

def invalidDirection : Failure :=
  .plain ("Key: 'Options.Direction' Error:Field validation for 'Direction' failed on the "
    ++ "'oneof' tag")

def standardDirection : String := "LR"

def directionOf (block : ModuleAnnotation) : Outcome String :=
  let refuse (failure : Failure) : Outcome String :=
    .error (.schema optionsKey "" ("in module " ++ block.moduleName) (some failure))
  match block.value.parse.bind fun j => (readDirection standardDirection j).finish with
  | .error failure => refuse failure
  | .ok direction =>
    if direction = "" then .ok standardDirection
    else if directions.contains direction then .ok direction
    else refuse invalidDirection

/-- The diagram of a graph, and what is reported on the way. -/
def build (g : Graph) : List LogLine × Outcome ClassDiagram :=
  let (block, logs) := g.store.firstBlock optionsKey g.settings.focus
  (logs, do
    let direction ← (block.map directionOf).getD (.ok standardDirection)
    let decls := considered g
    let drawn := Diagram.drawn g decls
    let arrows ← arrowsOf g drawn
    let fields ← drawn.mapM fun d => do
      let (fields, _) ← fieldsOf g d
      return (d, fields)
    let modules := (decls.map (·.moduleName)).eraseDups
    return {
      direction, modules, decls
      focus := modules.filter fun m => g.settings.inFocus ⟨m, ""⟩
      drawn := fields
      arrows := sortArrows arrows
      outside := ((arrows.map (·.target)).filter (!g.settings.inFocus ·)).eraseDups
      cardinality := fun t => match holds g t with
        | .ok (_, card) => card
        | .error _ => "" })

end ClassDiagram

end SchemaCompiler
