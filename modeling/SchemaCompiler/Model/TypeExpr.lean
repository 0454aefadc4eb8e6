import SchemaCompiler.Name

/-!
# Type expressions

A type expression applies a primitive, a declaration or a type parameter to type arguments.  A
place where a type was expected and none was given holds the missing expression.
-/

namespace SchemaCompiler

inductive TypeRef where
  | primitive (name : String)
  | reference (name : ScopedName)
  | param (name : String)
  deriving DecidableEq, Repr

inductive TypeExpr where
  | missing
  | app (head : TypeRef) (args : List TypeExpr)
  deriving Repr, Inhabited

namespace TypeExpr

def prim (name : String) (args : List TypeExpr := []) : TypeExpr := app (.primitive name) args

def ref (name : ScopedName) (args : List TypeExpr := []) : TypeExpr := app (.reference name) args

def param (name : String) : TypeExpr := app (.param name) []

def head? : TypeExpr → Option TypeRef
  | missing => none
  | app head _ => some head

def args : TypeExpr → List TypeExpr
  | missing => []
  | app _ args => args

/-- The declaration at the head, if there is one. -/
def reference? : TypeExpr → Option ScopedName
  | app (.reference name) _ => some name
  | _ => none

def primitive? : TypeExpr → Option String
  | app (.primitive name) _ => some name
  | _ => none

mutual

/-- Structural equality. -/
def equal : TypeExpr → TypeExpr → Bool
  | missing, missing => true
  | app h as, app k bs => h == k && equalAll as bs
  | _, _ => false

def equalAll : List TypeExpr → List TypeExpr → Bool
  | [], [] => true
  | a :: as, b :: bs => equal a b && equalAll as bs
  | _, _ => false

end

mutual

theorem eq_of_equal : ∀ {s t : TypeExpr}, equal s t = true → s = t
  | missing, missing, _ => rfl
  | app h as, app k bs, e => by
    simp only [equal, Bool.and_eq_true, beq_iff_eq] at e
    rw [e.1, eq_of_equalAll e.2]
  | missing, app _ _, e | app _ _, missing, e => by simp [equal] at e

theorem eq_of_equalAll : ∀ {as bs : List TypeExpr}, equalAll as bs = true → as = bs
  | [], [], _ => rfl
  | a :: as, b :: bs, e => by
    simp only [equalAll, Bool.and_eq_true] at e
    rw [eq_of_equal e.1, eq_of_equalAll e.2]
  | [], _ :: _, e | _ :: _, [], e => by simp [equalAll] at e

end

mutual

theorem equal_refl : ∀ t : TypeExpr, equal t t = true
  | missing => rfl
  | app _ as => by simp [equal, equalAll_refl as]

theorem equalAll_refl : ∀ as : List TypeExpr, equalAll as as = true
  | [] => rfl
  | a :: as => by simp [equalAll, equal_refl a, equalAll_refl as]

end

theorem equal_iff {s t : TypeExpr} : equal s t = true ↔ s = t :=
  ⟨eq_of_equal, fun h => h ▸ equal_refl s⟩

instance : DecidableEq TypeExpr := fun s t =>
  decidable_of_iff (equal s t = true) equal_iff

mutual

/-- The expression and all expressions inside it, outermost first. -/
def walk : TypeExpr → List TypeExpr
  | missing => [missing]
  | app head args => app head args :: walkAll args

def walkAll : List TypeExpr → List TypeExpr
  | [] => []
  | a :: as => walk a ++ walkAll as

end

mutual

/-- Whether a type parameter occurs. -/
def hasParams : TypeExpr → Bool
  | missing => false
  | app (.param _) _ => true
  | app _ args => anyHasParams args

def anyHasParams : List TypeExpr → Bool
  | [] => false
  | a :: as => hasParams a || anyHasParams as

end

/-- The text of a head, given how declarations are written. -/
def headText (declText : ScopedName → String) : TypeRef → String
  | .primitive name | .param name => name
  | .reference name => declText name

mutual

def write (declText : ScopedName → String) : TypeExpr → String
  | missing => ""
  | app head [] => headText declText head
  | app head (a :: as) =>
    headText declText head ++ "<" ++ write declText a ++ writeMore declText as ++ ">"

def writeMore (declText : ScopedName → String) : List TypeExpr → String
  | [] => ""
  | a :: as => "," ++ write declText a ++ writeMore declText as

end

/-- The expression with unqualified declaration names. -/
def text (t : TypeExpr) : String :=
  write ScopedName.name t

/-- The expression with qualified declaration names. -/
def scopedText (t : TypeExpr) : String :=
  write ScopedName.text t

end TypeExpr

end SchemaCompiler
