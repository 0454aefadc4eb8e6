import SchemaCompiler.Text

/-!
# Scoped names

A declaration is known by the module that holds it and its name there.  The qualified text puts
a dot between the two; names are ordered by module, then by name.
-/

namespace SchemaCompiler

@[ext]
structure ScopedName where
  moduleName : String
  name : String
  deriving DecidableEq, Repr, Inhabited

namespace ScopedName

/-- The name that stands for "no declaration". -/
def blank : ScopedName := ⟨"", ""⟩

/-- Splits a qualified name at its last dot; without a dot the module is empty. -/
def parse (qualified : String) : ScopedName :=
  match Text.splitLast? '.' qualified.toList with
  | some (moduleName, name) => ⟨String.ofList moduleName, String.ofList name⟩
  | none => ⟨"", qualified⟩

def text (n : ScopedName) : String :=
  if n.moduleName = "" then n.name else n.moduleName ++ "." ++ n.name

def lt (a b : ScopedName) : Bool :=
  if a.moduleName = b.moduleName then decide (a.name < b.name)
  else decide (a.moduleName < b.moduleName)

def compare (a b : ScopedName) : Ordering :=
  if a = b then .eq else if a.lt b then .lt else .gt

def le (a b : ScopedName) : Bool :=
  !b.lt a

def sort (names : List ScopedName) : List ScopedName :=
  names.mergeSort le

end ScopedName

end SchemaCompiler
