import SchemaCompiler.Graph.Augmented
import SchemaCompiler.Output.Target

/-!
# The augmented document

The loaded modules with their derived metadata, as one document.
-/

namespace SchemaCompiler.AugmentedDocument

structure Options where
  file : String
  /-- The modules to write; none stands for all. -/
  modules : List String

def standard : Options := ⟨"ast.json", []⟩

def withFile (o : Options) (file : String) : Outcome Options :=
  if file = "" then .error (.config "File" (some "") "file name cannot be empty")
  else .ok { o with file }

/-- The modules that are written. -/
def selected (o : Options) (modules : List (String × AugmentedModule)) :
    List (String × AugmentedModule) :=
  if o.modules.isEmpty then modules else modules.filter fun (name, _) => o.modules.contains name

def text (o : Options) (g : Graph) : Outcome String := do
  let document ← Graph.documentJson (selected o (← g.augmented))
  return (← document.writable).indent ++ "\n"

def target (o : Options) : Target :=
  .plain "ast" fun g _ =>
    match text o g with
    | .error failure => .error (.generation "augment" o.file "" (some failure))
    | .ok content => .ok [⟨o.file, .text content⟩]

end SchemaCompiler.AugmentedDocument
