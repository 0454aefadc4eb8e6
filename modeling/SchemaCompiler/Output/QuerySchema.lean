import SchemaCompiler.Output.ModelBindings
import SchemaCompiler.Sdl.Build
import SchemaCompiler.Sdl.Read

/-!
# Query schema files

The query schema of a graph as a file.  What was written is read back, and refused unless it is
sound.  A second file may bind the types of the schema to models.
-/

namespace SchemaCompiler.QuerySchema

structure Options where
  file : String
  /-- The package of the models; no bindings are written if it is empty. -/
  modelPackage : String
  /-- The bindings to start from; none if empty. -/
  bindingsPath : String

def standard : Options := ⟨"schema.graphql", "", ""⟩

def bindingsFile : String := "gqlgen.yml"

def withFile (o : Options) (file : String) : Outcome Options :=
  if file = "" then .error (.config "File" (some "") "file name cannot be empty")
  else .ok { o with file }

def withBindings (o : Options) (package path : String) : Outcome Options :=
  if package = "" then .error (.config "GQLGen" (some "") "model package cannot be empty")
  else .ok { o with modelPackage := package, bindingsPath := path }

/-- Whether a text spells a sound schema. -/
def isValid (text : String) : Bool :=
  match Sdl.document? text with
  | some d => Sdl.isSound d
  | none => false

def bindings (o : Options) (tree : FileTree) (types : List String) : Outcome (List OutputFile) :=
  if o.modelPackage = "" then .ok []
  else do
    let stored ←
      if o.bindingsPath = "" then pure ModelBindings.blank.withTable
      else
        match ModelBindings.stored tree o.bindingsPath with
        | .ok b => pure b
        | .error failure => .error (.generation "gqlgen" o.bindingsPath "" (some failure))
    let bound ← stored.bind o.file o.modelPackage types
    return [⟨bindingsFile, .text bound.text⟩]

def schemaLog (o : Options) (types : List String) : LogLine :=
  ⟨.debug, "graphql schema generated",
    [("file", o.file), ("types", toString types.length)]⟩

def render (o : Options) (g : Graph) (tree : FileTree) (shapes : Shapes) : Rendered :=
  match Sdl.build g shapes with
  | .error failure => ⟨shapes, [], .error failure⟩
  | .ok (document, shapes) =>
    let text := Sdl.documentText document
    let types := document.map (·.name)
    if isValid text then
      ⟨shapes, [schemaLog o types],
        (bindings o tree types).map (⟨o.file, .text text⟩ :: ·)⟩
    else
      ⟨shapes, [], .error (.generation "validate" o.file "generated schema is invalid"
        (some (.malformed .graphql)))⟩

def target (o : Options) : Target := ⟨"graphql", render o⟩

end SchemaCompiler.QuerySchema
