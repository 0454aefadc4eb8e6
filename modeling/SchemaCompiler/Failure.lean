import SchemaCompiler.Name
import SchemaCompiler.Text.Quoted

/-!
# Failures

Why an operation of the compiler gives no result.  A failure is data: what was asked, where, and
which failure lies beneath.  `Failure.message` is the only place that words it, and
`Failure.matches` says which of the fixed conditions it stands for.
-/

namespace SchemaCompiler

/-- The rules a declaration can break while it is resolved. -/
inductive Rule where
  | arityMismatch
  | nonConcreteBinding
  | unsupportedRootKind
  | nestedReferenceWrapper
  | invalidReferenceTarget
  | ambiguousForeignKey
  | missingMetadata
  | multipleOrZeroModuleBlock
  | instanceNameConflict
  | duplicateField
  | instanceExpansion
  deriving DecidableEq, Repr

def Rule.text : Rule → String
  | arityMismatch => "arity mismatch"
  | nonConcreteBinding => "non-concrete binding"
  | unsupportedRootKind => "unsupported root kind"
  | nestedReferenceWrapper => "nested reference wrapper"
  | invalidReferenceTarget => "invalid reference target"
  | ambiguousForeignKey => "ambiguous foreign key"
  | missingMetadata => "missing required annotation"
  | multipleOrZeroModuleBlock => "multiple or zero module block"
  | instanceNameConflict => "instance name conflict"
  | duplicateField => "duplicate field"
  | instanceExpansion => "instance expansion did not converge"

def Rule.all : List Rule :=
  [arityMismatch, nonConcreteBinding, unsupportedRootKind, nestedReferenceWrapper,
    invalidReferenceTarget, ambiguousForeignKey, missingMetadata,
    multipleOrZeroModuleBlock, instanceNameConflict, duplicateField, instanceExpansion]

/-- The fixed conditions a failure can be asked for. -/
inductive Condition where
  | notFound
  | invalidDocument
  | invalidSchema
  | missingConfig
  | invalidLink
  | generationFailed
  | validationFailed
  | unknownTable
  | rule (rule : Rule)
  deriving DecidableEq, Repr

def Condition.text : Condition → String
  | notFound => "adlschema: not found"
  | invalidDocument => "adlschema: invalid ast"
  | invalidSchema => "adlschema: invalid schema"
  | missingConfig => "adlschema: missing configuration"
  | invalidLink => "adlschema: invalid link"
  | generationFailed => "adlschema: generation failed"
  | validationFailed => "adlschema: validation failed"
  | unknownTable => "db: unknown table"
  | rule r => r.text

def Condition.all : List Condition :=
  [notFound, invalidDocument, invalidSchema, missingConfig, invalidLink, generationFailed,
    validationFailed, unknownTable] ++ Rule.all.map rule

/-- Formats whose own complaints are not worded here. -/
inductive Format where
  | graphql
  | yaml
  | template
  | source
  deriving DecidableEq, Repr

def Format.tag : Format → String
  | graphql => "<graphql>"
  | yaml => "<yaml>"
  | template => "<template>"
  | source => "<gofmt>"

inductive Failure where
  /-- Something of kind `label` is not there. -/
  | notFound (label : String) (id : Option String)
  /-- A module document cannot be read. -/
  | decode (source : String) (cause : Option Failure)
  /-- Several failures of one pass. -/
  | aggregate (causes : List Failure)
  /-- A declaration that an output cannot hold. -/
  | schema (decl : ScopedName) (field message : String) (cause : Option Failure)
  | config (setting : String) (value : Option String) (message : String)
  | link (source target : ScopedName) (field message : String) (cause : Option Failure)
  | generation (phase file message : String) (cause : Option Failure)
  | validation (table column message : String) (cause : Option Failure)
  /-- A broken rule of resolution, with the place as far as it is known. -/
  | resolve (rule : Rule) (decl : ScopedName) (field : String) (path : List String)
      (message : String) (cause : Option Failure)
  /-- A module annotation that must occur once occurs in `modules`. -/
  | moduleBlock (key : ScopedName) (modules : List String)
  /-- A statement of a script failed. -/
  | statement (index : Int) (text : String) (cause : Option Failure)
  | joined (causes : List Failure)
  | condition (condition : Condition)
  | context (label : String) (cause : Failure)
  | plain (message : String)
  /-- A text that is not of the format it should have. -/
  | malformed (format : Format)
  /-- JSON that cannot be read or written, in the words of its reader. -/
  | json (complaint : String)
  /-- The operation was called where its result is undefined. -/
  | panic (message : Option String)
  deriving Repr, Inhabited

namespace Failure

/-- A part of a message after its separator, left out when empty. -/
def part (separator text : String) : String :=
  if text = "" then "" else separator ++ text

def place (separator : String) (n : ScopedName) : String :=
  if n = .blank then "" else separator ++ n.text

def firstLine (text : String) : String :=
  match Text.splitOn '\n' text with
  | first :: _ :: _ => first ++ " ..."
  | _ => text

def linkEnds (source target : ScopedName) : String :=
  if source = .blank then ""
  else if target = .blank then " from " ++ source.text
  else " (" ++ source.text ++ " -> " ++ target.text ++ ")"

def expansionPath : List String → String
  | [] | [_] => ""
  | steps => " (" ++ Text.joinWith " -> " steps ++ ")"

mutual

def message : Failure → String
  | notFound label none => "adlschema: " ++ label ++ " not found"
  | notFound label (some id) => "adlschema: " ++ label ++ " not found (name=" ++ id ++ ")"
  | decode source none => "adlschema: decode " ++ source ++ ": <nil>"
  | decode source (some cause) => "adlschema: decode " ++ source ++ ": " ++ cause.message
  | aggregate [cause] => cause.message
  | aggregate causes =>
    "adlschema: " ++ toString causes.length ++ " errors occurred:"
      ++ String.join ((messages causes).map ("\n\t* " ++ ·))
  | schema decl field text cause =>
    "adlschema: schema error" ++ place " on " decl ++ part " field " field ++ part ": " text
      ++ causeMessage cause
  | config setting none text =>
    "adlschema: config error for " ++ Text.quoted setting ++ ": " ++ text
  | config setting (some value) text =>
    "adlschema: config error for " ++ Text.quoted setting ++ " (value: " ++ value ++ "): " ++ text
  | link source target field text cause =>
    "adlschema: link error" ++ part " on field " field ++ linkEnds source target ++ part ": " text
      ++ causeMessage cause
  | generation phase file text cause =>
    "adlschema: generation error" ++ part " in phase " phase
      ++ (if file = "" then "" else " (file: " ++ file ++ ")") ++ part ": " text
      ++ causeMessage cause
  | validation table column text cause =>
    "adlschema: validation error" ++ part " on table " table ++ part " column " column
      ++ part ": " text ++ causeMessage cause
  | resolve rule decl field path text cause =>
    "resolve: " ++ rule.text ++ place " in " decl ++ part " field " field ++ expansionPath path
      ++ part ": " text ++ causeMessage cause
  | moduleBlock key [] =>
    "resolve: multiple or zero module block: no module level " ++ key.text
      ++ " annotation found, exactly one is required"
  | moduleBlock key modules =>
    "resolve: multiple or zero module block: more than one module level " ++ key.text
      ++ " annotation found in " ++ Text.joinWith ", " modules ++ ", there can be only one"
  | statement index text none =>
    "dialect/sql: statement " ++ toString index ++ " (" ++ firstLine text ++ "): <nil>"
  | statement index text (some cause) =>
    "dialect/sql: statement " ++ toString index ++ " (" ++ firstLine text ++ "): "
      ++ cause.message
  | joined causes => Text.joinWith "\n" (messages causes)
  | condition c => c.text
  | context label cause => label ++ ": " ++ cause.message
  | plain text => text
  | malformed format => format.tag
  | json complaint => complaint
  | panic text => text.getD ""

def messages : List Failure → List String
  | [] => []
  | cause :: rest => cause.message :: messages rest

def causeMessage : Option Failure → String
  | none => ""
  | some cause => ": " ++ cause.message

end

mutual

/-- The failure and all failures beneath it, outermost first. -/
def chain : Failure → List Failure
  | f@(decode _ cause) => f :: causeChain cause
  | f@(aggregate causes) => f :: chains causes
  | f@(schema _ _ _ cause) | f@(link _ _ _ _ cause) | f@(generation _ _ _ cause)
  | f@(validation _ _ _ cause) | f@(resolve _ _ _ _ _ cause) | f@(statement _ _ cause) =>
    f :: causeChain cause
  | f@(joined causes) => f :: chains causes
  | f@(context _ cause) => f :: cause.chain
  | f => [f]

def chains : List Failure → List Failure
  | [] => []
  | cause :: rest => cause.chain ++ chains rest

def causeChain : Option Failure → List Failure
  | none => []
  | some cause => cause.chain

end

/-- Whether a failure, without what lies beneath it, stands for a condition. -/
def stands (c : Condition) : Failure → Bool
  | notFound .. => c = .notFound
  | decode .. => c = .invalidDocument
  | schema .. => c = .invalidSchema
  | config .. => c = .missingConfig
  | link .. => c = .invalidLink
  | generation .. => c = .generationFailed
  | validation .. => c = .validationFailed
  | resolve rule .. => c = .rule rule
  | moduleBlock .. => c = .rule .multipleOrZeroModuleBlock
  | condition d => c = d
  | _ => false

/-- Whether a failure or one beneath it stands for a condition. -/
def «matches» (f : Failure) (c : Condition) : Bool :=
  f.chain.any (·.stands c)

/-- A failure under a label; a panic has none. -/
def within (label : String) : Failure → Failure
  | panic message => panic message
  | f => context label f

/-- The failure of a worker as its caller sees it: a panic there ends the program without a text. -/
def ofWorker : Failure → Failure
  | panic _ => panic none
  | f => f

/-- The outermost failure that is more than a context. -/
def bare : Failure → Failure
  | context _ cause => cause.bare
  | f => f

end Failure

/-- The result of an operation that can fail. -/
abbrev Outcome (α : Type) := Except Failure α

end SchemaCompiler
