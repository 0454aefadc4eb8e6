import SchemaCompiler.Json.Reading
import SchemaCompiler.Keyed

/-!
# Annotations

Modules, declarations and fields carry annotations in order: keys are declarations, values are
arbitrary JSON.  A value may be absent, and one that came from outside a document may be no JSON
at all.
-/

namespace SchemaCompiler

inductive RawValue where
  | absent
  | json (value : Json)
  | unreadable (text : String)
  deriving Repr, Inhabited

namespace RawValue

def ofText (text : String) : RawValue :=
  match Json.parse? text with
  | some value => json value
  | none => unreadable text

/-- The text of a value without insignificant white space. -/
def compact : RawValue → String
  | absent => ""
  | json value => value.render
  | unreadable text => text

/-- The value inside a document: an absent one counts as `null`. -/
def toJson : RawValue → Outcome Json
  | absent => .ok .null
  | json value => .ok value.shielded
  | unreadable text => Json.encoding "json.RawMessage" (.error (.json (Json.complaint text)))

/-- Reads the value as a document of its own, whatever the old value was. -/
def parse : RawValue → Outcome Json
  | absent => .error (.json (Json.complaint ""))
  | json value => .ok value
  | unreadable text => .error (.json (Json.complaint text))

def isEmpty : RawValue → Bool
  | absent => true
  | unreadable text => text = ""
  | json _ => false

end RawValue

structure Annotation where
  key : ScopedName
  value : RawValue
  deriving Repr, Inhabited

abbrev Annotations := List Annotation

namespace Annotations

def get? (as : Annotations) (key : ScopedName) : Option RawValue :=
  (as.find? (·.key = key)).map (·.value)

def has (as : Annotations) (key : ScopedName) : Bool :=
  (as.get? key).isSome

/-- Reads the value of a key over an old value; an empty value changes nothing. -/
def decode {α : Type} (as : Annotations) (key : ScopedName) (read : α → Json → Json.Reading α)
    (old : α) : Outcome (Option α) :=
  match as.get? key with
  | none => .ok none
  | some raw =>
    if raw.isEmpty then .ok (some old)
    else
      match (raw.parse).bind fun value => (read old value).finish with
      | .ok value => .ok (some value)
      | .error failure => .error (.context ("annotation " ++ key.text) failure)

/-- The value of a key when it is a text; `null` counts as the empty text. -/
def text? (as : Annotations) (key : ScopedName) : Option String :=
  match as.decode key Json.readText "" with
  | .ok value => value
  | .error _ => none

/-- The members of an object by key, the last of each; nothing for any other value. -/
def members : RawValue → List (String × RawValue)
  | .json (.obj members) =>
    Keyed.ofList (members.map fun (key, value) => (Json.unescape key, RawValue.json value))
  | _ => []

/-- The value of a key as an object; a value that is none counts as empty. -/
def object? (as : Annotations) (key : ScopedName) : Option (List (String × RawValue)) :=
  (as.get? key).map members

/-- Every annotation of the key gets the value; without one it is added at the end. -/
def put (as : Annotations) (key : ScopedName) (value : RawValue) : Annotations :=
  if as.has key then as.map fun a => if a.key = key then ⟨key, value⟩ else a
  else as ++ [⟨key, value⟩]

end Annotations

end SchemaCompiler
