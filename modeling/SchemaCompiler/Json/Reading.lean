import SchemaCompiler.Failure
import SchemaCompiler.Json.Complaint

/-!
# Reading values out of JSON

A reader takes a value of the wrong JSON type as a mismatch: the value it had stays, reading goes
on, and the whole is refused at the end.  A refusal with a cause of its own ends the reading at
once and so comes before any mismatch.  `null` leaves a value as it was.
-/

namespace SchemaCompiler.Json

/-- A value of another type than the one that was to be read. -/
structure Mismatch where
  found : String
  type : String
  /-- The record that the value is in, and the fields that lead there from the outermost one. -/
  record : String
  fields : List String

namespace Mismatch

def text (m : Mismatch) : String :=
  "json: cannot unmarshal " ++ m.found ++ " into Go "
    ++ (if m.fields.isEmpty then "value"
      else "struct field " ++ m.record ++ "." ++ Text.joinWith "." m.fields)
    ++ " of type " ++ m.type

/-- The mismatch as seen from a record with the value in a field. -/
def inField (type : ScopedName) (field : String) (m : Mismatch) : Mismatch :=
  { m with
    record := if m.fields.isEmpty then type.name else m.record
    fields := field :: m.fields }

end Mismatch

def kindText : Json → String
  | null => "null"
  | bool _ => "bool"
  | num _ => "number"
  | str _ => "string"
  | arr _ => "array"
  | obj _ => "object"

/-- The mismatch of a value that is in no record. -/
def unlike (j : Json) (type : String) : Mismatch := ⟨j.kindText, type, "", []⟩

/-- What was read, and the first value that did not have the expected type. -/
def Reading (α : Type) : Type := Outcome (α × Option Mismatch)

namespace Reading

variable {α β : Type}

def clean (value : α) : Reading α := .ok (value, none)

/-- The value stays as it was because something of another type was found. -/
def mismatch (value : α) (first : Mismatch) : Reading α := .ok (value, some first)

def andThen (r : Reading α) (next : α → Reading β) : Reading β :=
  match r with
  | .error failure => .error failure
  | .ok (a, first) =>
    match next a with
    | .error failure => .error failure
    | .ok (b, second) => .ok (b, first.or second)

instance : Monad Reading where
  pure := clean
  bind := andThen

/-- An inner document that was read on its own: its failure is a refusal. -/
def ofOutcome : Outcome α → Reading α
  | .error failure => .error failure
  | .ok value => .ok (value, none)

/-- A reading of the value in a field of a record. -/
def inField (type : ScopedName) (field : String) (r : Reading α) : Reading α :=
  Except.map (fun read => (read.1, read.2.map (·.inField type field))) r

/-- The end of a reading: a mismatch refuses the document. -/
def finish : Reading α → Outcome α
  | .error failure => .error failure
  | .ok (value, none) => .ok value
  | .ok (_, some first) => .error (.json first.text)

end Reading

/-- Letters in lower case; the long s and the Kelvin sign count as the letters they look like. -/
def foldCase (c : Char) : Char :=
  if c.toNat = 0x17f then 's' else if c.toNat = 0x212a then 'k' else c.toLower

/-- The name that a key stands for: the key itself, or else the first name that differs only in
letter case. -/
def nameOf? (names : List String) (key : String) : Option String :=
  if key ∈ names then some key
  else names.find? fun name => name.toList.map foldCase == key.toList.map foldCase

def readText (old : String) : Json → Reading String
  | null => .clean old
  | str spelling => .clean (unescape spelling)
  | j => .mismatch old (j.unlike "string")

def readBool (old : Bool) : Json → Reading Bool
  | null => .clean old
  | bool value => .clean value
  | j => .mismatch old (j.unlike "bool")

/-- The integer that a number without fraction and exponent spells, within 64 bits. -/
def integer? (spelling : String) : Option Int :=
  let (negative, digits) := match spelling.toList with
    | '-' :: digits => (true, digits)
    | digits => (false, digits)
  if digits.all Char.isDigit && !digits.isEmpty then
    let n : Nat := digits.foldl (fun n c => 10 * n + (c.toNat - 48)) 0
    let value : Int := if negative then -n else n
    if -Int.pow 2 63 ≤ value && value < Int.pow 2 63 then some value else none
  else none

def readInt (old : Int) : Json → Reading Int
  | null => .clean old
  | num spelling =>
    match integer? spelling with
    | some value => .clean value
    | none => .mismatch old ⟨"number " ++ spelling, "int", "", []⟩
  | j => .mismatch old (j.unlike "int")

section

variable {α : Type}

/-- Reads items one by one, each over the old item of its place. -/
def readItems (read : α → Json → Reading α) (blank : α) : List α → List Json → Reading (List α)
  | _, [] => .clean []
  | old, item :: rest =>
    (read (old.headD blank) item).andThen fun first =>
      (readItems read blank old.tail rest).andThen fun others => .clean (first :: others)

def readList (type : String) (read : α → Json → Reading α) (blank : α) (old : List α) :
    Json → Reading (List α)
  | null => .clean []
  | arr items => readItems read blank old items
  | j => .mismatch old (j.unlike type)

/-- Reads the members of an object in order, those with a known name into the value so far. -/
def readMembers (type : ScopedName) (names : List String) (read : α → String → Json → Reading α) :
    α → List (String × Json) → Reading α
  | old, [] => .clean old
  | old, (key, value) :: rest =>
    match nameOf? names (unescape key) with
    | some name =>
      ((read old name value).inField type name).andThen fun new =>
        readMembers type names read new rest
    | none => readMembers type names read old rest

def readRecord (type : ScopedName) (names : List String) (read : α → String → Json → Reading α)
    (old : α) : Json → Reading α
  | null => .clean old
  | obj members => readMembers type names read old members
  | j => .mismatch old (j.unlike type.text)

/-- Reads a value that may be absent. -/
def readOptional (read : α → Json → Reading α) (blank : α) (old : Option α) :
    Json → Reading (Option α)
  | null => .clean none
  | j => (read (old.getD blank) j).andThen fun value => .clean (some value)

end

def readTexts (old : List String) (j : Json) : Reading (List String) :=
  readList "[]string" readText "" old j

/-! ## Whole texts -/

/-- The value that a text spells, refused when it spells none. -/
def parse (text : String) : Outcome Json :=
  match parse? text with
  | some value => .ok value
  | none => .error (.json (complaint text))

/-- A value that is to be written, refused when it nests deeper than a reader follows. -/
def writable (j : Json) : Outcome Json :=
  if j.depth ≤ maxDepth then .ok j else .error (.json "exceeded max depth")

/-- The outcome of the method that writes the values of a type. -/
def encoding {α : Type} (type : String) : Outcome α → Outcome α
  | .error (.json complaint) =>
    .error (.json ("json: error calling MarshalJSON for type " ++ type ++ ": " ++ complaint))
  | outcome => outcome

/-- The text of a value. -/
def encode (j : Json) : Outcome String := do
  return (← j.writable).render

/-- The text of an object whose members are encoded one by one: the object itself adds a level
that nothing looks at. -/
def encodeMembers : Json → Outcome String
  | obj members => do
    let _ ← members.mapM fun (_, value) => value.writable
    return (obj members).render
  | j => j.encode

end SchemaCompiler.Json
