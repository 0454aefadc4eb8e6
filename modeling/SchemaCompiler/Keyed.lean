/-!
# Keyed lists

Finite maps from texts, held as lists in ascending order of their keys.
-/

namespace SchemaCompiler.Keyed

variable {α β : Type}

/-- Puts a value at its key, in place of an older one. -/
def insert (key : String) (value : α) : List (String × α) → List (String × α)
  | [] => [(key, value)]
  | (k, v) :: rest =>
    if key = k then (key, value) :: rest
    else if key < k then (key, value) :: (k, v) :: rest
    else (k, v) :: insert key value rest

def find? (key : String) (entries : List (String × α)) : Option α :=
  entries.lookup key

def contains (key : String) (entries : List (String × α)) : Bool :=
  (find? key entries).isSome

def keys (entries : List (String × α)) : List String :=
  entries.map (·.1)

def ofList (entries : List (String × α)) : List (String × α) :=
  entries.foldl (fun done (key, value) => insert key value done) []

def mapValues (f : α → β) (entries : List (String × α)) : List (String × β) :=
  entries.map fun (key, value) => (key, f value)

end SchemaCompiler.Keyed
