import SchemaCompiler.Migration.Change

/-!
# The order of changes

A table has to be there before a foreign key refers to it, and may go only when none refers to it
any more.  Changes that wait for each other in a ring are taken apart: the foreign keys between
tables are added at the end, and dropped before the tables are.
-/

namespace SchemaCompiler.Change

/-- The tables that one change makes another wait for: pairs of a table and one that must come
first. -/
def waits (all : List Change) : Change → List (String × String)
  | add t =>
    (t.foreignKeys.filter (·.refTable ≠ t.name)).map fun k => (t.name, k.refTable)
  | drop t =>
    (t.foreignKeys.filter fun k => k.refTable ≠ t.name
        && all.any fun c => c.isDrop && c.table.name = k.refTable).map
      fun k => (k.refTable, t.name)
  | modify t parts =>
    parts.filterMap fun
      | .addForeignKey k | .modifyForeignKey _ k =>
        if k.refTable ≠ t.name then some (t.name, k.refTable) else none
      | _ => none

abbrev Waits := List (String × String)

def waitsOf (changes : List Change) : Waits := changes.flatMap (waits changes)

/-- What a table waits for. -/
def targets (w : Waits) (name : String) : List String :=
  (w.filter (·.1 = name)).map (·.2)

/-- The tables in the order in which they can be left, or none when they wait for each other.
The path holds the tables that are not yet left. -/
def leave (w : Waits) : Nat → List String → List String → String → Option (List String)
  | 0, _, _, _ => none
  | depth + 1, path, done, name =>
    if done.contains name then some done
    else if path.contains name then none
    else
      ((targets w name).foldlM (leave w depth (name :: path)) done).map (· ++ [name])

/-- The places of the tables, or none when some wait for each other.  No path is longer than the
tables that occur. -/
def places (w : Waits) : Option (List String) :=
  (Text.sortedSet (w.map (·.1))).foldlM (leave w (2 * w.length + 1) []) []

/-- The place of a change; a table that waits for nothing and is waited for by none comes first. -/
def placeOf (order : List String) (c : Change) : Nat :=
  (order.idxOf? c.table.name).getD 0

def outward (t : LayoutTable) : List SnapshotForeignKey :=
  t.foreignKeys.filter (·.refTable ≠ t.name)

def isAddForeignKey : TablePart → Bool
  | .addForeignKey _ => true
  | _ => false

/-- What is done in its place, and what at the end, when the foreign keys between tables are taken
apart. -/
def detached : Change → List Change × List Change
  | add t =>
    if (outward t).isEmpty then ([add t], [])
    else
      ([add { t with foreignKeys := t.foreignKeys.filter (·.refTable = t.name) }],
        [modify t ((outward t).map .addForeignKey)])
  | drop t =>
    if (outward t).isEmpty then ([], [drop t])
    else
      ([modify t ((outward t).map .dropForeignKey)], [drop { t with foreignKeys := [] }])
  | modify t parts =>
    let keys := parts.filter isAddForeignKey
    let rest := parts.filter (!isAddForeignKey ·)
    (if rest.isEmpty then [] else [modify t rest], if keys.isEmpty then [] else [modify t keys])

/-- Changes of which none waits for a later one, foreign keys taken apart where needed. -/
def untangled (changes : List Change) : List Change :=
  match places (waitsOf changes) with
  | some order => changes.mergeSort fun a b => placeOf order a ≤ placeOf order b
  | none => changes.flatMap (detached · |>.1) ++ changes.flatMap (detached · |>.2)

def refersTo (keys : List SnapshotForeignKey) (name : String) : Bool :=
  keys.any (·.refTable = name)

def newKeys : Change → List SnapshotForeignKey
  | add t => t.foreignKeys
  | drop _ => []
  | modify _ parts => parts.filterMap fun
    | .addForeignKey k | .modifyForeignKey _ k => some k
    | _ => none

/-- Whether one change needs another to be done first. -/
def needs (c other : Change) : Bool :=
  c.table.name ≠ other.table.name &&
  match c, other with
  | drop t, drop u => refersTo u.foreignKeys t.name
  | drop _, _ | _, drop _ => false
  | c, other => refersTo (newKeys c) other.table.name

/-- The changes that are placed or begun, by their places in the list, and the order so far. -/
structure Placing where
  begun : List Nat
  placed : List Change

def needed (all : List Change) (i : Nat) (c : Change) : List Nat :=
  (List.range all.length).filter fun j => j ≠ i && (all[j]?).any (needs c)

/-- Puts a change behind those that it needs. -/
def placeWithin (all : List Change) : Nat → Placing → Nat → Placing
  | 0, s, _ => s
  | depth + 1, s, i =>
    match all[i]? with
    | none => s
    | some c =>
      if s.begun.contains i then s
      else
        let s := (needed all i c).foldl (placeWithin all depth)
          { s with begun := i :: s.begun }
        { s with placed := s.placed ++ [c] }

def placed (all : List Change) : List Change :=
  ((List.range all.length).foldl (placeWithin all (all.length + 1)) ⟨[], []⟩).placed

/-- The order in which changes are made: tables go last, and each change comes behind those that
it needs. -/
def ordered (changes : List Change) : List Change :=
  let first := untangled changes
  placed (first.filter (!·.isDrop) ++ first.filter (·.isDrop))

end SchemaCompiler.Change
