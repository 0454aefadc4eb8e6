import SchemaCompiler.Files.Digest
import SchemaCompiler.Keyed

/-!
# Packed values

A tree of values and its form in bytes: a head byte gives the kind and, for short values, the size;
longer values carry their size in the bytes after it.  `read` takes back what `write` gives.
-/

namespace SchemaCompiler

open Digest

inductive Packed where
  | null
  | bool (value : Bool)
  | int (value : Int)
  /-- Bytes that were written as text, or as mere bytes. -/
  | raw (isText : Bool) (bytes : List UInt8)
  | list (items : List Packed)
  | record (entries : List (Packed × Packed))
  /-- A value of a kind that is not used here. -/
  | other
  deriving Repr, Inhabited

namespace Packed

def text (s : String) : Packed := raw true s.toUTF8.toList

def binary (bytes : List UInt8) : Packed := raw false bytes

/-! ## Writing -/

/-- The head of a value with a size: `short` for sizes below `limit`, else one of `codes` and the
size in one, two or four bytes. -/
def sizedHead (short limit : Nat) (code8 : Option UInt8) (code16 code32 : UInt8) (n : Nat) :
    List UInt8 :=
  if n < limit then [UInt8.ofNat (short + n)]
  else
    match code8, decide (n < 0x100) with
    | some code, true => code :: bigEndian 1 n
    | _, _ =>
      if n < 0x10000 then code16 :: bigEndian 2 n else code32 :: bigEndian 4 n

def writeInt (i : Int) : List UInt8 :=
  if 0 ≤ i then
    if i < 0x80 then [UInt8.ofNat i.toNat]
    else if i < 0x100 then 0xcc :: bigEndian 1 i.toNat
    else if i < 0x10000 then 0xcd :: bigEndian 2 i.toNat
    else if i < 0x100000000 then 0xce :: bigEndian 4 i.toNat
    else 0xcf :: bigEndian 8 i.toNat
  else if -32 ≤ i then [UInt8.ofNat (i + 0x100).toNat]
  else 0xd3 :: bigEndian 8 (i + 0x10000000000000000).toNat

mutual

def write : Packed → List UInt8
  | null => [0xc0]
  | bool false => [0xc2]
  | bool true => [0xc3]
  | int i => writeInt i
  | raw true bytes => sizedHead 0xa0 32 (some 0xd9) 0xda 0xdb bytes.length ++ bytes
  | raw false bytes => sizedHead 0 0 (some 0xc4) 0xc5 0xc6 bytes.length ++ bytes
  | list items => sizedHead 0x90 16 none 0xdc 0xdd items.length ++ writeAll items
  | record entries => sizedHead 0x80 16 none 0xde 0xdf entries.length ++ writeEntries entries
  | other => [0xd4, 0, 0]

def writeAll : List Packed → List UInt8
  | [] => []
  | item :: rest => item.write ++ writeAll rest

def writeEntries : List (Packed × Packed) → List UInt8
  | [] => []
  | (key, value) :: rest => key.write ++ value.write ++ writeEntries rest

end

/-! ## Reading -/

/-- The result of a reader and the bytes after it. -/
abbrev Rest (α : Type) := Option (α × List UInt8)

/-- Takes a number of bytes that must be there. -/
def takeBytes : Nat → List UInt8 → Rest (List UInt8)
  | 0, bytes => some ([], bytes)
  | _ + 1, [] => none
  | n + 1, byte :: rest =>
    match takeBytes n rest with
    | none => none
    | some (taken, rest) => some (byte :: taken, rest)

def number (bytes : List UInt8) : Nat :=
  bytes.foldl (fun n byte => 256 * n + byte.toNat) 0

def takeNumber (width : Nat) (bytes : List UInt8) : Rest Nat :=
  match takeBytes width bytes with
  | none => none
  | some (taken, rest) => some (number taken, rest)

/-- A number of so many bytes with its sign in the top bit. -/
def takeSigned (width : Nat) (bytes : List UInt8) : Rest Int :=
  match takeNumber width bytes with
  | none => none
  | some (n, rest) => some (Int.bmod n (Nat.pow 256 width), rest)

/-- Reads a number of values one after the other. -/
def takeMany {α : Type} (one : List UInt8 → Rest α) : Nat → List UInt8 → Rest (List α)
  | 0, bytes => some ([], bytes)
  | n + 1, bytes =>
    match one bytes with
    | none => none
    | some (a, rest) =>
      match takeMany one n rest with
      | none => none
      | some (as, rest) => some (a :: as, rest)

def takePair {α : Type} (one : List UInt8 → Rest α) (bytes : List UInt8) : Rest (α × α) :=
  match one bytes with
  | none => none
  | some (key, rest) =>
    match one rest with
    | none => none
    | some (value, rest) => some ((key, value), rest)

/-- Hands the size that the next bytes give to a reader. -/
def sized {α : Type} (width : Nat) (f : Nat → List UInt8 → Rest α) (bytes : List UInt8) : Rest α :=
  match takeNumber width bytes with
  | none => none
  | some (n, rest) => f n rest

def mapRest {α β : Type} (f : α → β) : Rest α → Rest β
  | none => none
  | some (a, rest) => some (f a, rest)

def takeRaw (isText : Bool) (n : Nat) (bytes : List UInt8) : Rest Packed :=
  mapRest (raw isText) (takeBytes n bytes)

def skip (n : Nat) (bytes : List UInt8) : Rest Packed :=
  mapRest (fun _ => other) (takeBytes n bytes)

/-- Reads a value from its head byte on; `one` reads the values inside it. -/
def readAfter (one : List UInt8 → Rest Packed) (head : Nat) (bytes : List UInt8) : Rest Packed :=
  let items (n : Nat) (bytes : List UInt8) := mapRest list (takeMany one n bytes)
  let entries (n : Nat) (bytes : List UInt8) := mapRest record (takeMany (takePair one) n bytes)
  if head < 0x80 then some (int head, bytes)
  else if head < 0x90 then entries (head - 0x80) bytes
  else if head < 0xa0 then items (head - 0x90) bytes
  else if head < 0xc0 then takeRaw true (head - 0xa0) bytes
  else if 0xe0 ≤ head then some (int ((head : Int) - 0x100), bytes)
  else
    match head with
    | 0xc0 => some (null, bytes)
    | 0xc2 => some (bool false, bytes)
    | 0xc3 => some (bool true, bytes)
    | 0xc4 => sized 1 (takeRaw false) bytes
    | 0xc5 => sized 2 (takeRaw false) bytes
    | 0xc6 => sized 4 (takeRaw false) bytes
    | 0xc7 => sized 1 (fun n => skip (n + 1)) bytes
    | 0xc8 => sized 2 (fun n => skip (n + 1)) bytes
    | 0xc9 => sized 4 (fun n => skip (n + 1)) bytes
    | 0xca => skip 4 bytes
    | 0xcb => skip 8 bytes
    | 0xcc => mapRest (fun (n : Nat) => int n) (takeNumber 1 bytes)
    | 0xcd => mapRest (fun (n : Nat) => int n) (takeNumber 2 bytes)
    | 0xce => mapRest (fun (n : Nat) => int n) (takeNumber 4 bytes)
    | 0xcf => mapRest (fun (n : Nat) => int n) (takeNumber 8 bytes)
    | 0xd0 => mapRest int (takeSigned 1 bytes)
    | 0xd1 => mapRest int (takeSigned 2 bytes)
    | 0xd2 => mapRest int (takeSigned 4 bytes)
    | 0xd3 => mapRest int (takeSigned 8 bytes)
    | 0xd4 => skip 2 bytes
    | 0xd5 => skip 3 bytes
    | 0xd6 => skip 5 bytes
    | 0xd7 => skip 9 bytes
    | 0xd8 => skip 17 bytes
    | 0xd9 => sized 1 (takeRaw true) bytes
    | 0xda => sized 2 (takeRaw true) bytes
    | 0xdb => sized 4 (takeRaw true) bytes
    | 0xdc => sized 2 items bytes
    | 0xdd => sized 4 items bytes
    | 0xde => sized 2 entries bytes
    | 0xdf => sized 4 entries bytes
    | _ => none

/-- Reads a value whose parts are nested at most `depth` deep. -/
def readWithin : Nat → List UInt8 → Rest Packed
  | 0, _ | _ + 1, [] => none
  | depth + 1, head :: bytes => readAfter (readWithin depth) head.toNat bytes

/-- Reads the first value of some bytes; each level of nesting takes a byte at least. -/
def read (bytes : List UInt8) : Option Packed :=
  (readWithin bytes.length bytes).map (·.1)

/-! ## Parts of values -/

mutual

/-- How deep the parts of a value are nested. -/
def depth : Packed → Nat
  | list items => depthAll items + 1
  | record entries => depthEntries entries + 1
  | _ => 1

def depthAll : List Packed → Nat
  | [] => 0
  | item :: rest => max item.depth (depthAll rest)

def depthEntries : List (Packed × Packed) → Nat
  | [] => 0
  | (_, value) :: rest => max value.depth (depthEntries rest)

end

/-- The text of bytes; bytes that belong to no text count as the replacement character. -/
def textOf (bytes : List UInt8) : String :=
  match String.fromUTF8? (ByteArray.mk bytes.toArray) with
  | some text => text
  | none =>
    String.ofList (bytes.map fun b =>
      if b < 0x80 then Char.ofNat b.toNat else Char.ofNat 0xfffd)

def toText? : Packed → Option String
  | null => some ""
  | raw _ bytes => some (textOf bytes)
  | _ => none

/-- Bytes, or nothing for a value that is not there. -/
def toBytes? : Packed → Option (Option (List UInt8))
  | null => some none
  | raw _ bytes => some (some bytes)
  | _ => none

def toBool? : Packed → Option Bool
  | null => some false
  | bool b => some b
  | _ => none

def toInt? : Packed → Option Int
  | null => some 0
  | int i => some (Int.bmod i 0x10000000000000000)
  | _ => none

def toList? : Packed → Option (List Packed)
  | null => some []
  | list items => some items
  | _ => none

/-- Entries under texts; of two with one key the later counts. -/
def toKeyed? : Packed → Option (List (String × Packed))
  | null => some []
  | record entries => do
    return Keyed.ofList (← entries.mapM fun (key, value) => do return (← key.toText?, value))
  | _ => none

/-- The named parts of a record; a part that is not there is null.  A record may also stand as the
list of all its parts in order. -/
def parts? (names : List String) : Packed → Option (List (String × Packed))
  | list [] => some []
  | list items => if items.length = names.length then some (names.zip items) else none
  | value => value.toKeyed?

def part (name : String) (parts : List (String × Packed)) : Packed :=
  (Keyed.find? name parts).getD null

end Packed

end SchemaCompiler
