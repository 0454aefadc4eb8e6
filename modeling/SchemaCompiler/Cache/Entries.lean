import SchemaCompiler.Keyed
import SchemaCompiler.Text

/-!
# Caches

Values by key, each with an optional deadline.  Time is a number of nanoseconds from the first
moment of the year 1 on, and that moment as a deadline means none.  An entry past its deadline is
no longer found, though it stays until it is replaced or removed.
-/

namespace SchemaCompiler

/-- Names what is cached of a file: where the file lies and which content it had. -/
structure CacheKey where
  source : String
  digest : String
  deriving DecidableEq, Repr

/-- What all keys of the file start with. -/
def CacheKey.head (k : CacheKey) : String := "adl:" ++ k.source ++ ":"

def CacheKey.text (k : CacheKey) : String := k.head ++ k.digest

structure CacheEntry (α : Type) where
  value : α
  deadline : Int
  deriving Repr

namespace CacheEntry

variable {α : Type}

/-- An entry is live up to and including its deadline. -/
def live (now : Int) (e : CacheEntry α) : Bool :=
  e.deadline = 0 || now ≤ e.deadline

end CacheEntry

/-- A cache; its entries stand in ascending order of their keys. -/
structure Cache (α : Type) where
  entries : List (String × CacheEntry α)
  deriving Repr

namespace Cache

variable {α : Type}

def empty : Cache α := ⟨[]⟩

def size (c : Cache α) : Nat := c.entries.length

/-- The value of a key, unless its time is over. -/
def get? (now : Int) (key : String) (c : Cache α) : Option α :=
  match Keyed.find? key c.entries with
  | none => none
  | some entry => if entry.live now then some entry.value else none

/-- Puts a value for a time to live; one that is not positive sets no deadline. -/
def set (now : Int) (key : String) (value : α) (life : Int) (c : Cache α) : Cache α :=
  ⟨Keyed.insert key ⟨value, if 0 < life then now + life else 0⟩ c.entries⟩

def delete (key : String) (c : Cache α) : Cache α :=
  ⟨c.entries.filter (·.1 ≠ key)⟩

/-- Removes all keys that start with a text. -/
def deleteUnder (head : String) (c : Cache α) : Cache α :=
  ⟨c.entries.filter fun e => !Text.startsWith head e.1⟩

def clear (_ : Cache α) : Cache α := empty

end Cache

end SchemaCompiler
