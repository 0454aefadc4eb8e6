import SchemaCompiler.Text.LetterClass

/-!
# Letter case

The one-to-one case mappings of Unicode: a character has at most one upper case and one lower
case partner, so text keeps its number of code points.  Characters whose full mapping is longer
than one character keep themselves.
-/

namespace SchemaCompiler.Text

/-- Capitals from `first` on, whose small letters lie `shift` code points behind.  Where they lie
one behind, capitals and small letters stand in turn. -/
structure CaseRun where
  first : Nat
  count : Nat
  shift : Int

namespace CaseRun

def step (r : CaseRun) : Nat := if r.shift = 1 then 2 else 1

def next (r : CaseRun) : Nat := r.first + r.count * r.step

def covers (r : CaseRun) (code : Int) : Bool :=
  r.first ≤ code && code < r.next && (code - r.first) % r.step == 0

end CaseRun

/-- The runs of a table in order.  A table has the gap before, the count and the shift of each. -/
def caseRunsOf (start : Nat) : List Int → List CaseRun
  | gap :: count :: shift :: rest =>
    let r : CaseRun := ⟨start + gap.toNat, count.toNat, shift⟩
    r :: caseRunsOf r.next rest
  | _ => []

/-- Capitals above ASCII that are the upper case of their lower case. -/
def caseRuns : List CaseRun := caseRunsOf 0 [
  192, 23, 32, 1, 7, 32, 33, 24, 1, 2, 3, 1, 1, 8, 1, 1, 23, 1, 0, 1, -121, 0, 3, 1, 2, 1, 210, 0,
  2, 1, 0, 1, 206, 0, 1, 1, 0, 2, 205, 0, 1, 1, 1, 1, 79, 0, 1, 202, 0, 1, 203, 0, 1, 1, 0, 1, 205,
  0, 1, 207, 1, 1, 211, 0, 1, 209, 0, 1, 1, 2, 1, 211, 0, 1, 213, 1, 1, 214, 0, 3, 1, 0, 1, 218, 0,
  1, 1, 0, 1, 218, 2, 1, 1, 0, 1, 218, 0, 1, 1, 0, 2, 217, 0, 2, 1, 0, 1, 219, 0, 1, 1, 2, 1, 1, 6,
  1, 2, 2, 1, 2, 2, 1, 2, 2, 8, 1, 1, 9, 1, 1, 1, 2, 2, 1, 1, 0, 1, -97, 0, 1, -56, 0, 20, 1, 0, 1,
  -130, 1, 9, 1, 6, 1, 10795, 0, 1, 1, 0, 1, -163, 0, 1, 10792, 2, 1, 1, 0, 1, -195, 0, 1, 69, 0,
  1, 71, 0, 5, 1, 288, 2, 1, 2, 1, 1, 7, 1, 116, 6, 1, 38, 1, 3, 37, 1, 1, 64, 1, 2, 63, 1, 17, 32,
  1, 9, 32, 35, 1, 8, 8, 12, 1, 7, 1, 1, 0, 1, -7, 0, 1, 1, 1, 3, -130, 0, 16, 80, 0, 32, 32, 48,
  17, 1, 8, 27, 1, 0, 1, 15, 0, 7, 1, 1, 48, 1, 1, 38, 48, 2889, 38, 7264, 1, 1, 7264, 5, 1, 7264,
  722, 80, 38864, 0, 6, 8, 2202, 43, -3008, 2, 3, -3008, 320, 75, 1, 10, 48, 1, 8, 8, -8, 8, 6, -8,
  10, 8, -8, 8, 8, -8, 8, 6, -8, 11, 1, -8, 1, 1, -8, 1, 1, -8, 1, 1, -8, 8, 8, -8, 24, 8, -8, 8,
  8, -8, 8, 8, -8, 8, 2, -8, 0, 2, -74, 0, 1, -9, 11, 4, -86, 0, 1, -9, 11, 2, -8, 0, 2, -100, 12,
  2, -8, 0, 2, -112, 0, 1, -7, 11, 2, -128, 0, 2, -126, 0, 1, -9, 309, 1, 28, 45, 16, 16, 19, 1, 1,
  817, 26, 26, 1840, 48, 48, 48, 1, 1, 0, 1, -10743, 0, 1, -3814, 0, 1, -10727, 2, 3, 1, 0, 1,
  -10780, 0, 1, -10749, 0, 1, -10783, 0, 1, -10782, 1, 1, 1, 1, 1, 1, 7, 2, -10815, 0, 50, 1, 7, 2,
  1, 3, 1, 1, 31052, 23, 1, 18, 14, 1, 134, 7, 1, 2, 31, 1, 9, 2, 1, 0, 1, -35332, 0, 5, 1, 3, 1,
  1, 0, 1, -42280, 2, 2, 1, 2, 10, 1, 0, 1, -42308, 0, 1, -42319, 0, 1, -42315, 0, 1, -42305, 0, 1,
  -42308, 1, 1, -42258, 0, 1, -42282, 0, 1, -42261, 0, 1, 928, 0, 8, 1, 0, 1, -48, 0, 1, -42307, 0,
  1, -35384, 0, 2, 1, 5, 1, 1, 4, 2, 1, 27, 1, 1, 22314, 26, 32, 1221, 40, 40, 136, 36, 40, 156,
  11, 39, 1, 15, 39, 1, 7, 39, 1, 2, 39, 1770, 51, 64, 3053, 32, 32, 21888, 32, 32, 31392, 34, 34]

/-- Other characters with an upper case. -/
def otherUpper : List (Nat × Nat) := [
  (0xb5, 0x39c), (0x131, 0x49), (0x17f, 0x53), (0x1c5, 0x1c4), (0x1c8, 0x1c7), (0x1cb, 0x1ca),
  (0x1f2, 0x1f1), (0x345, 0x399), (0x3c2, 0x3a3), (0x3d0, 0x392), (0x3d1, 0x398), (0x3d5, 0x3a6),
  (0x3d6, 0x3a0), (0x3f0, 0x39a), (0x3f1, 0x3a1), (0x3f5, 0x395), (0x1c80, 0x412), (0x1c81, 0x414),
  (0x1c82, 0x41e), (0x1c83, 0x421), (0x1c84, 0x422), (0x1c85, 0x422), (0x1c86, 0x42a),
  (0x1c87, 0x462), (0x1c88, 0xa64a), (0x1e9b, 0x1e60), (0x1fbe, 0x399)]

/-- Other characters with a lower case. -/
def otherLower : List (Nat × Nat) := [
  (0x130, 0x69), (0x1c5, 0x1c6), (0x1c8, 0x1c9), (0x1cb, 0x1cc), (0x1f2, 0x1f3), (0x3f4, 0x3b8),
  (0x1e9e, 0xdf), (0x2126, 0x3c9), (0x212a, 0x6b), (0x212b, 0xe5)]

/-- Characters with a lower case that are no capitals: numerals, and letters in title case. -/
def uncapitalRanges : List (Nat × Nat) := rangesOf 0 [
  453, 1, 2, 1, 2, 1, 38, 1, 7573, 8, 8, 8, 8, 8, 12, 1, 15, 1, 47, 1, 355, 16, 838, 26]

/-- Capitals without a lower case. -/
def loneCapitalRanges : List (Nat × Nat) := rangesOf 0 [
  978, 3, 7469, 1, 4, 1, 3, 3, 2, 3, 2, 1, 3, 5, 6, 1, 3, 1, 3, 2, 2, 2, 1, 1, 10, 2, 5, 1, 111290,
  26, 26, 26, 26, 26, 26, 1, 1, 2, 2, 1, 2, 2, 2, 4, 1, 8, 26, 26, 26, 2, 1, 4, 2, 8, 1, 7, 27, 2,
  1, 4, 1, 5, 1, 1, 3, 7, 27, 26, 26, 26, 26, 26, 26, 26, 26, 26, 26, 26, 30, 25, 33, 25, 33, 25,
  33, 25, 33, 25, 33, 1]

/-- The code point of the partner in upper case. -/
def upperCode? (code : Nat) : Option Nat :=
  match caseRuns.find? fun r => r.covers (code - r.shift) with
  | some r => some (code - r.shift).toNat
  | none => otherUpper.lookup code

/-- The code point of the partner in lower case. -/
def lowerCode? (code : Nat) : Option Nat :=
  match caseRuns.find? (·.covers code) with
  | some r => some (code + r.shift).toNat
  | none => otherLower.lookup code

def upperChar (c : Char) : Char :=
  if c.toNat < 0x80 then c.toUpper else ((upperCode? c.toNat).map Char.ofNat).getD c

def lowerChar (c : Char) : Char :=
  if c.toNat < 0x80 then c.toLower else ((lowerCode? c.toNat).map Char.ofNat).getD c

def isUpperChar (c : Char) : Bool :=
  if c.toNat < 0x80 then c.isUpper
  else (lowerCode? c.toNat).isSome && !inRanges uncapitalRanges c.toNat
    || inRanges loneCapitalRanges c.toNat

/-- White space: the six ASCII blanks, next line, no-break space and the space separators. -/
def isSpaceChar (c : Char) : Bool :=
  [0x09, 0x0a, 0x0b, 0x0c, 0x0d, 0x20, 0x85, 0xa0, 0x1680, 0x2028, 0x2029, 0x202f, 0x205f,
    0x3000].contains c.toNat || (0x2000 ≤ c.toNat && c.toNat ≤ 0x200a)

def upper (text : String) : String :=
  String.ofList (text.toList.map upperChar)

def lower (text : String) : String :=
  String.ofList (text.toList.map lowerChar)

/-- The text without white space at its ends. -/
def trim (text : String) : String :=
  String.ofList ((text.toList.dropWhile isSpaceChar).reverse.dropWhile isSpaceChar).reverse

/-!
## Title case

The first letter of each word in upper case and the others in lower case.  Words end at characters
that are no letters, digits or joiners; an apostrophe, a full stop or a colon inside a word does
not end it, two of them do.
-/

/-- Characters that may stand inside a word, one at a time. -/
def isMidWord (c : Char) : Bool :=
  c.toNat ∈ [0x27, 0x2e, 0x3a, 0xb7, 0x387, 0x55f, 0x5f4, 0x2018, 0x2019, 0x2024, 0x2027, 0xfe13,
    0xfe52, 0xfe55, 0xff07, 0xff0e, 0xff1a]

/-- Ideographs and the like are words of their own. -/
def isIdeograph (c : Char) : Bool :=
  let n := c.toNat
  (0x3040 ≤ n && n < 0x3100) || (0x3400 ≤ n && n < 0xa000) || (0xf900 ≤ n && n < 0xfb00)
    || 0x20000 ≤ n

/-- Characters that end a word. -/
def endsWord (c : Char) : Bool :=
  !(isMidWord c || c = '_' || ((isLetter c || isDigit c) && !isIdeograph c)
    || (0x300 ≤ c.toNat && c.toNat < 0x370))

def isCased (c : Char) : Bool :=
  isUpperChar c || upperChar c ≠ c || lowerChar c ≠ c || c.toNat = 0xdf

/-- A letter at the start of a word. -/
def titleLetter (c : Char) : List Char :=
  if c.toNat = 0xdf then ['S', 's'] else [upperChar c]

def titleChars (inWord wasMid : Bool) : List Char → List Char
  | [] => []
  | c :: rest =>
    let inWord := inWord && !(wasMid && isMidWord c)
    if isCased c then
      (if inWord then [lowerChar c] else titleLetter c) ++ titleChars true (isMidWord c) rest
    else c :: titleChars (inWord && !endsWord c) (isMidWord c) rest

def title (text : String) : String :=
  String.ofList (titleChars false false text.toList)

end SchemaCompiler.Text
