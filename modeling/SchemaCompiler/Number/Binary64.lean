/-!
# Binary floating point

Numbers of the form `m · 2 ^ e` with 53 bits in `m`: reading a decimal rounds it to the nearest of
them, a half to the even neighbour; writing one uses the fewest digits that read back, and of those
the nearest.  All of it is exact arithmetic on natural numbers.
-/

namespace SchemaCompiler

/-- A finite number of double precision: `mantissa · 2 ^ exponent`, with a sign for zero too. -/
structure Binary64 where
  negative : Bool
  mantissa : Nat
  exponent : Int
  deriving DecidableEq, Repr, Inhabited

namespace Binary64

def zero : Binary64 := ⟨false, 0, 0⟩

/-- The least exponent of a mantissa. -/
def minExponent : Int := -1074

/-- The greatest exponent of a mantissa of 53 bits. -/
def maxExponent : Int := 971

/-- `num / den` to the nearest natural number, a half to the even one. -/
def roundDiv (num den : Nat) : Nat :=
  let q := num / den
  let r := num % den
  if 2 * r < den then q
  else if den < 2 * r then q + 1
  else if q % 2 = 0 then q else q + 1

/-- `num / den` times `2 ^ -e`, rounded to the nearest natural number. -/
def scaled (num den : Nat) (e : Int) : Nat :=
  if 0 ≤ e then roundDiv num (den * Nat.pow 2 e.toNat)
  else roundDiv (num * Nat.pow 2 (-e).toNat) den

/-- The nearest number to `num / den`; none when it is out of range. -/
def ofRatio (negative : Bool) (num den : Nat) : Option Binary64 :=
  if num = 0 then some ⟨negative, 0, 0⟩
  else
    let guess : Int := (Nat.log2 num : Int) - (Nat.log2 den : Int) - 53
    let e₀ := max guess minExponent
    let m₀ := scaled num den e₀
    let e₁ := if m₀ < Nat.pow 2 53 then e₀ else e₀ + 1
    let m₁ := scaled num den e₁
    let e₂ := if m₁ < Nat.pow 2 53 then e₁ else e₁ + 1
    let m₂ := scaled num den e₂
    if maxExponent < e₂ then none else some ⟨negative, m₂, e₂⟩

/-- The value as a ratio of natural numbers. -/
def ratio (x : Binary64) : Nat × Nat :=
  if 0 ≤ x.exponent then (x.mantissa * Nat.pow 2 x.exponent.toNat, 1)
  else (x.mantissa, Nat.pow 2 (-x.exponent).toNat)

/-- The number nearest to `digits · 10 ^ e`. -/
def ofDecimal (negative : Bool) (digits : Nat) (e : Int) : Option Binary64 :=
  if 0 ≤ e then ofRatio negative (digits * Nat.pow 10 e.toNat) 1
  else ofRatio negative digits (Nat.pow 10 (-e).toNat)

def natOf (digits : List Char) : Nat :=
  digits.foldl (fun n c => 10 * n + (c.toNat - 48)) 0

/-- An exponent after its mark. -/
def exponentOf : List Char → Int
  | '+' :: ds => natOf ds
  | '-' :: ds => -(natOf ds : Int)
  | ds => natOf ds

/-- The number that a decimal spelling names. -/
def parse? (spelling : String) : Option Binary64 :=
  let (negative, cs) := match spelling.toList with
    | '-' :: cs => (true, cs)
    | cs => (false, cs)
  let whole := cs.takeWhile Char.isDigit
  let (fraction, rest) := match cs.dropWhile Char.isDigit with
    | '.' :: cs => (cs.takeWhile Char.isDigit, cs.dropWhile Char.isDigit)
    | rest => ([], rest)
  let e := match rest with
    | _ :: cs => exponentOf cs
    | [] => 0
  let digits := natOf (whole ++ fraction)
  if digits = 0 then some ⟨negative, 0, 0⟩
  else if 400 < e then none
  else if e < -400 - (whole.length + fraction.length : Int) then some ⟨negative, 0, 0⟩
  else ofDecimal negative digits (e - fraction.length)

/-- The same value, whatever the mantissa. -/
def sameValue (x y : Binary64) : Bool :=
  let (a, b) := x.ratio
  let (c, d) := y.ratio
  a * d == c * b

/-- The number of decimal digits before the point of a positive ratio, counting down below zero
for leading zeros after it. -/
def pointOf (num den : Nat) : Int :=
  let up (k : Int) : Bool :=
    if 0 ≤ k then decide (den * Nat.pow 10 k.toNat ≤ num)
    else decide (den ≤ num * Nat.pow 10 (-k).toNat)
  let guess : Int := ((Nat.log2 num : Int) - (Nat.log2 den : Int)) * 30103 / 100000
  if up (guess + 2) then guess + 3
  else if up (guess + 1) then guess + 2
  else if up guess then guess + 1
  else if up (guess - 1) then guess
  else guess - 1

/-- The neighbours of `num / den` on the grid of multiples of `10 ^ k`, and the nearer of the two
that read back. -/
def onGrid (x : Binary64) (num den : Nat) (k : Int) : Option Nat :=
  let (a, b) :=
    if 0 ≤ k then (num, den * Nat.pow 10 k.toNat) else (num * Nat.pow 10 (-k).toNat, den)
  let low := a / b
  let reads (n : Nat) : Bool :=
    match ofDecimal false n k with
    | some y => sameValue { x with negative := false } y
    | none => false
  let near := roundDiv a b
  let far := if near = low then low + 1 else low
  if reads near then some near else if reads far then some far else none

/-- The fewest digits that read back and the place of the point before them. -/
def shortest (x : Binary64) : Nat × Int :=
  if x.mantissa = 0 then (0, 1)
  else
    let (num, den) := x.ratio
    let point := pointOf num den
    let found := (List.range 17).findSome? fun (i : Nat) =>
      (onGrid x num den (point - (i + 1))).map (·, point - (i + 1))
    match found with
    | some (digits, k) => (digits, k + (toString digits).length)
    | none => (0, 1)

/-- Digits without zeros at the end. -/
def trimZeros (digits : List Char) : List Char :=
  (digits.reverse.dropWhile (· = '0')).reverse

/-- The text of a number: plain when the first digit stands from the fourth place after the point
up to the sixth before it, else with a power of ten. -/
def text (x : Binary64) : String :=
  let sign := if x.negative then "-" else ""
  if x.mantissa = 0 then sign ++ "0"
  else
    let (n, point) := x.shortest
    let digits := trimZeros (toString n).toList
    let e := point - 1
    if e < -4 || 6 ≤ e then
      let fraction := digits.drop 1
      let power := toString e.natAbs
      let power := if power.length < 2 then "0" ++ power else power
      sign ++ String.ofList (digits.take 1)
        ++ (if fraction.isEmpty then "" else "." ++ String.ofList fraction)
        ++ "e" ++ (if e < 0 then "-" else "+") ++ power
    else if point ≤ 0 then
      sign ++ "0." ++ String.ofList (List.replicate (-point).toNat '0' ++ digits)
    else if digits.length ≤ point.toNat then
      sign ++ String.ofList (digits ++ List.replicate (point.toNat - digits.length) '0')
    else
      sign ++ String.ofList (digits.take point.toNat) ++ "."
        ++ String.ofList (digits.drop point.toNat)

end Binary64

end SchemaCompiler
