/-!
# Doubles and decimals

Every finite double is a whole number of units, where a unit is the least
positive double, `2 ^ (-1074)`. A double is taken apart into its sign and its
count of units, and the double nearest to a quotient of natural numbers is
found, with ties to the even neighbour. Both directions go through the bits:
those of the doubles that are at least zero, read as natural numbers, are
ordered as the doubles are, and the bits of infinity come right after those of
the largest finite double, so that rounding up past a power of two, or past
the largest double, needs no case of its own.

A decimal is a count of digits times a power of ten. It is read from a
numeral, turned into the nearest double, and written positionally, without an
exponent.

A double is written with as few digits as identify it. For one, two, …
seventeen digits the two neighbours of the value on the grid of that many
digits are tried, and the first grid with a neighbour that reads back to the
value wins; of two such neighbours the nearer, and of two equally near the
upper. Should no grid have one, the exact value is written, which also reads
back.
-/

namespace PolyAlgebra

/-! ## Doubles as whole numbers of units -/

namespace Binary64

def unitsPerOne : Nat := Nat.pow 2 1074

/-- The number of bit patterns with the same sign and exponent. The bits below
it are the fraction. -/
def fractionSpan : Nat := Nat.pow 2 52

def signSpan : Nat := Nat.pow 2 63

def infinityBits : Nat := 2047 * fractionSpan

def isNegative (x : Float) : Bool := signSpan ≤ x.toBits.toNat

/-- The absolute value of a finite double, counted in units. -/
def units (x : Float) : Nat :=
  let bits := x.toBits.toNat % signSpan
  let exponent := bits / fractionSpan
  let fraction := bits % fractionSpan
  if exponent = 0 then fraction
  else (fractionSpan + fraction) * Nat.pow 2 (exponent - 1)

/-- The natural number nearest to `a / b`; a tie goes to the even neighbour. -/
def roundQuotient (a b : Nat) : Nat :=
  let q := a / b
  match compare (2 * (a % b)) b with
  | .lt => q
  | .gt => q + 1
  | .eq => if q % 2 = 0 then q else q + 1

/-- The bits of the double nearest to `num / den`.

The quotient is counted in units and cut to 53 significant binary digits by
dropping `shift` of them. Each dropped digit raises the exponent field by one,
and the leading digit, which the bits do not hold, raises it once more. -/
def nearestBits (num den : Nat) : Nat :=
  let scaled := num * unitsPerOne
  let shift := (scaled / den).log2 - 52
  min (shift * fractionSpan + roundQuotient scaled (den * Nat.pow 2 shift))
    infinityBits

/-- The double nearest to `num / den`: a tie goes to the even neighbour, and
what is too large becomes infinity. -/
def nearest (num den : Nat) : Float :=
  Float.ofBits (nearestBits num den).toUInt64

end Binary64

/-! ## Decimals -/

/-- The number `digits * 10 ^ exponent`. -/
structure Decimal where
  digits : Nat
  exponent : Int
  deriving DecidableEq, Repr

namespace Decimal

def nearestBits (d : Decimal) : Nat :=
  Binary64.nearestBits (d.digits * Nat.pow 10 d.exponent.toNat)
    (Nat.pow 10 (-d.exponent).toNat)

def toFloat (d : Decimal) : Float := Float.ofBits d.nearestBits.toUInt64

def strip (d : Decimal) : Decimal :=
  if h : d.digits ≠ 0 ∧ d.digits % 10 = 0 then
    strip ⟨d.digits / 10, d.exponent + 1⟩
  else d
  termination_by d.digits
  decreasing_by omega

/-! ## Numerals -/

def digitValue (c : Char) : Nat := c.toNat - '0'.toNat

def value (cs : List Char) : Nat :=
  cs.foldl (fun n c => 10 * n + digitValue c) 0

def ofNumeral (cs : List Char) : Decimal :=
  let whole := cs.takeWhile Char.isDigit
  let fraction := (cs.dropWhile Char.isDigit).drop 1
  ⟨value (whole ++ fraction), -(fraction.length : Int)⟩

/-- Writes a decimal positionally, with as many zeros as the places require
and a point only where digits stand behind it. -/
def numeral (d : Decimal) : List Char :=
  let digits := Nat.toDigits 10 d.digits
  if 0 ≤ d.exponent then digits ++ List.replicate d.exponent.toNat '0'
  else
    let places := (-d.exponent).toNat
    let padded := List.replicate (places + 1 - digits.length) '0' ++ digits
    padded.take (padded.length - places) ++ '.' ::
      padded.drop (padded.length - places)

/-! ## The fewest digits that read back -/

open Binary64 (unitsPerOne)

def digitCount (n : Nat) : Nat := (Nat.toDigits 10 n).length

/-- The exponent `k` with `10 ^ (k - 1) ≤ u < 10 ^ k` for a positive count of
units `u`. -/
def scale (u : Nat) : Int :=
  if unitsPerOne ≤ u then (digitCount (u / unitsPerOne) : Int)
  else 1 - (digitCount ((unitsPerOne - 1) / u) : Int)

/-- The neighbour of a count of units on the grid `10 ^ exponent` that reads
back to `bits`, the nearer one if both do. -/
def onGrid (u bits : Nat) (exponent : Int) : Option Decimal :=
  let num := u * Nat.pow 10 (-exponent).toNat
  let den := unitsPerOne * Nat.pow 10 exponent.toNat
  let below : Decimal := ⟨num / den, exponent⟩
  let above : Decimal := ⟨num / den + 1, exponent⟩
  if below.nearestBits = bits then
    if above.nearestBits = bits ∧ den ≤ 2 * (num % den) then some above
    else some below
  else if above.nearestBits = bits then some above
  else none

def ofUnits (u : Nat) : Decimal := ⟨u * Nat.pow 5 1074, -1074⟩

def grids (u : Nat) : List Int :=
  let k := scale u
  (List.range 17).map fun n => k - (n + 1 : Nat)

/-- The decimal with the fewest digits that reads back to a positive finite
double, given by its count of units and its bits. -/
def shortest (u bits : Nat) : Decimal :=
  (((grids u).findSome? (onGrid u bits)).getD (ofUnits u)).strip

/-- The plain text of a double: the fewest digits that read back, always
positional. -/
def plain (x : Float) : String :=
  if x.isNaN then "NaN"
  else
    let sign := if Binary64.isNegative x then "-" else ""
    if x.isInf then sign ++ "inf"
    else if Binary64.units x = 0 then sign ++ "0"
    else sign ++
      String.ofList
        (shortest (Binary64.units x)
          (x.toBits.toNat % Binary64.signSpan)).numeral

end Decimal

end PolyAlgebra
