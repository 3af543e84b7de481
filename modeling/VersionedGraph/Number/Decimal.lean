import VersionedGraph.Number.Binary64

/-!
# Decimal texts of doubles

A finite double is written from a list of significant digits and the power of ten of the first one.
`Decimal.layout` places the point. Where positional notation ends and what the mantissa of an
exponent looks like is a `Decimal.Style`, since the document text and the pattern text of a number
differ in just that.
-/

namespace VersionedGraph

/-- Significant digits, not all zero unless the value is, and the power of ten of the first. -/
structure Decimal where
  negative : Bool
  digits : List Char
  power : Int

namespace Decimal

/-- The choices in writing a decimal. -/
structure Style where
  /-- The least power of the first digit that is written without an exponent. -/
  leastPlain : Int
  /-- The greatest power of the first digit that is written without an exponent. -/
  greatestPlain : Int
  /-- Whether a one-digit mantissa is given a point and a zero. -/
  pointedMantissa : Bool

/-- The digits without the zeros at their end, but at least one digit. -/
def stripped (digits : List Char) : List Char :=
  match (digits.reverse.dropWhile (· = '0')).reverse with
  | [] => ['0']
  | cs => cs

def exponentText (e : Int) : List Char :=
  let ds := Nat.toDigits 10 e.natAbs
  'e' :: (if e < 0 then '-' else '+') :: (if ds.length < 2 then '0' :: ds else ds)

def mantissa (pointed : Bool) : List Char → List Char
  | [] => ['0']
  | [d] => if pointed then [d, '.', '0'] else [d]
  | d :: ds => d :: '.' :: ds

/-- Digits around a point that stands after the place of value one. -/
def plain (digits : List Char) (power : Int) : List Char :=
  if power < 0 then
    '0' :: '.' :: List.replicate (-power - 1).toNat '0' ++ digits
  else
    let whole := power.toNat + 1
    let front := digits.take whole
    let back := digits.drop whole
    front ++ List.replicate (whole - front.length) '0' ++
      '.' :: (if back.isEmpty then ['0'] else back)

def layout (style : Style) (d : Decimal) : String :=
  let digits := stripped d.digits
  let body :=
    if style.leastPlain ≤ d.power && d.power ≤ style.greatestPlain then plain digits d.power
    else mantissa style.pointedMantissa digits ++ exponentText d.power
  String.ofList (if d.negative then '-' :: body else body)

/-- The decimal with the digits of a number, which has as many as are counted, or one more if it is
the least number with that many. -/
def ofNumeral (negative : Bool) (count n : Nat) (power : Int) : Decimal :=
  if n = tenTo count then ⟨negative, ['1'], power + 1⟩ else ⟨negative, Nat.toDigits 10 n, power⟩

end Decimal

namespace Binary64

/-- The power of ten of the first significant digit of a double that is finite and not zero. The
absolute value times `10 ^ 400` is at least one, so counting its digits is enough. -/
def leadingPower (x : Binary64) : Int :=
  ((Nat.toDigits 10 (x.magnitude * tenTo 400 / twoTo 1074)).length : Int) - 401

/-- The absolute value in units of a power of ten, as a quotient. -/
def inUnits (x : Binary64) (unit : Int) : Nat × Nat :=
  if 0 ≤ unit then (x.magnitude, twoTo 1074 * tenTo unit.toNat)
  else (x.magnitude * tenTo (-unit).toNat, twoTo 1074)

/-- The digits of the double with the same absolute value that is finite and not zero, rounded to a
count of significant digits, a half away from zero. -/
def rounded (x : Binary64) (count : Nat) : Decimal :=
  let power := x.leadingPower
  let units := x.inUnits (power - count + 1)
  .ofNumeral x.isNegative count ((2 * units.1 + units.2) / (2 * units.2)) power

/-- The nearest of the decimals with a given count of significant digits that read back as the
double, if one of the two neighbours on that grid does; of two that are equally near, the one whose
last digit is even. -/
def nearestReadingBack? (x : Binary64) (count : Nat) : Option Decimal :=
  let power := x.leadingPower
  let unit := power - count + 1
  let units := x.inUnits unit
  let below := units.1 / units.2
  let readsBack (n : Nat) : Bool := ofDecimal x.isNegative n unit = x
  let decimal (n : Nat) : Decimal := .ofNumeral x.isNegative count n power
  if readsBack below then
    some (decimal (if readsBack (below + 1) then roundEven units.1 units.2 else below))
  else if readsBack (below + 1) then some (decimal (below + 1))
  else none

/-- The shortest decimal that reads back as a finite double, and the nearest of those. Seventeen
significant digits always suffice. -/
def shortest (x : Binary64) : Decimal :=
  if x.magnitude = 0 then ⟨x.isNegative, ['0'], 0⟩
  else
    (((List.range 17).map (· + 1)).findSome? x.nearestReadingBack?).getD (x.rounded 17)

/-- Documents and messages write a double with the fewest digits, positional from `10 ^ (-4)` up to
below `10 ^ 16`. -/
def documentStyle : Decimal.Style := ⟨-4, 15, false⟩

/-- Patterns see a double with fifteen significant digits, positional from `10 ^ (-4)` up to below
`10 ^ 15`, and always with a point. -/
def patternStyle : Decimal.Style := ⟨-4, 14, true⟩

/-- The shortest text of a double, with the given words for what has no digits. -/
def shortestText (infinite notANumber : String) (x : Binary64) : String :=
  if x.isNaN then notANumber
  else if x.isInfinite then (if x.isNegative then "-" ++ infinite else infinite)
  else x.shortest.layout documentStyle

end Binary64

end VersionedGraph
