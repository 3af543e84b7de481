/-!
# Double-precision numbers

A double is kept as its bit pattern. Everything else is exact arithmetic on natural numbers: a
finite double is a multiple of `2 ^ (-1074)`, so `scaled` is its value times `2 ^ 1074`, an integer.
The same formula puts the infinities at `± 2 ^ 2098`, beyond every finite double and every 64-bit
integer, which makes `scaled` an order key for all doubles that are numbers. In the other direction
`ofRatio` and `ofDecimal` round a quotient to the nearest double, a tie to the even one.
-/

namespace VersionedGraph

abbrev twoTo (n : Nat) : Nat := Nat.pow 2 n

abbrev tenTo (n : Nat) : Nat := Nat.pow 10 n

/-- A double-precision number, as its bit pattern. -/
structure Binary64 where
  bits : UInt64
  deriving DecidableEq, Inhabited

namespace Binary64

def exponentField (x : Binary64) : Nat :=
  x.bits.toNat / twoTo 52 % twoTo 11

def fraction (x : Binary64) : Nat :=
  x.bits.toNat % twoTo 52

def isNegative (x : Binary64) : Bool :=
  twoTo 63 ≤ x.bits.toNat

def isNaN (x : Binary64) : Bool :=
  x.exponentField = 2047 && x.fraction ≠ 0

def isInfinite (x : Binary64) : Bool :=
  x.exponentField = 2047 && x.fraction = 0

/-- The integer significand, with the leading bit that normal numbers leave out. -/
def significand (x : Binary64) : Nat :=
  if x.exponentField = 0 then x.fraction else x.fraction + twoTo 52

def magnitude (x : Binary64) : Nat :=
  x.significand * twoTo (x.exponentField - 1)

/-- The value times `2 ^ 1074`, and `± 2 ^ 2098` for the infinities. -/
def scaled (x : Binary64) : Int :=
  if x.isNegative then -(x.magnitude : Int) else x.magnitude

/-- The double with a given sign and remaining bits, which are capped at those of infinity. -/
def ofMagnitudeBits (negative : Bool) (bits : Nat) : Binary64 :=
  let capped := min bits (2047 * twoTo 52)
  ⟨UInt64.ofNat (if negative then capped + twoTo 63 else capped)⟩

def zero (negative : Bool) : Binary64 :=
  ofMagnitudeBits negative 0

def infinity (negative : Bool) : Binary64 :=
  ofMagnitudeBits negative (2047 * twoTo 52)

def nan : Binary64 :=
  ⟨UInt64.ofNat (2047 * twoTo 52 + twoTo 51)⟩

/-- The quotient rounded to an integer, a tie to the even one. -/
def roundEven (num den : Nat) : Nat :=
  let q := num / den
  let r := num % den
  if 2 * r < den || (2 * r == den && q % 2 == 0) then q else q + 1

/-- The double nearest to a quotient. In units of the least double the quotient has a leading bit,
and fifty-two more bits are kept below it; a carry out of the significand moves into the exponent by
itself, since the two fields are adjacent. -/
def ofRatio (negative : Bool) (num den : Nat) : Binary64 :=
  let units := num * twoTo 1074
  let dropped := (units / den).log2 - 52
  ofMagnitudeBits negative (dropped * twoTo 52 + roundEven units (den * twoTo dropped))

def ofInt (n : Int) : Binary64 :=
  ofRatio (n < 0) n.natAbs 1

/-- The double nearest to `digits * 10 ^ exponent`. Exponents that lead beyond the doubles on either
side are told apart first, so that no large power is ever computed. -/
def ofDecimal (negative : Bool) (digits : Nat) (exponent : Int) : Binary64 :=
  if digits = 0 then zero negative
  else if 400 < exponent then infinity negative
  else if exponent + digits.log2 < -1100 then zero negative
  else if 0 ≤ exponent then ofRatio negative (digits * tenTo exponent.toNat) 1
  else ofRatio negative digits (tenTo (-exponent).toNat)

def truncate (x : Binary64) : Int :=
  let whole : Int := (x.magnitude / twoTo 1074 : Nat)
  if x.isNegative then -whole else whole

/-- The double nearest to the value plus one; the infinities and what is no number stay. -/
def increment (x : Binary64) : Binary64 :=
  if x.isNaN || x.isInfinite then x
  else
    let sum := x.scaled + twoTo 1074
    ofRatio (sum < 0) sum.natAbs (twoTo 1074)

/-- The order of a double and an integer by exact value. -/
def compareInt (x : Binary64) (n : Int) : Ordering :=
  compare x.scaled (n * twoTo 1074)

/-- The order of two doubles by exact value; the two zeros are equal. -/
def compareTo (x y : Binary64) : Ordering :=
  compare x.scaled y.scaled

end Binary64

end VersionedGraph
