import VersionedGraph.Number.Binary64

/-!
# Extended numbers

Queries convert between doubles and decimal texts in several steps, each of which is rounded, so
that what comes out is not always the nearest number. The steps are taken on nonnegative numbers
with a significand of sixty-four bits, eleven more than that of a double. An extended number is a
natural number times a power of two without any limit on the latter; `nearest` rounds a quotient to
a number of bits, and each operation is `nearest` of its exact result.
-/

namespace VersionedGraph

/-- A nonnegative number: a significand times a power of two. -/
structure Extended where
  significand : Nat
  exponent : Int
  deriving DecidableEq

namespace Extended

def width : Nat := 64

/-- The quotient times `2 ^ exponent`, rounded to a number of bits, a tie to the even one. The
quotient must have that many bits before its point, unless the division leaves no rest. -/
def nearest (bits num den : Nat) (exponent : Int) : Extended :=
  let dropped := (num / den).log2 + 1 - bits
  ⟨Binary64.roundEven num (den * twoTo dropped), exponent + dropped⟩

/-- A natural number below `2 ^ 64`, which needs no rounding. -/
def ofNat (n : Nat) : Extended := ⟨n, 0⟩

/-- The absolute value of a finite double, which needs no rounding. -/
def ofBinary64 (x : Binary64) : Extended :=
  ⟨x.significand, ((x.exponentField - 1 : Nat) : Int) - 1074⟩

def mul (x y : Extended) (bits : Nat := width) : Extended :=
  nearest bits (x.significand * y.significand) 1 (x.exponent + y.exponent)

/-- The quotient. The dividend is moved so far to the left that enough bits stand before the
point. -/
def div (x y : Extended) : Extended :=
  let moved := width + y.significand.log2 + 1
  nearest width (x.significand * twoTo moved) y.significand (x.exponent - y.exponent - moved)

/-- The significands of two numbers in units of the smaller of their powers of two, and the exponent
of that power. -/
def aligned (x y : Extended) : Nat × Nat × Int :=
  let unit := min x.exponent y.exponent
  (x.significand * twoTo (x.exponent - unit).toNat,
    y.significand * twoTo (y.exponent - unit).toNat, unit)

def add (x y : Extended) : Extended :=
  let (m, n, unit) := aligned x y
  nearest width (m + n) 1 unit

def compareTo (x y : Extended) : Ordering :=
  let (m, n, _) := aligned x y
  compare m n

def isBelow (x y : Extended) : Bool :=
  x.compareTo y = .lt

def whole (x : Extended) : Nat :=
  x.significand * twoTo x.exponent.toNat / twoTo (-x.exponent).toNat

def fraction (x : Extended) : Extended :=
  ⟨x.significand % twoTo (-x.exponent).toNat, x.exponent⟩

def toBinary64 (negative : Bool) (x : Extended) : Binary64 :=
  Binary64.ofRatio negative (x.significand * twoTo x.exponent.toNat) (twoTo (-x.exponent).toNat)

/-- A power of ten with an exponent below 512, by squaring: the square is taken for every binary
digit of the exponent and multiplied in where the digit is one. -/
def tenPower (n : Nat) : Extended :=
  ((List.range 9).foldl
    (fun (square, result) place =>
      (square.mul square, if n.testBit place then result.mul square else result))
    (ofNat 10, ofNat 1)).2

end Extended

end VersionedGraph
