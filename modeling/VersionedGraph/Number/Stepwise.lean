import VersionedGraph.Number.Decimal
import VersionedGraph.Number.Extended
import VersionedGraph.Number.Numeral

/-!
# Stepwise conversion

When a query takes a text for a number, or matches a number against a pattern, the conversion goes
through extended numbers and is rounded more than once. `Numeral.stepwise` is the double that comes
of a numeral, `Binary64.patternText` the text that patterns see of a double. Both agree with the
nearest double and the correctly rounded digits but for the last place, and both drop what lies
beyond the digits they have room for.
-/

namespace VersionedGraph

namespace Binary64

/-- A natural number below this has a 64-bit form after one more factor of ten. -/
def roomForFactor : Nat := 922337203685477580

/-- Factors of ten are multiplied into a natural number while there is room. Gives the number and
how many factors are left. -/
def absorb : (n power : Nat) → Nat × Nat
  | n, 0 => (n, 0)
  | n, power + 1 => if n < roomForFactor then absorb (10 * n) power else (n, power + 1)

/-- Factors of ten are divided out of a natural number while they leave no rest. Gives the number
and how many factors are left. -/
def cancel : (n power : Nat) → Nat × Nat
  | n, 0 => (n, 0)
  | n, power + 1 => if n % 10 = 0 then cancel (n / 10) power else (n, power + 1)

def greatestTenPower : Binary64 := ofDecimal false 1 308

/-- The double that comes of `n * 10 ^ power`. Beyond the powers of ten that are doubles the result
is taken in two steps, and farther on it is infinity. -/
def scaledUp (negative : Bool) (n power : Nat) : Binary64 :=
  match absorb n power with
  | (n, 0) => ofRatio negative n 1
  | (n, power) =>
    if power < 308 then
      ((Extended.ofNat n).mul (Extended.tenPower power)).toBinary64 negative
    else if power < 342 then
      let near := ((Extended.ofNat n).mul (Extended.tenPower (power - 308))).toBinary64 false
      ofRatio negative (near.magnitude * greatestTenPower.magnitude) (twoTo 2148)
    else infinity negative

/-- The double that comes of `n / 10 ^ power`. Beyond the powers of ten that are doubles the result
is taken in two steps, and farther on it is zero. -/
def scaledDown (negative : Bool) (n power : Nat) : Binary64 :=
  match cancel n power with
  | (n, 0) => ofRatio negative n 1
  | (n, power) =>
    if power < 308 then
      ((Extended.ofNat n).div (Extended.tenPower power)).toBinary64 negative
    else if power < 342 then
      let near := ((Extended.ofNat n).div (Extended.tenPower (power - 308))).toBinary64 false
      ofRatio negative near.magnitude greatestTenPower.magnitude
    else zero negative

end Binary64

namespace Numeral

/-- Digits are gathered into a natural number that stays below this before the next one. -/
def roomForDigit : Nat := 922337203685477579

/-- The number made of `n` and the digits of a list, as many as there is room for, and the count of
digits taken. -/
def gather (n : Nat) : List Char → Nat × Nat
  | [] => (n, 0)
  | c :: rest =>
    if n < roomForDigit then
      let (n, count) := gather (10 * n + (c.toNat - '0'.toNat)) rest
      (n, count + 1)
    else (n, 0)

/-- The exponent of a numeral as far as it is looked at: one of more than five digits counts as ten
thousand. -/
def boundedExponent (n : Numeral) : Int :=
  if 100000 ≤ n.exponent then 10000
  else if n.exponent ≤ -100000 then -10000
  else n.exponent

def stepwise (n : Numeral) : Binary64 :=
  let (whole, wholeCount) := gather 0 n.whole
  let (digits, fractionCount) := gather whole n.fraction
  let power := n.boundedExponent + (n.whole.length - wholeCount : Nat) - fractionCount
  if digits = 0 then Binary64.zero n.negative
  else if 0 ≤ power then Binary64.scaledUp n.negative digits power.toNat
  else Binary64.scaledDown n.negative digits power.natAbs

end Numeral

namespace Extended

/-- A number and a power of ten by which it is to be multiplied. -/
structure Shifted where
  value : Extended
  power : Int

/-- The scale grows by a factor, itself a power of ten, while it stays at or below a value; at most
`count` times. -/
def growScale (value factor : Extended) (factorPower : Nat) : (count : Nat) → Shifted → Shifted
  | 0, scale => scale
  | count + 1, scale =>
    let next := factor.mul scale.value
    if value.isBelow next then scale
    else growScale value factor factorPower count ⟨next, scale.power + factorPower⟩

/-- The value grows by a factor, itself a power of ten, while it is below a bound; at most `count`
times. -/
def growValue (bound factor : Extended) (factorPower : Nat) : (count : Nat) → Shifted → Shifted
  | 0, x => x
  | count + 1, x =>
    if x.value.isBelow bound then
      growValue bound factor factorPower count ⟨x.value.mul factor, x.power - factorPower⟩
    else x

def tenTo64 (power : Int) : Extended := ofBinary64 (Binary64.ofDecimal false 1 power)

/-- The absolute value of a double that is finite and not zero, moved to where it lies between one
and ten. A great one is divided by a scale, a small one is multiplied step by step. -/
def normalized (x : Binary64) : Shifted :=
  let value := ofBinary64 x
  let scale := growScale value (tenTo64 100) 100 3 ⟨ofNat 1, 0⟩
  let scale := growScale value (tenTo64 10) 10 10 scale
  let scale := growScale value (tenTo64 1) 1 10 scale
  let x := growValue (tenTo64 (-8)) (tenTo64 8) 8 50 ⟨value.div scale.value, scale.power⟩
  growValue (ofNat 1) (ofNat 10) 1 10 x

/-- Half a unit of the fifteenth digit, as a product of doubles: a half and fourteen tenths. -/
def halfUnit : Extended :=
  (List.replicate 14 (tenTo64 (-1))).foldl (fun x tenth => x.mul tenth 53) ⟨1, -1⟩

/-- The number with half a unit added, moved again if that makes it ten. -/
def roundedUp (x : Shifted) : Shifted :=
  let value := x.value.add halfUnit
  if value.isBelow (ofNat 10) then ⟨value, x.power⟩
  else ⟨value.mul (tenTo64 (-1)), x.power + 1⟩

def leadingDigits : (count : Nat) → Extended → List Char
  | 0, _ => []
  | count + 1, x => Nat.digitChar x.whole :: leadingDigits count (x.fraction.mul (ofNat 10))

end Extended

namespace Binary64

/-- The fifteen significant digits that patterns see of a double that is finite and not zero. -/
def patternDecimal (x : Binary64) : Decimal :=
  let y := Extended.roundedUp (Extended.normalized x)
  ⟨x.isNegative, y.value.leadingDigits 15, y.power⟩

/-- The text that a pattern is matched against; zero has no sign in it. -/
def patternText (x : Binary64) : String :=
  if x.isInfinite then (if x.isNegative then "-Inf" else "Inf")
  else if x.magnitude = 0 then (Decimal.mk false ['0'] 0).layout patternStyle
  else x.patternDecimal.layout patternStyle

end Binary64

end VersionedGraph
