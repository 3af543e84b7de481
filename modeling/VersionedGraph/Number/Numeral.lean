import VersionedGraph.Number.Binary64
import VersionedGraph.Text.Blank
import VersionedGraph.Text.Digit

/-!
# Numerals at the start of a text

Text takes part in arithmetic through the numeral it begins with: after leading ASCII white space an
optional sign, digits with an optional point, and an exponent that counts only when it has digits.
A text that begins with no numeral reads as zero.
-/

namespace VersionedGraph

/-- A decimal numeral: sign, digits before and after the point, power of ten. -/
structure Numeral where
  negative : Bool
  whole : List Char
  fraction : List Char
  exponent : Int

namespace Numeral

def takeSign : List Char → Bool × List Char
  | '-' :: rest => (true, rest)
  | '+' :: rest => (false, rest)
  | cs => (false, cs)

/-- The power of ten given by an exponent part, zero when there is none. -/
def exponentOf : List Char → Int
  | e :: rest =>
    if e = 'e' || e = 'E' then
      let (negative, digits) := takeSign rest
      let n : Int := Text.decimal (digits.takeWhile Text.isDigit)
      if negative then -n else n
    else 0
  | [] => 0

def leading (cs : List Char) : Numeral :=
  let (negative, cs) := takeSign (cs.dropWhile Text.isAsciiBlank)
  let whole := cs.takeWhile Text.isDigit
  match cs.dropWhile Text.isDigit with
  | '.' :: rest =>
    ⟨negative, whole, rest.takeWhile Text.isDigit, exponentOf (rest.dropWhile Text.isDigit)⟩
  | rest => ⟨negative, whole, [], exponentOf rest⟩

/-- Whether an exponent part is complete: it has digits and nothing else. -/
def isExponent : List Char → Bool
  | e :: rest =>
    let digits := (takeSign rest).2
    (e = 'e' || e = 'E') && !digits.isEmpty && digits.all Text.isDigit
  | [] => false

/-- Whether a list of characters is a numeral and nothing else. -/
def isNumeral (cs : List Char) : Bool :=
  let cs := (takeSign cs).2
  let (fraction, rest) := match cs.dropWhile Text.isDigit with
    | '.' :: rest => (rest.takeWhile Text.isDigit, rest.dropWhile Text.isDigit)
    | rest => ([], rest)
  !(cs.takeWhile Text.isDigit ++ fraction).isEmpty && (rest.isEmpty || isExponent rest)

def toBinary64 (n : Numeral) : Binary64 :=
  Binary64.ofDecimal n.negative (Text.decimal (n.whole ++ n.fraction))
    (n.exponent - n.fraction.length)

def toInt (n : Numeral) : Int :=
  if n.negative then -(Text.decimal n.whole : Int) else Text.decimal n.whole

end Numeral

end VersionedGraph
