import VersionedGraph.Text.Blank
import VersionedGraph.Text.Digit
import VersionedGraph.Text.Quoted

/-!
# Integers in settings and options

An integer is written as an optional sign and decimal digits of any script, single underscores
between digits allowed, white space around it ignored. The information separators count as white
space elsewhere but not here, unless the text holds a character beyond ASCII, in which case all
white space beyond ASCII is ignored too.
-/

namespace VersionedGraph

/-- The ways in which a text fails to be an integer. -/
inductive IntegerFault where
  | malformed (text : String)
  | tooLong (digits : Nat)
  deriving DecidableEq

namespace IntegerFault

def shownLength : Nat := 200

def message : IntegerFault → String
  | malformed text =>
    "invalid literal for int() with base 10: " ++
      String.ofList ((Text.quoted text).toList.take shownLength)
  | tooLong digits => Text.tooManyDigits digits

end IntegerFault

namespace IntegerText

/-- A character of any script as the ASCII character that counts in its place: white space beyond
ASCII as a space, a digit as the ASCII digit of its value, and any other as a question mark. -/
def plainChar (c : Char) : Char :=
  if c.toNat < 0x80 then c
  else if Text.isBlank c then ' '
  else ((Text.digitValue? c).map fun v => Char.ofNat ('0'.toNat + v)).getD '?'

def digits? : List Char → Option (List Char)
  | [] => none
  | [c] => if Text.isDigit c then some [c] else none
  | c :: '_' :: rest => if Text.isDigit c then (digits? rest).map (c :: ·) else none
  | c :: d :: rest => if Text.isDigit c then (digits? (d :: rest)).map (c :: ·) else none

def splitSign : List Char → Bool × List Char
  | '-' :: rest => (true, rest)
  | '+' :: rest => (false, rest)
  | cs => (false, cs)

def isRunChar (c : Char) : Bool :=
  Text.isDigit c || c = '_'

/-- The integer written by a text. A run of too many digits is refused before what follows it is
looked at. -/
def parse (s : String) : Except IntegerFault Int :=
  let (negative, cs) := splitSign ((s.toList.map plainChar).dropWhile Text.isAsciiBlank)
  match digits? (cs.takeWhile isRunChar) with
  | none => .error (.malformed s)
  | some digits =>
    if Text.maxDigits < digits.length then .error (.tooLong digits.length)
    else if !(cs.dropWhile isRunChar).all Text.isAsciiBlank then .error (.malformed s)
    else .ok (if negative then -(Text.decimal digits : Int) else Text.decimal digits)

end IntegerText

end VersionedGraph
