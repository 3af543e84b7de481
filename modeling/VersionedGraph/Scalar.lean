import VersionedGraph.Json.Reader
import VersionedGraph.Number.Stepwise
import VersionedGraph.Path

/-!
# Scalars

What a query compares are scalars: nothing, 64-bit integers, doubles and texts. A path into a
document finds a part of it, and the part counts as a scalar: booleans as one and zero, integers too
large for 64 bits as doubles, lists and objects as their own text. Numbers are compared by exact
value whatever their form, every number comes before every text, and nothing compares with nothing.
-/

namespace VersionedGraph

/-- A value that queries compare. -/
inductive Scalar where
  | null
  | integer (n : Int)
  | real (x : Binary64)
  | text (s : LooseText)
  deriving DecidableEq, Inhabited

/-- The least positive integer without a 64-bit form, the sixty-third power of two. -/
def wordBound : Int := 0x8000000000000000

def fitsWord (n : Int) : Bool :=
  -wordBound ≤ n && n < wordBound

def clampWord (n : Int) : Int :=
  if n < -wordBound then -wordBound else if wordBound ≤ n then wordBound - 1 else n

theorem fitsWord_clampWord (n : Int) : fitsWord (clampWord n) = true := by
  have h : -wordBound ≤ clampWord n ∧ clampWord n < wordBound := by
    unfold clampWord
    by_cases hlow : n < -wordBound
    · rw [if_pos hlow]
      decide
    · rw [if_neg hlow]
      by_cases hhigh : wordBound ≤ n
      · rw [if_pos hhigh]
        decide
      · rw [if_neg hhigh]
        omega
  simpa [fitsWord] using h

theorem clampWord_of_fitsWord {n : Int} (h : fitsWord n = true) : clampWord n = n := by
  simp only [fitsWord, Bool.and_eq_true, decide_eq_true_eq] at h
  unfold clampWord
  rw [if_neg (by omega), if_neg (by omega)]

namespace Scalar

def ofLexeme (lexeme : List Char) : Scalar :=
  let n := Numeral.leading lexeme
  if Json.isIntegerLexeme lexeme && fitsWord n.toInt then .integer n.toInt else .real n.toBinary64

/-- The scalar that a part of a document counts as. A text ends where it holds a null character. -/
def ofDocument : Json.Document → Scalar
  | .word .null => .null
  | .word .true => .integer 1
  | .word .false => .integer 0
  | .word .notANumber => .null
  | .word (.infinity negative) => .real (Binary64.infinity negative)
  | .number lexeme => ofLexeme lexeme
  | .text body => .text ⟨(Json.unquote body).points.takeWhile (· ≠ .char (Char.ofNat 0))⟩
  | .array items => .text (String.ofList (Json.Document.array items).source)
  | .object members => .text (String.ofList (Json.Document.object members).source)

/-- The scalar as a double. That of a text comes stepwise of its leading numeral, while the numerals
of a document are taken for the nearest double. -/
def toReal : Scalar → Scalar
  | .null => .null
  | .integer n => .real (Binary64.ofInt n)
  | .real x => .real x
  | .text s => .real (Numeral.leading s.replaced.toList).stepwise

def toInteger : Scalar → Scalar
  | .null => .null
  | .integer n => .integer n
  | .real x => .integer (clampWord x.truncate)
  | .text s => .integer (clampWord (Numeral.leading s.replaced.toList).toInt)

/-- The scalar that a value is handed over as. Lists and objects are none. -/
def ofJson? : Json → Option Scalar
  | .null => some .null
  | .bool b => some (.integer (if b then 1 else 0))
  | .int n => some (.integer n)
  | .float x => some (.real x)
  | .str s => some (.text s)
  | .arr _ => none
  | .obj _ => none

/-- The integer that a double is, apart from the outermost ones with a 64-bit form. -/
def integerOfReal? (x : Binary64) : Option Int :=
  let n := x.truncate
  if x.compareInt n = .eq && -wordBound < n && n < wordBound - 1 then some n else none

/-- The number that a double is: an integer if it is one. -/
def ofReal (x : Binary64) : Scalar :=
  match integerOfReal? x with
  | some n => .integer n
  | none => .real x

/-- The scalar in the form that columns for integers give it: a double that is an integer becomes
one, a text that is a numeral becomes a number, and everything else stays as it is. -/
def numeric : Scalar → Scalar
  | .null => .null
  | .integer n => .integer n
  | .real x => ofReal x
  | .text s =>
    let cs := Text.trimBoth Text.isAsciiBlank s.replaced.toList
    let n := Numeral.leading cs
    if !Numeral.isNumeral cs then .text s
    else if Json.isIntegerLexeme cs && fitsWord n.toInt then .integer n.toInt
    else ofReal n.stepwise

def integer? (v : Scalar) : Option Int :=
  match v.numeric with
  | .integer n => some n
  | _ => none

def toJson : Scalar → Json
  | .null => .null
  | .integer n => .int n
  | .real x => .float x
  | .text s => .str s

/-- The text that patterns are matched against, in which half a surrogate pair is replaced. -/
def patternText? : Scalar → Option String
  | .null => none
  | .integer n => some (toString n)
  | .real x => some x.patternText
  | .text s => some s.replaced

def compare? : Scalar → Scalar → Option Ordering
  | .integer m, .integer n => some (compare m n)
  | .integer m, .real y => some (y.compareInt m).swap
  | .real x, .integer n => some (x.compareInt n)
  | .real x, .real y => some (x.compareTo y)
  | .text s, .text t => some (compare s t)
  | .text _, .integer _ => some .gt
  | .text _, .real _ => some .gt
  | .integer _, .text _ => some .lt
  | .real _, .text _ => some .lt
  | .null, _ => none
  | _, .null => none

/-- The scalar that a query sees: a double that is no number is seen as null. -/
def seen : Scalar → Scalar
  | .real x => if x.isNaN then .null else .real x
  | v => v

end Scalar

namespace Json.Document

/-- The part of a document that one step leads to: a step by name needs an object and leads to its
first member of that name, a step by position needs a list. Positions are thirty-two bits wide, so
one beyond that comes round to the start of the list. -/
def part? : Path.Component → Document → Option Document
  | .property name, .object members => members.lookup name.toList
  | .index position, .array items => items[position % 0x100000000]?
  | _, _ => none

def find? : Path → Document → Option Document
  | [], d => some d
  | c :: rest, d => (d.part? c).bind (find? rest)

/-- The scalar found by a path, null when the path leads nowhere. -/
def scalarAt (path : Path) (d : Document) : Scalar :=
  ((d.find? path).map Scalar.ofDocument).getD .null

end Json.Document

end VersionedGraph
