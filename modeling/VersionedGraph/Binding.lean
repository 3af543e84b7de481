import VersionedGraph.Scalar
import VersionedGraph.Text.Quoted

/-!
# Handing values over

The store is handed plain values: nothing, booleans, numbers and texts. A value is refused when it
has parts, is an integer without a 64-bit form, or is no proper text; the first parameter that must
be refused is the fault.

A column then gives a value the form that it keeps. Columns for texts keep numbers as their texts
(`Json.columnText?`). Columns for integers keep doubles that are integers and texts that are
numerals as integers, and what is neither as it is, so a cell of such a column holds an integer as a
rule but may hold another number or a text (`Json.cell?`).
-/

namespace VersionedGraph

/-- The ways in which a value cannot be handed over. -/
inductive BindFault where
  | outOfRange
  /-- A text with halves of surrogate pairs, from a position on. -/
  | unencodable (position : Nat) (halves : List CodePoint)
  /-- A value with parts, as the parameter of a place counted from one. -/
  | unsupported (place : Nat) (typeName : String)
  deriving DecidableEq

namespace BindFault

def message : BindFault → String
  | outOfRange => "Python int too large to convert to SQLite INTEGER"
  | unencodable position halves =>
    let which := match halves with
      | [half] => s!"character {Text.quoted ⟨[half]⟩} in position {position}"
      | _ => s!"characters in position {position}-{position + halves.length - 1}"
    s!"'utf-8' codec can't encode {which}: surrogates not allowed"
  | unsupported place typeName =>
    s!"Error binding parameter {place}: type '{typeName}' is not supported"

end BindFault

/-- The content of a column for integers. -/
inductive Cell where
  | integer (n : Int)
  | real (x : Binary64)
  | text (s : String)
  deriving DecidableEq, Inhabited

namespace Cell

def ofScalar? : Scalar → Option Cell
  | .null => none
  | .integer n => some (.integer n)
  | .real x => some (.real x)
  | .text s => some (.text s.replaced)

def toScalar : Cell → Scalar
  | integer n => .integer n
  | real x => .real x
  | text s => .text s

def toJson : Cell → Json
  | integer n => .int n
  | real x => .float x
  | text s => .str s

def integer? : Cell → Option Int
  | integer n => some n
  | _ => none

/-- The order of two cells: numbers by exact value and before texts. -/
def compare (a b : Cell) : Ordering :=
  (a.toScalar.compare? b.toScalar).getD .eq

def precedes (a b : Cell) : Bool :=
  a.compare b ≠ .gt

@[simp] theorem compare_integer (m n : Int) :
    (integer m).compare (integer n) = Ord.compare m n := rfl

def isPositive (a : Cell) : Bool :=
  a.compare (.integer 0) = .gt

@[simp] theorem isPositive_integer (n : Int) : (integer n).isPositive = decide (0 < n) := by
  simp [isPositive, Int.compare_eq_gt]

/-- What comes one after a cell; a text is followed by nothing. -/
def next : Cell → Except Misuse Json
  | integer n => .ok (.int (n + 1))
  | real x => .ok (.float x.increment)
  | text _ => .error .noSum

end Cell

namespace Json

/-- Why a value cannot be handed over as the parameter of a place. -/
def bindFault? (place : Nat) : Json → Option BindFault
  | .int n => if fitsWord n then none else some .outOfRange
  | .str s => s.firstHalves?.map fun (position, halves) => .unencodable position halves
  | .arr items => some (.unsupported place (Json.arr items).typeName)
  | .obj fields => some (.unsupported place (Json.obj fields).typeName)
  | _ => none

/-- Why values cannot be handed over as the parameters from a place on. -/
def firstBindFault? (place : Nat) : List Json → Option BindFault
  | [] => none
  | v :: rest =>
    match v.bindFault? place with
    | some fault => some fault
    | none => firstBindFault? (place + 1) rest

/-- The scalar that a value is handed over as; a double that is no number counts as nothing. -/
def handedScalar (v : Json) : Scalar :=
  ((Scalar.ofJson? v).getD .null).seen

/-- The text that a column for texts keeps of a value, if it keeps anything. -/
def columnText? (v : Json) : Option String :=
  v.handedScalar.patternText?

/-- The cell that a column for integers keeps of a value, if it keeps anything. -/
def cell? (v : Json) : Option Cell :=
  Cell.ofScalar? v.handedScalar.numeric

@[simp] theorem columnText?_str (s : String) : (Json.str s).columnText? = some s := by
  simp [columnText?, handedScalar, Scalar.ofJson?, Scalar.seen, Scalar.patternText?]

@[simp] theorem columnText?_null : Json.null.columnText? = none := rfl

@[simp] theorem columnText?_ofText? (s : Option String) : (Json.ofText? s).columnText? = s := by
  cases s <;> simp [Json.ofText?]

@[simp] theorem cell?_int (n : Int) : (Json.int n).cell? = some (.integer n) := rfl

@[simp] theorem cell?_null : Json.null.cell? = none := rfl

end Json

end VersionedGraph
