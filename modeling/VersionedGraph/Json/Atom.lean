import VersionedGraph.Json.Misuse
import VersionedGraph.Scalar

/-!
# Atoms

Values without parts can be told apart and put in order. Equality is by value: the two booleans
equal one and zero, and an integer equals the double of the same value. The order is partial, since
only numbers compare with numbers and texts with texts.

Values with parts are equal when their parts are, fields in any order; they cannot be told apart
from many others at once, as what is looked up must be.
-/

namespace VersionedGraph

/-- A value without parts. -/
inductive Atom where
  | null
  | bool (b : Bool)
  | int (n : Int)
  | float (x : Binary64)
  | text (s : LooseText)
  deriving DecidableEq, Inhabited

namespace Atom

/-- The atom that a value is, if it has no parts. -/
def ofJson? : Json → Option Atom
  | .null => some .null
  | .bool b => some (.bool b)
  | .int n => some (.int n)
  | .float x => some (.float x)
  | .str s => some (.text s)
  | .arr _ => none
  | .obj _ => none

def ofJson (value : Json) : Except Misuse Atom :=
  match ofJson? value with
  | some a => .ok a
  | none => .error (.compound value)

def toJson : Atom → Json
  | null => .null
  | bool b => .bool b
  | int n => .int n
  | float x => .float x
  | text s => .str s

def toScalar : Atom → Scalar
  | null => .null
  | bool b => .integer (if b then 1 else 0)
  | int n => .integer n
  | float x => .real x
  | text s => .text s

@[simp] theorem ofJson?_toJson (a : Atom) : ofJson? a.toJson = some a := by
  cases a <;> rfl

@[simp] theorem ofJson_toJson (a : Atom) : ofJson a.toJson = .ok a := by
  simp [ofJson]

def sameAs (a b : Atom) : Bool :=
  match a, b with
  | null, null => true
  | text s, text t => s = t
  | a, b => a.toScalar.compare? b.toScalar = some .eq

/-- The order of two atoms, when both are numbers or both are texts. -/
def compare? (a b : Atom) : Option Ordering :=
  match a.toScalar, b.toScalar with
  | .text s, .text t => some (compare s t)
  | .text _, _ => none
  | _, .text _ => none
  | s, t => s.compare? t

end Atom

namespace Json

mutual

/-- Whether two values are equal, numbers by value and objects whatever the order of their
fields. -/
def sameAs : Json → Json → Bool
  | .arr xs, .arr ys => sameItems xs ys
  | .obj fs, .obj gs => fs.length = gs.length && sameFields fs gs
  | .arr _, _ => false
  | .obj _, _ => false
  | .null, w => (Atom.ofJson? w).any Atom.null.sameAs
  | .bool b, w => (Atom.ofJson? w).any (Atom.bool b).sameAs
  | .int n, w => (Atom.ofJson? w).any (Atom.int n).sameAs
  | .float x, w => (Atom.ofJson? w).any (Atom.float x).sameAs
  | .str s, w => (Atom.ofJson? w).any (Atom.text s).sameAs

def sameItems : List Json → List Json → Bool
  | [], [] => true
  | x :: xs, y :: ys => sameAs x y && sameItems xs ys
  | _, _ => false

def sameFields : List (LooseText × Json) → List (LooseText × Json) → Bool
  | [], _ => true
  | (name, v) :: rest, gs => (gs.lookup name).any (sameAs v) && sameFields rest gs

end

/-- Whether a number is above another one; what is no number of any kind is above nothing. -/
def exceeds (left right : Json) : Except Misuse Bool :=
  let numberOf (v : Json) : Option Scalar :=
    match Scalar.ofJson? v with
    | some (.integer n) => some (.integer n)
    | some (.real x) => some (.real x)
    | _ => none
  match numberOf left, numberOf right with
  | some m, some n => .ok (m.seen.compare? n.seen = some .gt)
  | _, _ => .error (.incomparable ">" left right)

@[simp] theorem exceeds_int (m n : Int) : exceeds (.int m) (.int n) = .ok (decide (n < m)) := by
  simp [exceeds, Scalar.ofJson?, Scalar.seen, Scalar.compare?, Int.compare_eq_gt]

end Json

end VersionedGraph
