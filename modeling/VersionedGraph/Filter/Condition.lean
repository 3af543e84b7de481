import VersionedGraph.Scalar
import VersionedGraph.Text.Pattern

/-!
# Conditions on documents

A condition is what a filter is compiled to: a test of the value that each path leads to, combined
by conjunction and disjunction. It has two sides. `predicate` and `parameters` are its text as a
clause of a query, with a question mark for every bound value, in order. `truth` is its meaning on a
document, in three-valued logic, since a comparison with nothing is neither true nor false.

A query does not evaluate more of a condition than it needs, and this shows when a part fails: an
unreadable document or an overlong pattern does harm only if it is reached. `holds` evaluates in
that way.
-/

namespace VersionedGraph

abbrev Truth := Option Bool

namespace Truth

/-- Conjunction: false if a part is, else unknown if a part is. -/
def and : Truth → Truth → Truth
  | some false, _ => some false
  | _, some false => some false
  | some true, t => t
  | t, some true => t
  | none, none => none

/-- Disjunction: true if a part is, else unknown if a part is. -/
def or : Truth → Truth → Truth
  | some true, _ => some true
  | _, some true => some true
  | some false, t => t
  | t, some false => t
  | none, none => none

def conj (ts : List Truth) : Truth :=
  ts.foldr and (some true)

def disj (ts : List Truth) : Truth :=
  ts.foldr or (some false)

theorem and_comm (s t : Truth) : and s t = and t s := by
  rcases s with _ | _ | _ <;> rcases t with _ | _ | _ <;> rfl

theorem or_comm (s t : Truth) : or s t = or t s := by
  rcases s with _ | _ | _ <;> rcases t with _ | _ | _ <;> rfl

@[simp] theorem conj_nil : conj [] = some true := rfl

@[simp] theorem conj_cons (t : Truth) (ts : List Truth) : conj (t :: ts) = and t (conj ts) := rfl

@[simp] theorem disj_nil : disj [] = some false := rfl

@[simp] theorem disj_cons (t : Truth) (ts : List Truth) : disj (t :: ts) = or t (disj ts) := rfl

theorem and_eq_true {s t : Truth} : and s t = some true ↔ s = some true ∧ t = some true := by
  rcases s with _ | _ | _ <;> rcases t with _ | _ | _ <;> simp [and]

theorem or_eq_true {s t : Truth} : or s t = some true ↔ s = some true ∨ t = some true := by
  rcases s with _ | _ | _ <;> rcases t with _ | _ | _ <;> simp [or]

end Truth

/-- The ways in which the evaluation of a condition fails. -/
inductive EvalFault where
  | malformedDocument
  | patternTooLong
  deriving DecidableEq

namespace EvalFault

def message : EvalFault → String
  | malformedDocument => "malformed JSON"
  | patternTooLong => "LIKE or GLOB pattern too complex"

end EvalFault

namespace Condition

/-- How a value is taken before it is compared. -/
inductive Reading where
  | asIs
  | integer
  | real
  deriving DecidableEq

/-- The comparisons of two scalars. -/
inductive Comparison where
  | equal
  | unequal
  | greater
  | less
  | atLeast
  | atMost
  deriving DecidableEq

/-- What is done to the letters of value and pattern before they are matched. -/
inductive Folding where
  | unchanged
  | lower
  | upper
  deriving DecidableEq

/-- A test of the value at a path. -/
inductive Test where
  | compare (reading : Reading) (comparison : Comparison) (operand : Scalar)
  | like (folding : Folding) (pattern : LooseText)
  | member (reading : Reading) (negated : Bool) (operands : List Scalar)
  | isNull (negated : Bool)

def Reading.read : Reading → Scalar → Scalar
  | asIs, v => v
  | integer, v => v.toInteger
  | real, v => v.toReal

/-- Whether an order of two scalars is one that the comparison asks for. -/
def Comparison.allows : Comparison → Ordering → Bool
  | equal, o => o = .eq
  | unequal, o => o ≠ .eq
  | greater, o => o = .gt
  | less, o => o = .lt
  | atLeast, o => o ≠ .lt
  | atMost, o => o ≠ .gt

def Folding.fold : Folding → String → String
  | unchanged, s => s
  | lower, s => Text.lowerAscii s
  | upper, s => Text.upperAscii s

namespace Test

/-- Whether a value is one of a list; unknown rather than false when the list holds a null. -/
def memberTruth (v : Scalar) (operands : List Scalar) : Truth :=
  Truth.disj (operands.map fun w => (v.compare? w).map Comparison.equal.allows)

def truth : Test → Scalar → Truth
  | compare reading comparison operand, v =>
    ((reading.read v).compare? operand.seen).map comparison.allows
  | like folding pattern, v =>
    v.patternText?.map fun s => Text.isLike (folding.fold pattern.replaced) (folding.fold s)
  | member reading negated operands, v =>
    (memberTruth (reading.read v) (operands.map Scalar.seen)).map (negated ^^ ·)
  | isNull negated, v => some (negated ^^ v = .null)

/-- The fault that a test runs into whatever the value is. -/
def fault? : Test → Option EvalFault
  | like _ pattern => if Text.Pattern.isTooLong pattern.replaced then some .patternTooLong else none
  | _ => none

/-- The values that are bound for a test after its path. -/
def operands : Test → List Scalar
  | compare _ _ operand => [operand]
  | like _ pattern => [.text pattern]
  | member _ _ operands => operands
  | isNull _ => []

end Test

end Condition

/-- Tests of the values at paths, combined by groups. -/
inductive Condition where
  | leaf (path : Path) (test : Condition.Test)
  | all (children : List Condition)
  | any (children : List Condition)
  deriving Inhabited

namespace Condition

def Comparison.sign : Comparison → String
  | equal => "="
  | unequal => "!="
  | greater => ">"
  | less => "<"
  | atLeast => ">="
  | atMost => "<="

/-- The text of the value at the bound path, as it is compared. -/
def Reading.predicate (rowName : String) : Reading → String
  | asIs => s!"json_extract({rowName}.properties, ?)"
  | integer => s!"CAST(json_extract({rowName}.properties, ?) AS INTEGER)"
  | real => s!"CAST(json_extract({rowName}.properties, ?) AS REAL)"

def Test.predicate (rowName : String) : Test → String
  | compare reading comparison _ => s!"{reading.predicate rowName} {comparison.sign} ?"
  | like .unchanged _ => s!"{Reading.asIs.predicate rowName} LIKE ?"
  | like .lower _ => s!"LOWER({Reading.asIs.predicate rowName}) LIKE LOWER(?)"
  | like .upper _ => s!"UPPER({Reading.asIs.predicate rowName}) LIKE UPPER(?)"
  | member reading negated operands =>
    let keyword := if negated then "NOT IN" else "IN"
    let marks := String.intercalate ", " (operands.map fun _ => "?")
    s!"{reading.predicate rowName} {keyword} ({marks})"
  | isNull negated =>
    let keyword := if negated then "IS NOT NULL" else "IS NULL"
    s!"{Reading.asIs.predicate rowName} {keyword}"

def joinClauses (connective : String) (clauses : List String) : String :=
  String.intercalate connective (clauses.map fun s => s!"({s})")

mutual

def predicate (rowName : String) : Condition → String
  | leaf _ test => test.predicate rowName
  | all children => joinClauses " AND " (predicates rowName children)
  | any children => joinClauses " OR " (predicates rowName children)

def predicates (rowName : String) : List Condition → List String
  | [] => []
  | c :: rest => predicate rowName c :: predicates rowName rest

end

theorem predicates_eq_map (rowName : String) (cs : List Condition) :
    predicates rowName cs = cs.map (predicate rowName) := by
  induction cs with
  | nil => rfl
  | cons c cs ih => simp [predicates, ih]

mutual

/-- The bound values of a condition, in the order of their question marks. -/
def parameters : Condition → List Scalar
  | leaf path test => .text path.canonical :: test.operands
  | all children => childParameters children
  | any children => childParameters children

def childParameters : List Condition → List Scalar
  | [] => []
  | c :: rest => parameters c ++ childParameters rest

end

theorem childParameters_eq_flatMap (cs : List Condition) :
    childParameters cs = cs.flatMap parameters := by
  induction cs with
  | nil => rfl
  | cons c cs ih => simp [childParameters, ih]

mutual

def truth (d : Json.Document) : Condition → Truth
  | leaf path test => test.truth (d.scalarAt path)
  | all children => Truth.conj (truths d children)
  | any children => Truth.disj (truths d children)

def truths (d : Json.Document) : List Condition → List Truth
  | [] => []
  | c :: rest => truth d c :: truths d rest

end

theorem truths_eq_map (d : Json.Document) (cs : List Condition) :
    truths d cs = cs.map (truth d) := by
  induction cs with
  | nil => rfl
  | cons c cs ih => simp [truths, ih]

def Test.holds (d : Option Json.Document) (path : Path) (test : Test) : Except EvalFault Bool :=
  match d, test.fault? with
  | none, _ => .error .malformedDocument
  | some _, some fault => .error fault
  | some d, none => .ok (test.truth (d.scalarAt path) = some true)

mutual

/-- Whether a condition is true of a document, which may be unreadable. A conjunction stops at the
first part that is not true, a disjunction at the first that is. -/
def holds (d : Option Json.Document) : Condition → Except EvalFault Bool
  | leaf path test => test.holds d path
  | all children => allHold d children
  | any children => anyHolds d children

def allHold (d : Option Json.Document) : List Condition → Except EvalFault Bool
  | [] => .ok true
  | c :: rest => do if ← holds d c then allHold d rest else return false

def anyHolds (d : Option Json.Document) : List Condition → Except EvalFault Bool
  | [] => .ok false
  | c :: rest => do if ← holds d c then return true else anyHolds d rest

end

end Condition

end VersionedGraph
