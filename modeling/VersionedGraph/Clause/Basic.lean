import VersionedGraph.Filter.Condition

/-!
# Clauses

A clause is what a query makes of the text of a condition once it has read it: comparisons of
operands, joined by conjunction and disjunction in three-valued logic. An operand is a value, the
mark of a latest version, or what a path leads to in the properties, perhaps cast to a number or
brought into one case of letters.

The values bound to the question marks of the text stand in the clause where the marks stood.
-/

namespace VersionedGraph

namespace Clause

/-- What comparisons are made between. -/
inductive Operand where
  /-- A bound value or a number of the text itself. -/
  | scalar (value : Scalar)
  | isLatest
  | extract (path : Path)
  | cast (reading : Condition.Reading) (operand : Operand)
  | fold (folding : Condition.Folding) (operand : Operand)

/-- What clauses see of a row: its mark and its properties. -/
structure Row where
  isLatest : Bool
  document : Json.Document

def Operand.value (row : Row) : Operand → Scalar
  | scalar value => value.seen
  | isLatest => .integer (if row.isLatest then 1 else 0)
  | extract path => row.document.scalarAt path
  | cast reading operand => reading.read (operand.value row)
  | fold folding operand =>
    match (operand.value row).patternText? with
    | some s => .text (folding.fold s)
    | none => .null

end Clause

/-- The condition of a query as it is read from its text. -/
inductive Clause where
  | compare (comparison : Condition.Comparison) (left right : Clause.Operand)
  | like (operand pattern : Clause.Operand)
  | member (negated : Bool) (operand : Clause.Operand) (items : List Clause.Operand)
  | isNull (negated : Bool) (operand : Clause.Operand)
  | all (parts : List Clause)
  | any (parts : List Clause)

namespace Clause

mutual

def truth (row : Row) : Clause → Truth
  | compare comparison left right =>
    ((left.value row).compare? (right.value row)).map comparison.allows
  | like operand pattern =>
    match (operand.value row).patternText?, (pattern.value row).patternText? with
    | some s, some p => some (Text.isLike p s)
    | _, _ => none
  | member negated operand items =>
    (Condition.Test.memberTruth (operand.value row) (items.map (Operand.value row))).map
      (negated ^^ ·)
  | isNull negated operand => some (negated ^^ operand.value row = .null)
  | all parts => Truth.conj (truths row parts)
  | any parts => Truth.disj (truths row parts)

def truths (row : Row) : List Clause → List Truth
  | [] => []
  | c :: rest => truth row c :: truths row rest

end

theorem truths_eq_map (row : Row) (cs : List Clause) : truths row cs = cs.map (truth row) := by
  induction cs with
  | nil => rfl
  | cons c cs ih => simp [truths, ih]

/-- The clause of some parts that stand behind one another: a single part is the clause itself. -/
def gather (join : List Clause → Clause) : List Clause → Clause
  | [c] => c
  | cs => join cs

theorem gather_cons_cons (join : List Clause → Clause) (c d : Clause) (cs : List Clause) :
    gather join (c :: d :: cs) = join (c :: d :: cs) := rfl

end Clause

end VersionedGraph
