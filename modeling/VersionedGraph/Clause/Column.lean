import VersionedGraph.Clause.Reader

/-!
# Clauses about one column

A clause may speak of a single column of a row instead of its properties. Its text is cut and joined
like any other (`Clause.Reader`). Wherever the name of the column stands there, the clause has the
value that is in the column.
-/

namespace VersionedGraph

namespace Clause

/-- The value of a column whose name is cut into some lexemes. -/
def readColumn (column : List Lexeme) (value : Scalar) : Reader Operand := fun source =>
  if column.isPrefixOf source.lexemes then
    some (.scalar value, ⟨source.lexemes.drop column.length, source.values⟩)
  else none

/-- A comparison of the column, or what is read between parentheses. -/
def readColumnSingle (column : List Lexeme) (value : Scalar) (inner : Reader Clause) :
    Reader Clause := fun source =>
  match source.lexemes with
  | .opening :: rest => do
    let (clause, source) ← inner ⟨rest, source.values⟩
    if source.lexemes.head? = some .closing then
      return (clause, ⟨source.lexemes.drop 1, source.values⟩)
    else none
  | lexemes => do
    let (operand, source) ← readColumn column value ⟨lexemes, source.values⟩
    readComparison "" operand source

/-- A clause about the column with no more than a number of parts behind one another, in which
parentheses are nested up to a depth. -/
def readColumnClause (column : List Lexeme) (value : Scalar) (count : Nat) :
    (depth : Nat) → Reader Clause
  | 0 => fun _ => none
  | depth + 1 =>
    readJoined .or .any count <| readJoined .and .all count <|
      readColumnSingle column value (readColumnClause column value count depth)

/-- The clause that a text is for a row with a value in a column, given the values for its question
marks. -/
def readOnColumn (column : String) (value : Scalar) (text : String) (values : List Scalar) :
    Option Clause :=
  let size := text.toList.length + 1
  match readColumnClause (lex column.toList) value size size ⟨lex text.toList, values⟩ with
  | some (clause, ⟨[], []⟩) => some clause
  | _ => none

end Clause

end VersionedGraph
