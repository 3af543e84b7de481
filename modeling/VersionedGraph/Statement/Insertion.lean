import VersionedGraph.Statement.Operand

/-!
# Insertions

An insertion names a table, perhaps the columns that it gives, and the rows: the default row, lists
of values, or a single selection of values without any table behind it. Nothing may follow the rows
but a semicolon.

`Insertion.read` reads the text of an insertion. The fault of a text that is none is the first token
with which no insertion of this form could go on.
-/

namespace VersionedGraph

namespace Statement

/-- Up to a number of names with commas between them, and what follows them. -/
def readNames : (count : Nat) → List Token → Except StatementFault (List String × List Token)
  | 0, tokens => .ok ([], tokens)
  | count + 1, tokens => do
    let (name, rest) ← readName tokens
    if beginsWith "," rest then do
      let (names, rest) ← readNames count (rest.drop 1)
      return (name :: names, rest)
    else return ([name], rest)

/-- Up to a number of rows in brackets with commas between them, and what follows them. -/
def readRows : (count : Nat) → List Token → Except StatementFault (List (List Operand) × List Token)
  | 0, tokens => .ok ([], tokens)
  | count + 1, tokens => do
    let (row, rest) ← readRow tokens
    if beginsWith "," rest then do
      let (rows, rest) ← readRows count (rest.drop 1)
      return (row :: rows, rest)
    else return ([row], rest)

/-- An insertion: its table, the columns it names, and its rows, of which there are none if it adds
the default row. -/
structure Insertion where
  target : Target
  columns : Option (List String)
  rows : List (List Slot)
  /-- The highest number of a parameter. -/
  parameters : Nat
  /-- Whether another statement follows. -/
  isFollowed : Bool

namespace Insertion

/-- The columns that come first, if columns are named, and what follows them. -/
def readColumns (tokens : List Token) :
    Except StatementFault (Option (List String) × List Token) :=
  if beginsWith "(" tokens then do
    let (columns, rest) ← readNames tokens.length (tokens.drop 1)
    return (some columns, ← readSign ")" rest)
  else .ok (none, tokens)

/-- The fault of a source that begins with a named selection, which is read no further than its
name. -/
def readNamedSelection (tokens : List Token) : StatementFault :=
  let tokens := if beginsWithWord "RECURSIVE" tokens then tokens.drop 1 else tokens
  let named : Except StatementFault (List Token) := do
    let (_, rest) ← readName tokens
    let (_, rest) ← readColumns rest
    return if beginsWithWord "AS" rest then rest.drop 1 else rest
  match named with
  | .ok rest => outOfPlace rest
  | .error fault => fault

def readSource : List Token → Except StatementFault (List (List Operand) × List Token)
  | [] => .error .incomplete
  | t :: rest =>
    if t.isWord "VALUES" then readRows (rest.length + 1) rest
    else if t.isWord "SELECT" then do
      let (row, rest) ← readOperands (depthBound rest) rest
      return ([row], rest)
    else if t.isWord "WITH" then .error (readNamedSelection rest)
    else if t.isWord "DEFAULT" then
      if beginsWithWord "VALUES" rest then .ok ([], rest.drop 1)
      else .error (outOfPlace rest)
    else .error (outOfPlace (t :: rest))

/-- The insertion that tokens make up, behind its first two words. -/
def ofTokens (tokens : List Token) : Except StatementFault Insertion := do
  let (target, rest) ← Target.read tokens
  let (columns, rest) ← readColumns rest
  let (operands, rest) ← readSource rest
  let (rows, numbering) ← rowSlots {} operands
  let others ← if rest.isEmpty then pure [] else readSign ";" rest
  return ⟨target, columns, rows, numbering.highest, !others.isEmpty⟩

/-- The insertion that a text gives, behind its first two words and as it goes on from the blank
that ends them. -/
def read (text : String) : Except StatementFault Insertion :=
  ofTokens (scan text.toList)

end Insertion

end Statement

end VersionedGraph
