/-!
# Faults of statements

A statement is refused for its text, for a table or column that is not there, or for the values that
it gives. Each cause is a constructor, and `message` gives its words.
-/

namespace VersionedGraph

/-- The ways in which a statement is refused. -/
inductive StatementFault where
  /-- A text that holds a null character. -/
  | nullCharacter
  /-- A piece that is no token. -/
  | unknownToken (text : String)
  /-- A token where the statement cannot go on with it. -/
  | misplaced (text : String)
  /-- The end of the text where the statement cannot end. -/
  | incomplete
  /-- Another statement behind the first. -/
  | several
  | unknownTable (table : String)
  | readOnlyTable (table : String)
  | unknownColumn (table column : String)
  /-- A column where there is no row that could have it. -/
  | strayColumn (column : String)
  | unknownFunction (function : String)
  /-- Several values where one is needed. -/
  | strayRow
  /-- Rows of different lengths. -/
  | unevenRows
  /-- A row that has not one value for every column that is named. -/
  | rowLength (values columns : Nat)
  /-- A row that has not one value for every column of the table. -/
  | tableWidth (table : String) (columns values : Nat)
  /-- A parameter with a number that is too low or too high. -/
  | parameterNumber (greatest : Nat)
  /-- More or fewer values handed over than there are parameters. -/
  | parameterCount (parameters handed : Nat)
  deriving DecidableEq

namespace StatementFault

def message : StatementFault → String
  | nullCharacter => "the query contains a null character"
  | unknownToken text => s!"unrecognized token: \"{text}\""
  | misplaced text => s!"near \"{text}\": syntax error"
  | incomplete => "incomplete input"
  | several => "You can only execute one statement at a time."
  | unknownTable table => s!"no such table: {table}"
  | readOnlyTable table => s!"table {table} may not be modified"
  | unknownColumn table column => s!"table {table} has no column named {column}"
  | strayColumn column => s!"no such column: {column}"
  | unknownFunction function => s!"no such function: {function}"
  | strayRow => "row value misused"
  | unevenRows => "all VALUES must have the same number of terms"
  | rowLength values columns => s!"{values} values for {columns} columns"
  | tableWidth table columns values =>
    s!"table {table} has {columns} columns but {values} values were supplied"
  | parameterNumber greatest => s!"variable number must be between ?1 and ?{greatest}"
  | parameterCount parameters handed =>
    "Incorrect number of bindings supplied. " ++
      s!"The current statement uses {parameters}, and there are {handed} supplied."

def concernsUse : StatementFault → Bool
  | nullCharacter => true
  | several => true
  | parameterCount _ _ => true
  | _ => false

end StatementFault

end VersionedGraph
