import VersionedGraph.Scalar
import VersionedGraph.Statement.Target

/-!
# Operands

In the place of a value stands a literal or a parameter. Columns, calls of functions and rows can be
read there as well, but a statement that adds rows has nothing that they could be taken from.

Parameters stand for values that are handed over. They are numbered in the order in which they are
met, unless they bring a number of their own, and two of one name are the same parameter.
-/

namespace VersionedGraph

namespace Statement

/-- What stands in the place of a value. -/
inductive Operand where
  | literal (value : Json)
  | parameter (text : String)
  | column (name : String)
  | call (function : String) (arguments : List Operand)
  /-- Several in brackets. -/
  | row (items : List Operand)

/-- The operand that a single token is: a literal or a parameter. Texts may also stand between
double quotes, where there is no column that could be meant. -/
def Token.operand? (t : Token) : Option Operand :=
  match t.kind with
  | .number => some (.literal (Scalar.ofLexeme t.text.toList).toJson)
  | .quotedText => some (.literal (.str t.unquoted))
  | .quotedName => if t.text.startsWith "\"" then some (.literal (.str t.unquoted)) else none
  | .parameter => some (.parameter t.text)
  | .word =>
    if t.isWord "NULL" then some (.literal .null)
    else if t.isWord "TRUE" then some (.literal (.int 1))
    else if t.isWord "FALSE" then some (.literal (.int 0))
    else none
  | _ => none

mutual

/-- The operand that comes first, and what follows it. Brackets are looked into up to a depth. -/
def readOperand : (depth : Nat) → List Token → Except StatementFault (Operand × List Token)
  | 0, tokens => .error (outOfPlace tokens)
  | _, [] => .error .incomplete
  | depth + 1, t :: rest =>
    match t.operand?, t.name? with
    | some operand, _ => .ok (operand, rest)
    | none, some name =>
      if !beginsWith "(" rest then .ok (.column name, rest)
      else if beginsWith ")" (rest.drop 1) then .ok (.call name [], rest.drop 2)
      else do
        let (arguments, rest) ← readOperands depth (rest.drop 1)
        return (.call name arguments, ← readSign ")" rest)
    | none, none =>
      if t.isSign "(" then do
        let (operands, rest) ← readOperands depth rest
        let rest ← readSign ")" rest
        match operands with
        | [operand] => return (operand, rest)
        | _ => return (.row operands, rest)
      else .error (outOfPlace (t :: rest))

/-- The operands that come first with commas between them, and what follows them. -/
def readOperands : (depth : Nat) → List Token → Except StatementFault (List Operand × List Token)
  | 0, tokens => .error (outOfPlace tokens)
  | depth + 1, tokens => do
    let (operand, rest) ← readOperand depth tokens
    if beginsWith "," rest then do
      let (operands, rest) ← readOperands depth (rest.drop 1)
      return (operand :: operands, rest)
    else return ([operand], rest)

end

/-- A depth that brackets among some tokens cannot exceed: every comma and every opening bracket
takes two steps at most. -/
def depthBound (tokens : List Token) : Nat :=
  2 * tokens.length + 2

def readRow (tokens : List Token) : Except StatementFault (List Operand × List Token) := do
  let (operands, rest) ← readOperands (depthBound tokens) (← readSign "(" tokens)
  return (operands, ← readSign ")" rest)

/-- Parameters that have been met: the highest number, and the numbers of those with a name. -/
structure Numbering where
  highest : Nat := 0
  named : List (String × Nat) := []

namespace Numbering

def greatest : Nat := 250000

/-- The number of a parameter. One without a name gets the next number, one with a number has that,
and one with a name keeps the number that it got where it was first met. -/
def number (n : Numbering) (text : String) : Except StatementFault (Nat × Numbering) :=
  match text.toList with
  | ['?'] => .ok (n.highest + 1, { n with highest := n.highest + 1 })
  | '?' :: digits =>
    let k := Text.decimal digits
    if k = 0 || greatest < k then .error (.parameterNumber greatest)
    else .ok (k, { n with highest := max n.highest k })
  | _ =>
    match n.named.lookup text with
    | some k => .ok (k, n)
    | none => .ok (n.highest + 1, ⟨n.highest + 1, (text, n.highest + 1) :: n.named⟩)

end Numbering

/-- What a column is given: a value of the statement, one that is handed over, or nothing, for a
reason. -/
inductive Slot where
  | own (value : Json)
  | handed (number : Nat)
  | stray (fault : StatementFault)

def Slot.fault? : Slot → Option StatementFault
  | stray fault => some fault
  | _ => none

mutual

/-- What a column is given by an operand, and the parameters met up to its end. A row has no columns
to take a value from, no functions are known, and only a single value can be given. What is inside
is at fault before what is around it. -/
def Operand.slot (n : Numbering) : Operand → Except StatementFault (Slot × Numbering)
  | .literal value => .ok (.own value, n)
  | .parameter text => do
    let (k, n) ← n.number text
    return (.handed k, n)
  | .column name => .ok (.stray (.strayColumn name), n)
  | .call function arguments => do
    let (inner, n) ← slots n arguments
    return (.stray ((inner.findSome? Slot.fault?).getD (.unknownFunction function)), n)
  | .row items => do
    let (inner, n) ← slots n items
    return (.stray ((inner.findSome? Slot.fault?).getD .strayRow), n)

/-- What columns are given by operands, and the parameters met up to the last. -/
def slots (n : Numbering) : List Operand → Except StatementFault (List Slot × Numbering)
  | [] => .ok ([], n)
  | operand :: rest => do
    let (first, n) ← operand.slot n
    let (others, n) ← slots n rest
    return (first :: others, n)

end

/-- What the columns of several rows are given, and the parameters met up to the last. -/
def rowSlots (n : Numbering) :
    List (List Operand) → Except StatementFault (List (List Slot) × Numbering)
  | [] => .ok ([], n)
  | row :: rest => do
    let (first, n) ← slots n row
    let (others, n) ← rowSlots n rest
    return (first :: others, n)

end Statement

end VersionedGraph
