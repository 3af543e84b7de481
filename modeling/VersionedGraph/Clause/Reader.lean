import VersionedGraph.Clause.Basic
import VersionedGraph.Filter.Compile
import VersionedGraph.Statement.Token
import VersionedGraph.Store.Version

/-!
# Reading clauses

The text of a clause is cut into tokens like that of any statement. Among the comparisons that the
tokens make up a conjunction binds more tightly than a disjunction, and parentheses bind most
tightly of all. Every question mark takes the next of the bound values, and none may be left over.

Only clauses of the forms that conditions are written in are read, on rows of one name.
-/

namespace VersionedGraph

namespace Clause

inductive Keyword where
  | and
  | or
  | not
  | within
  | is
  | null
  | like
  | cast
  | as
  deriving DecidableEq

namespace Keyword

def all : List Keyword :=
  [and, or, not, within, is, null, like, cast, as]

def text : Keyword → String
  | and => "AND"
  | or => "OR"
  | not => "NOT"
  | within => "IN"
  | is => "IS"
  | null => "NULL"
  | like => "LIKE"
  | cast => "CAST"
  | as => "AS"

end Keyword

/-- What a token means in a clause. -/
inductive Lexeme where
  | mark
  | opening
  | closing
  | comma
  | dot
  | comparison (comparison : Condition.Comparison)
  | number (value : Scalar)
  | keyword (word : Keyword)
  | name (text : String)
  | other
  deriving DecidableEq

namespace Lexeme

def ofSign (text : String) : Lexeme :=
  let signs := [("(", opening), (")", closing), (",", comma), (".", dot),
    ("=", comparison .equal), ("==", comparison .equal), ("!=", comparison .unequal),
    ("<>", comparison .unequal), (">", comparison .greater), ("<", comparison .less),
    (">=", comparison .atLeast), ("<=", comparison .atMost)]
  (signs.lookup text).getD other

def ofToken (t : Statement.Token) : Lexeme :=
  match t.kind with
  | .parameter => if t.text = "?" then mark else other
  | .sign => ofSign t.text
  | .number => number (Scalar.ofLexeme t.text.toList)
  | .word =>
    match Keyword.all.find? fun word => t.isWord word.text with
    | some word => keyword word
    | none => name t.text
  | _ => other

end Lexeme

def lex (cs : List Char) : List Lexeme :=
  (Statement.scan cs).map Lexeme.ofToken

/-- What is left to be read, and the values for its question marks. -/
structure Source where
  lexemes : List Lexeme
  values : List Scalar

/-- Takes what it reads from the front of the source. -/
abbrev Reader (α : Type) := Source → Option (α × Source)

/-- The steps of a path behind its root sign: names after dots, positions in brackets. -/
def readSteps : List Char → Option Path
  | [] => some []
  | '.' :: rest =>
    let isPlain (c : Char) : Bool := c ≠ '.' && c ≠ '['
    let name := rest.takeWhile isPlain
    if name.isEmpty then none
    else (readSteps (rest.dropWhile isPlain)).map (.property (String.ofList name) :: ·)
  | '[' :: rest =>
    let digits := rest.takeWhile Text.isDigit
    if digits.isEmpty || (rest.dropWhile Text.isDigit).head? ≠ some ']' then none
    else
      (readSteps ((rest.dropWhile Text.isDigit).drop 1)).map (.index (Text.decimal digits) :: ·)
  | _ => none
termination_by cs => cs.length
decreasing_by
  · exact Nat.lt_succ_of_le (List.dropWhile_suffix _).length_le
  · have hdigits := (List.dropWhile_suffix (l := rest) Text.isDigit).length_le
    rw [List.length_drop, List.length_cons]
    omega

/-- The path that a bound value is. -/
def readPath : Scalar → Option Path
  | .text s =>
    match s.replaced.toList with
    | '$' :: rest => readSteps rest
    | _ => none
  | _ => none

def castReading? (type : String) : Option Condition.Reading :=
  [("INTEGER", .integer), ("REAL", .real)].lookup (Text.upperAscii type)

def folding? (function : String) : Option Condition.Folding :=
  [("LOWER", .lower), ("UPPER", .upper)].lookup (Text.upperAscii function)

theorem castReading?_integer : castReading? "INTEGER" = some .integer := by
  rw [castReading?, Text.upperAscii_eq (t := "INTEGER") rfl]
  rfl

theorem castReading?_real : castReading? "REAL" = some .real := by
  rw [castReading?, Text.upperAscii_eq (t := "REAL") rfl]
  rfl

theorem folding?_lower : folding? "LOWER" = some .lower := by
  rw [folding?, Text.upperAscii_eq (t := "LOWER") rfl]
  rfl

theorem folding?_upper : folding? "UPPER" = some .upper := by
  rw [folding?, Text.upperAscii_eq (t := "UPPER") rfl]
  rfl

/-- What stands between the parentheses of an extraction: the properties of the row and a mark for
the path. -/
def readExtract (rowName : String) : Reader Operand
  | ⟨.name row :: .dot :: .name column :: .comma :: .mark :: .closing :: rest, v :: values⟩ =>
    if row = rowName && column = "properties" then
      (readPath v).map fun path => (.extract path, ⟨rest, values⟩)
    else none
  | _ => none

def readOperand (rowName : String) : List Lexeme → List Scalar → Option (Operand × Source)
  | .mark :: rest, v :: values => some (.scalar v, ⟨rest, values⟩)
  | .number v :: rest, values => some (.scalar v, ⟨rest, values⟩)
  | .keyword .cast :: .opening :: rest, values =>
    match readOperand rowName rest values with
    | some (operand, ⟨.keyword .as :: .name type :: .closing :: rest, values⟩) =>
      (castReading? type).map fun reading => (.cast reading operand, ⟨rest, values⟩)
    | _ => none
  | .name function :: .opening :: rest, values =>
    if Text.lowerAscii function = "json_extract" then readExtract rowName ⟨rest, values⟩
    else
      match folding? function, readOperand rowName rest values with
      | some folding, some (operand, ⟨.closing :: rest, values⟩) =>
        some (.fold folding operand, ⟨rest, values⟩)
      | _, _ => none
  | .name row :: .dot :: .name column :: rest, values =>
    if row = rowName && column = "is_latest" then some (.isLatest, ⟨rest, values⟩) else none
  | _, _ => none

/-- Bound values with commas between them, up to the parenthesis behind them. -/
def readItems : List Lexeme → List Scalar → Option (List Operand × Source)
  | .mark :: .comma :: rest, v :: values =>
    (readItems rest values).map fun (items, source) => (.scalar v :: items, source)
  | .mark :: .closing :: rest, v :: values => some ([.scalar v], ⟨rest, values⟩)
  | _, _ => none

/-- A comparison, given the operand that it begins with. -/
def readComparison (rowName : String) (operand : Operand) : Reader Clause
  | ⟨.comparison comparison :: rest, values⟩ =>
    (readOperand rowName rest values).map fun (right, source) =>
      (.compare comparison operand right, source)
  | ⟨.keyword .like :: rest, values⟩ =>
    (readOperand rowName rest values).map fun (pattern, source) => (.like operand pattern, source)
  | ⟨.keyword .within :: .opening :: rest, values⟩ =>
    (readItems rest values).map fun (items, source) => (.member false operand items, source)
  | ⟨.keyword .not :: .keyword .within :: .opening :: rest, values⟩ =>
    (readItems rest values).map fun (items, source) => (.member true operand items, source)
  | ⟨.keyword .is :: .keyword .null :: rest, values⟩ =>
    some (.isNull false operand, ⟨rest, values⟩)
  | ⟨.keyword .is :: .keyword .not :: .keyword .null :: rest, values⟩ =>
    some (.isNull true operand, ⟨rest, values⟩)
  | _ => none

/-- Up to a number of parts with a connective between them. -/
def readParts (connective : Keyword) (read : Reader Clause) : (count : Nat) → Reader (List Clause)
  | 0, _ => none
  | count + 1, source => do
    let (part, source) ← read source
    if source.lexemes.head? = some (.keyword connective) then do
      let (parts, source) ←
        readParts connective read count ⟨source.lexemes.drop 1, source.values⟩
      return (part :: parts, source)
    else return ([part], source)

def readJoined (connective : Keyword) (join : List Clause → Clause) (count : Nat)
    (read : Reader Clause) : Reader Clause := fun source => do
  let (parts, source) ← readParts connective read count source
  return (gather join parts, source)

/-- A comparison, or what is read between parentheses. -/
def readSingle (rowName : String) (inner : Reader Clause) : Reader Clause := fun source =>
  match source.lexemes with
  | .opening :: rest => do
    let (clause, source) ← inner ⟨rest, source.values⟩
    if source.lexemes.head? = some .closing then
      return (clause, ⟨source.lexemes.drop 1, source.values⟩)
    else none
  | lexemes => do
    let (operand, source) ← readOperand rowName lexemes source.values
    readComparison rowName operand source

/-- A clause in which no more than a number of parts stand behind one another and parentheses are
nested up to a depth. -/
def readClause (rowName : String) (count : Nat) : (depth : Nat) → Reader Clause
  | 0 => fun _ => none
  | depth + 1 =>
    readJoined .or .any count <| readJoined .and .all count <|
      readSingle rowName (readClause rowName count depth)

/-- The clause that a text is, on rows of a name, with values for its question marks. -/
def read (rowName text : String) (values : List Scalar) : Option Clause :=
  let size := text.toList.length + 1
  match readClause rowName size size ⟨lex text.toList, values⟩ with
  | some (clause, ⟨[], []⟩) => some clause
  | _ => none

end Clause

/-- The text of the condition that a query for latest rows puts filters into: the mark of a latest
version, and every filter that constrains in parentheses. -/
def latestClause (k : Kind) (filters : List CompiledFilter) : String :=
  s!"{k.rowName}.is_latest = 1" ++
    String.join ((filters.filter (!·.isEmpty)).map fun c => s!" AND ({c.predicate})")

end VersionedGraph
