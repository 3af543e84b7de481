import VersionedGraph.Text.Blank
import VersionedGraph.Text.Hex
import VersionedGraph.Text.Pattern
import VersionedGraph.Text.Quoted

/-!
# Tokens of a statement

The text of a statement is cut into tokens. Blanks and comments stand between tokens and mean
nothing; a comment goes from two dashes to the end of the line, or from a slash with a star to a
star with a slash or to the end of the text. A name is a bare word that is not reserved, or stands
between double quotes, back quotes or square brackets. A text stands between single quotes, and may
be used as a name. A quote that belongs to what is quoted is written twice.

`scan` cuts from left to right, taking the longest token each time, and stops at the first piece
that is no token. That piece stays in the list: it is a fault only if the statement is read so far.
-/

namespace VersionedGraph

namespace Statement

/-- The sorts of token. -/
inductive TokenKind where
  /-- A blank or a comment. -/
  | gap
  | word
  | quotedName
  | quotedText
  | number
  /-- A number or a string of bytes that is given by hexadecimal digits. -/
  | hexadecimal
  | parameter
  | sign
  /-- A piece that is no token. -/
  | unknown
  deriving DecidableEq

/-- A token with its text as it is written. -/
structure Token where
  kind : TokenKind
  text : String
  deriving DecidableEq

def signs : List String :=
  ["->>", "->", "||", "==", "<=", "<>", "<<", ">=", ">>", "!=", "(", ")", ";", "+", "-", "*", "/",
    "%", "=", "<", ">", "|", ",", "&", "~", "."]

def reservedWords : List String :=
  ["ADD", "ALL", "ALTER", "AND", "AS", "AUTOINCREMENT", "BETWEEN", "CASE", "CHECK", "COLLATE",
    "COMMIT", "CONSTRAINT", "CREATE", "DEFAULT", "DEFERRABLE", "DELETE", "DISTINCT", "DROP", "ELSE",
    "ESCAPE", "EXCEPT", "EXISTS", "FOREIGN", "FROM", "GROUP", "HAVING", "IN", "INDEX", "INSERT",
    "INTERSECT", "INTO", "IS", "ISNULL", "JOIN", "LIMIT", "NOT", "NOTHING", "NOTNULL", "NULL", "ON",
    "OR", "ORDER", "PRIMARY", "REFERENCES", "RETURNING", "SELECT", "SET", "TABLE", "THEN", "TO",
    "TRANSACTION", "UNION", "UNIQUE", "UPDATE", "USING", "VALUES", "WHEN", "WHERE"]

/-- The characters that are blanks where a token could begin. The last is the mark of byte order. -/
def isGapStart (c : Char) : Bool :=
  c = ' ' || c = '\t' || c = '\n' || c = '\x0c' || c = '\r' || c = '\ufeff'

def isNameQuote (c : Char) : Bool :=
  c.toNat = 0x22 || c.toNat = 0x60

def isWordStart (c : Char) : Bool :=
  c.isAlpha || c = '_' || 0x80 ≤ c.toNat

def isWordChar (c : Char) : Bool :=
  isWordStart c || c.isDigit || c = '$'

/-- The number of characters at the start of a list that have a property. -/
def runLength (p : Char → Bool) (cs : List Char) : Nat :=
  (cs.takeWhile p).length

def commentLength : List Char → Nat
  | [] => 0
  | [_] => 1
  | '*' :: '/' :: _ => 2
  | _ :: rest => commentLength rest + 1

def quotedLength? (q : Char) : List Char → Option Nat
  | [] => none
  | [c] => if c = q then some 1 else none
  | c :: d :: rest =>
    if c ≠ q then (quotedLength? q (d :: rest)).map (· + 1)
    else if d = q then (quotedLength? q rest).map (· + 2)
    else some 1

def exponentLength : List Char → Nat
  | [] => 0
  | e :: rest =>
    let signLength := if rest.head?.any fun c => c = '+' || c = '-' then 1 else 0
    let digits := runLength Char.isDigit (rest.drop signLength)
    if (e = 'e' || e = 'E') && 0 < digits then 1 + signLength + digits else 0

def decimalLength (cs : List Char) : Nat :=
  let whole := runLength Char.isDigit cs
  let fraction :=
    if (cs.drop whole).head? = some '.' then 1 + runLength Char.isDigit (cs.drop (whole + 1)) else 0
  whole + fraction + exponentLength (cs.drop (whole + fraction))

/-- The sort and length of what begins with a digit, or with a point before one. A decimal number
is no token when a word begins right behind it. -/
def numberToken (cs : List Char) : TokenKind × Nat :=
  let digits := runLength (fun c => (Text.hexValue? c).isSome) (cs.drop 2)
  if cs.head? = some '0' && ((cs.drop 1).head?.any fun c => c = 'x' || c = 'X') && 0 < digits then
    (.hexadecimal, 2 + digits)
  else
    let length := decimalLength cs
    let tail := runLength isWordChar (cs.drop length)
    (if tail = 0 then .number else .unknown, length + tail)

/-- The sort and length of what follows the letter and the quote of a string of bytes, which has
two digits for every byte. -/
def bytesToken (cs : List Char) : TokenKind × Nat :=
  let inner := runLength (· ≠ Text.apostrophe) cs
  let digits := runLength (fun c => (Text.hexValue? c).isSome) cs
  if inner = cs.length then (.unknown, inner)
  else (if inner = digits && digits % 2 = 0 then .hexadecimal else .unknown, inner + 1)

/-- The sort and length of what follows the first sign of a named parameter. A name may have pairs
of colons in it, and behind it a part in brackets without blanks. -/
def parameterToken : (named : Bool) → List Char → TokenKind × Nat
  | named, [] => (if named then .parameter else .unknown, 0)
  | named, ':' :: ':' :: rest =>
    let (kind, length) := parameterToken named rest
    (kind, length + 2)
  | named, c :: rest =>
    if isWordChar c then
      let (kind, length) := parameterToken true rest
      (kind, length + 1)
    else if c = '(' && named then
      let inner := runLength (fun d => !Text.isAsciiBlank d && d ≠ ')') rest
      if (rest.drop inner).head? = some ')' then (.parameter, inner + 2) else (.unknown, inner + 1)
    else (if named then .parameter else .unknown, 0)

/-- The sort of what begins with a character, and how many of the characters behind it belong to
it. -/
def firstToken (c : Char) (rest : List Char) : TokenKind × Nat :=
  if c = '\ufeff' then (.gap, 0)
  else if isGapStart c then (.gap, runLength Text.isAsciiBlank rest)
  else if c = '-' && rest.head? = some '-' then (.gap, runLength (· ≠ '\n') rest)
  else if c = '/' && rest.head? = some '*' && 1 < rest.length then
    (.gap, 1 + commentLength (rest.drop 1))
  else if c = Text.apostrophe || isNameQuote c then
    match quotedLength? c rest with
    | some length => (if isNameQuote c then .quotedName else .quotedText, length)
    | none => (.unknown, rest.length)
  else if c = '[' then
    let inner := runLength (· ≠ ']') rest
    if inner < rest.length then (.quotedName, inner + 1) else (.unknown, inner)
  else if c.isDigit || (c = '.' && rest.head?.any Char.isDigit) then
    let (kind, length) := numberToken (c :: rest)
    (kind, length - 1)
  else if c = '?' then (.parameter, runLength Char.isDigit rest)
  else if c = '$' || c = '@' || c = '#' || c = ':' then parameterToken false rest
  else if (c = 'x' || c = 'X') && rest.head? = some Text.apostrophe then
    let (kind, length) := bytesToken (rest.drop 1)
    (kind, length + 1)
  else if isWordStart c then (.word, runLength isWordChar rest)
  else
    match signs.find? fun s => s.toList.isPrefixOf (c :: rest) with
    | some s => (.sign, s.length - 1)
    | none => (.unknown, 0)

/-- The tokens of a text, up to the first piece that is none. -/
def scan : List Char → List Token
  | [] => []
  | c :: rest =>
    let (kind, length) := firstToken c rest
    match kind with
    | .gap => scan (rest.drop length)
    | .unknown => [⟨.unknown, String.ofList (c :: rest.take length)⟩]
    | kind => ⟨kind, String.ofList (c :: rest.take length)⟩ :: scan (rest.drop length)
termination_by cs => cs.length
decreasing_by all_goals (simp only [List.length_drop, List.length_cons]; omega)

namespace Token

def isSign (t : Token) (sign : String) : Bool :=
  t.kind = .sign && t.text = sign

def isWord (t : Token) (word : String) : Bool :=
  t.kind = .word && Text.upperAscii t.text = word

def undoubled (q : Char) : List Char → List Char
  | c :: d :: rest =>
    if c = q && d = q then q :: undoubled q rest else c :: undoubled q (d :: rest)
  | cs => cs

/-- What stands between the quotes of a token. Nothing can be doubled between square brackets. -/
def unquoted (t : Token) : String :=
  match t.text.toList with
  | [] => ""
  | '[' :: rest => String.ofList rest.dropLast
  | q :: rest => String.ofList (undoubled q rest.dropLast)

def name? (t : Token) : Option String :=
  match t.kind with
  | .word => if reservedWords.any t.isWord then none else some t.text
  | .quotedName => some t.unquoted
  | .quotedText => some t.unquoted
  | _ => none

end Token

end Statement

end VersionedGraph
