import VersionedGraph.Json.Basic
import VersionedGraph.Number.Decimal
import VersionedGraph.Text.Hex

/-!
# Writing JSON text

Every character outside printable ASCII is escaped, one beyond the basic plane as a surrogate pair,
so that written documents are plain ASCII. Two layouts exist: one line with chosen separators, which
is how documents are stored, and an indented one for people. Doubles that are no numbers are written
as words, although readers of strict documents refuse them.
-/

namespace VersionedGraph

namespace Json

/-- What stands between the items of a list and between a name and its value. -/
structure Separators where
  item : List Char
  name : List Char

def spaced : Separators := ⟨[',', ' '], [':', ' ']⟩

def tight : Separators := ⟨[','], [':']⟩

def unitEscape (n : Nat) : List Char :=
  '\\' :: 'u' :: Text.hex 4 n

def escapeChar (c : Char) : List Char :=
  if c = '"' then ['\\', '"']
  else if c = '\\' then ['\\', '\\']
  else if c = '\n' then ['\\', 'n']
  else if c = '\r' then ['\\', 'r']
  else if c = '\t' then ['\\', 't']
  else if c = '\x0c' then ['\\', 'f']
  else if c = '\x08' then ['\\', 'b']
  else if ' ' ≤ c && c ≤ '~' then [c]
  else if c.toNat < 0x10000 then unitEscape c.toNat
  else
    unitEscape (0xD800 + (c.toNat - 0x10000) / 0x400) ++
      unitEscape (0xDC00 + (c.toNat - 0x10000) % 0x400)

def escapePoint : CodePoint → List Char
  | .char c => escapeChar c
  | .half offset => unitEscape (0xD800 + offset)

def quote (s : LooseText) : List Char :=
  '"' :: s.points.flatMap escapePoint ++ ['"']

def intText (n : Int) : List Char :=
  if n < 0 then '-' :: Nat.toDigits 10 n.natAbs else Nat.toDigits 10 n.natAbs

/-- The numeral of a double, or the word for what has none. -/
def floatText (x : Binary64) : List Char :=
  (x.shortestText "Infinity" "NaN").toList

def atomText : Json → List Char
  | .null => "null".toList
  | .bool true => "true".toList
  | .bool false => "false".toList
  | .int n => intText n
  | .float x => floatText x
  | .str s => quote s
  | .arr _ => []
  | .obj _ => []

mutual

def write (sep : Separators) : Json → List Char
  | .arr items => '[' :: writeItems sep items ++ [']']
  | .obj fields => '{' :: writeFields sep fields ++ ['}']
  | .null => atomText .null
  | .bool b => atomText (.bool b)
  | .int n => atomText (.int n)
  | .float x => atomText (.float x)
  | .str s => atomText (.str s)

def writeItems (sep : Separators) : List Json → List Char
  | [] => []
  | [v] => write sep v
  | v :: w :: rest => write sep v ++ sep.item ++ writeItems sep (w :: rest)

def writeFields (sep : Separators) : List (LooseText × Json) → List Char
  | [] => []
  | [(name, v)] => quote name ++ sep.name ++ write sep v
  | (name, v) :: f :: rest =>
    quote name ++ sep.name ++ write sep v ++ sep.item ++ writeFields sep (f :: rest)

end

def newLine (level : Nat) : List Char :=
  '\n' :: List.replicate (2 * level) ' '

mutual

/-- The indented text of a value that begins at a given level. -/
def writeIndented (level : Nat) : Json → List Char
  | .arr [] => ['[', ']']
  | .arr (v :: rest) =>
    '[' :: writeIndentedItems (level + 1) (v :: rest) ++ newLine level ++ [']']
  | .obj [] => ['{', '}']
  | .obj (f :: rest) =>
    '{' :: writeIndentedFields (level + 1) (f :: rest) ++ newLine level ++ ['}']
  | .null => atomText .null
  | .bool b => atomText (.bool b)
  | .int n => atomText (.int n)
  | .float x => atomText (.float x)
  | .str s => atomText (.str s)

def writeIndentedItems (level : Nat) : List Json → List Char
  | [] => []
  | [v] => newLine level ++ writeIndented level v
  | v :: w :: rest =>
    newLine level ++ writeIndented level v ++ ',' :: writeIndentedItems level (w :: rest)

def writeIndentedFields (level : Nat) : List (LooseText × Json) → List Char
  | [] => []
  | [(name, v)] => newLine level ++ quote name ++ ':' :: ' ' :: writeIndented level v
  | (name, v) :: f :: rest =>
    newLine level ++ quote name ++ ':' :: ' ' :: writeIndented level v ++
      ',' :: writeIndentedFields level (f :: rest)

end

def storedText (v : Json) : String :=
  String.ofList (write spaced v)

def tightText (v : Json) : String :=
  String.ofList (write tight v)

def indentedText (v : Json) : String :=
  String.ofList (writeIndented 0 v)

end Json

end VersionedGraph
