import VersionedGraph.Text.Hex
import VersionedGraph.Text.Loose
import VersionedGraph.Text.Printable

/-!
# Quoted text

Messages quote a text so that its exact content can be read off. It stands between single quotes,
or between double quotes when it holds a single quote and no double quote. Inside, the backslash and
the quote in use are escaped, tab, line feed and return have their short escapes, and any other
character that is not printable is given by its code point with two, four or eight digits.
-/

namespace VersionedGraph

namespace Text

def apostrophe : Char := Char.ofNat 0x27

def quotedChar (q c : Char) : List Char :=
  if c = q || c = '\\' then ['\\', c]
  else if c = '\t' then ['\\', 't']
  else if c = '\n' then ['\\', 'n']
  else if c = '\r' then ['\\', 'r']
  else if isPrintable c then [c]
  else if c.toNat ≤ 0xFF then '\\' :: 'x' :: hex 2 c.toNat
  else if c.toNat ≤ 0xFFFF then '\\' :: 'u' :: hex 4 c.toNat
  else '\\' :: 'U' :: hex 8 c.toNat

def quotedPoint (q : Char) : CodePoint → List Char
  | .char c => quotedChar q c
  | .half offset => '\\' :: 'u' :: hex 4 (0xD800 + offset)

def quoteFor (points : List CodePoint) : Char :=
  if points.contains (.char apostrophe) && !points.contains (.char '"') then '"' else apostrophe

def quoted (s : LooseText) : String :=
  let q := quoteFor s.points
  String.ofList (q :: s.points.flatMap (quotedPoint q) ++ [q])

def quotedList (names : List String) : String :=
  "[" ++ String.intercalate ", " (names.map fun name : String => quoted name) ++ "]"

end Text

end VersionedGraph
