import VersionedGraph.Json.Basic
import VersionedGraph.Number.Decimal
import VersionedGraph.Text.Quoted

/-!
# Values in messages

A message shows a text as it is, so that it reads as a part of the sentence, and any other value in
a form of its own: words with capitals, doubles with the fewest digits, lists in square brackets and
objects in braces. Inside a list or object texts stand in quotes, since there the sentence is over.
-/

namespace VersionedGraph

namespace Json

/-- The form of a value that has no parts, as it stands inside a list or object. -/
def shownAtom : Json → String
  | .null => "None"
  | .bool true => "True"
  | .bool false => "False"
  | .int n => toString n
  | .float x => x.shortestText "inf" "nan"
  | .str s => Text.quoted s
  | .arr _ => ""
  | .obj _ => ""

mutual

def shownInside : Json → String
  | .arr items => "[" ++ shownItems items ++ "]"
  | .obj fields => "\x7b" ++ shownFields fields ++ "\x7d"
  | .null => shownAtom .null
  | .bool b => shownAtom (.bool b)
  | .int n => shownAtom (.int n)
  | .float x => shownAtom (.float x)
  | .str s => shownAtom (.str s)

def shownItems : List Json → String
  | [] => ""
  | [v] => shownInside v
  | v :: w :: rest => shownInside v ++ ", " ++ shownItems (w :: rest)

def shownFields : List (LooseText × Json) → String
  | [] => ""
  | [(name, v)] => Text.quoted name ++ ": " ++ shownInside v
  | (name, v) :: f :: rest =>
    Text.quoted name ++ ": " ++ shownInside v ++ ", " ++ shownFields (f :: rest)

end

def shown : Json → LooseText
  | .str s => s
  | v => shownInside v

end Json

end VersionedGraph
