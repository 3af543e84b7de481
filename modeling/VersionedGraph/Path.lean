import VersionedGraph.Json.Misuse
import VersionedGraph.Text.Blank
import VersionedGraph.Text.Digit

/-!
# Property paths

A path leads from the top of a properties document to a value inside it, by names of object fields
and positions of list items. It is written with dots and brackets; a position may be written either
way, `tags[0]` or `tags.0`, and both have one canonical form, `$.tags[0]`.

`Path.scan` reads the text from left to right. It carries the position, whether it is inside
brackets, and the word read so far, and it stops at the first character that cannot be right.
Leading and repeated dots separate nothing and are passed over.
-/

namespace VersionedGraph

namespace Path

/-- One step of a path. -/
inductive Component where
  | property (name : String)
  | index (position : Nat)
  deriving DecidableEq

end Path

/-- The steps from the top of a document to a value. -/
abbrev Path := List Path.Component

/-- The ways in which a text fails to be a path. -/
inductive PathFault where
  | blank
  | badCharacters (path : LooseText)
  | nestedBrackets (position : Nat)
  | unexpectedClosing (position : Nat)
  | badIndex (word : String)
  | badName (word : String)
  | unclosed
  | tooDeep
  | indexTooLong (digits : Nat)
  /-- A value that is no text and yet holds something. -/
  | misuse (fault : Misuse)

namespace Path

def maxDepth : Nat := 10

def isNameStart (c : Char) : Bool :=
  c.isAlpha || c = '_'

def isWordChar (c : Char) : Bool :=
  isNameStart c || Text.isDigit c

/-- Every character that a path may hold after its root sign. -/
def isPathChar (c : Char) : Bool :=
  isWordChar c || c = '.' || c = '[' || c = ']'

/-- An identifier: a letter or underscore, then letters, digits and underscores. -/
def isName : List Char → Bool
  | [] => false
  | c :: rest => isNameStart c && rest.all isWordChar

def isIndex (word : List Char) : Bool :=
  !word.isEmpty && word.all Text.isDigit

def indexStep (digits : List Char) : Except PathFault Component :=
  if Text.maxDigits < digits.length then .error (.indexTooLong digits.length)
  else .ok (.index (Text.decimal digits))

def nameStep (word : List Char) : Except PathFault Component :=
  if isName word then .ok (.property (String.ofList word))
  else .error (.badName (String.ofList word))

/-- The step of a word between dots, which may be a position or a name. -/
def wordStep (word : List Char) : Except PathFault Component :=
  if isIndex word then indexStep word else nameStep word

def bracketStep (word : List Char) : Except PathFault Component :=
  if isIndex word then indexStep word else .error (.badIndex (String.ofList word))

/-- The steps of a path text from a position on. `word` holds the characters of the current word,
the last one first. -/
def scan (position : Nat) (inside : Bool) (word : List Char) : List Char → Except PathFault Path
  | [] =>
    if inside then .error .unclosed
    else if word.isEmpty then .ok []
    else do return [← wordStep word.reverse]
  | c :: rest =>
    if c = '[' then
      if inside then .error (.nestedBrackets position)
      else if word.isEmpty then scan (position + 1) true [] rest
      else do return (← nameStep word.reverse) :: (← scan (position + 1) true [] rest)
    else if c = ']' then
      if inside then do
        return (← bracketStep word.reverse) :: (← scan (position + 1) false [] rest)
      else .error (.unexpectedClosing position)
    else if c = '.' && !inside then
      if word.isEmpty then scan (position + 1) false [] rest
      else do return (← wordStep word.reverse) :: (← scan (position + 1) false [] rest)
    else scan (position + 1) inside (c :: word) rest

def withoutRoot : List Char → List Char
  | '$' :: '.' :: rest => rest
  | '$' :: rest => rest
  | cs => cs

def parseProper (s : String) : Except PathFault Path :=
  if Text.allBlank s then .error .blank
  else
    let cs := withoutRoot s.toList
    if cs.isEmpty || !cs.all isPathChar then .error (.badCharacters s)
    else do
      let path ← scan 0 false [] cs
      if path.isEmpty then .error .blank
      else if maxDepth < path.length then .error .tooDeep
      else return path

/-- The path written by a text. Half a surrogate pair is no character that a path may hold. -/
def parse (s : LooseText) : Except PathFault Path :=
  match s.toString? with
  | some s => parseProper s
  | none => .error (.badCharacters s)

@[simp] theorem parse_ofString (s : String) : parse s = parseProper s := by
  simp [parse]

/-- The path given by a value, which must be a text. -/
def ofJson : Json → Except PathFault Path
  | .str s => parse s
  | value => .error (if value.isVacant then .blank else .misuse (.noAttribute value "strip"))

@[simp] theorem ofJson_str (s : LooseText) : ofJson (.str s) = parse s := rfl

def Component.render : Component → List Char
  | .property name => '.' :: name.toList
  | .index position => '[' :: Nat.toDigits 10 position ++ [']']

/-- The one text that a path is bound to queries as: names after dots, positions in brackets. -/
def canonical (path : Path) : String :=
  String.ofList ('$' :: path.flatMap Component.render)

@[simp] theorem toList_canonical (path : Path) :
    path.canonical.toList = '$' :: path.flatMap Component.render := by
  simp [canonical]

end Path

namespace PathFault

def message : PathFault → LooseText
  | blank => "JSON path cannot be empty"
  | badCharacters path =>
    "Invalid characters in JSON path: " ++ path ++
      ". Only alphanumeric characters, underscores, dots, and square brackets are allowed."
  | nestedBrackets position =>
    s!"Invalid JSON path: nested brackets are not allowed at position {position}"
  | unexpectedClosing position =>
    s!"Invalid JSON path: unexpected closing bracket at position {position}"
  | badIndex word =>
    s!"Invalid array index: '{word}'. Array indices must be non-negative integers."
  | badName word =>
    s!"Invalid property name: {word}. Property names must start with a letter or underscore."
  | unclosed => "Invalid JSON path: unclosed bracket"
  | tooDeep => "JSON path exceeds maximum depth of 10"
  | indexTooLong digits => Text.tooManyDigits digits
  | misuse fault => fault.message

/-- Whether the fault is told as part of an answer. What is no text, or holds a number that is too
long to be read, gets no answer. -/
def isTold : PathFault → Bool
  | indexTooLong _ | misuse _ => false
  | _ => true

end PathFault

namespace Path

/-- What is told of a text: that it is a path, which and in what form, or what is wrong with it. -/
structure Verdict where
  isValid : Bool
  canonical : String := ""
  components : Path := []
  error? : Option LooseText := none

namespace Verdict

def valid (path : Path) : Verdict :=
  { isValid := true, canonical := path.canonical, components := path }

def invalid (fault : PathFault) : Verdict :=
  { isValid := false, error? := some fault.message }

end Verdict

def judge (value : Json) : Except PathFault Verdict :=
  match ofJson value with
  | .ok path => .ok (.valid path)
  | .error fault => if fault.isTold then .ok (.invalid fault) else .error fault

end Path

end VersionedGraph
