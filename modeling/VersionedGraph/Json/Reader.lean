import VersionedGraph.Json.Document

/-!
# Reading JSON text

A scanner takes its lexeme from the front of the text and returns the rest, so what is read is
always stated with a tail. A text that is no document is refused with the cause and the place of the
first fault. Inside the reader a place is the count of characters left, which needs no bookkeeping;
the outside sees line, column and offset. A reader may also have limits, on the digits of an integer
and on nesting; what goes beyond them is refused where it is met, before what follows is looked at.

Every call of the reader is at or behind a character that no later call sees again, so the length of
the text bounds the depth of calls; `Document.read` starts with that bound.
-/

namespace VersionedGraph

namespace Json

/-- The ways in which a text fails to be a document. -/
inductive ReadFault where
  | byteOrderMark
  | expectingValue
  | expectingName
  | expectingColon
  | expectingComma
  | extraData
  | unterminatedText
  | controlCharacter
  | badEscape
  | badUnitEscape
  deriving DecidableEq

namespace ReadFault

def message : ReadFault → String
  | byteOrderMark => "Unexpected UTF-8 BOM (decode using utf-8-sig)"
  | expectingValue => "Expecting value"
  | expectingName => "Expecting property name enclosed in double quotes"
  | expectingColon => "Expecting ':' delimiter"
  | expectingComma => "Expecting ',' delimiter"
  | extraData => "Extra data"
  | unterminatedText => "Unterminated string starting at"
  | controlCharacter => "Invalid control character at"
  | badEscape => "Invalid \\escape"
  | badUnitEscape => "Invalid \\uXXXX escape"

end ReadFault

/-- What a reader does not go beyond. -/
structure Limits where
  /-- The most digits of an integer, if there is a limit. -/
  digits : Option Nat
  /-- The most lists and objects inside one another. -/
  depth : Nat

namespace Limits

def forValues : Limits := ⟨some Text.maxDigits, 980⟩

def forQueries : Limits := ⟨none, 2000⟩

end Limits

/-- The ways in which a text goes beyond the limits of its reader. -/
inductive Excess where
  | digits (count : Nat)
  | nesting (inList : Bool)
  deriving DecidableEq

def Excess.message : Excess → String
  | digits count => Text.tooManyDigits count
  | nesting inList =>
    let form := if inList then "array" else "object"
    s!"maximum recursion depth exceeded while decoding a JSON {form} from a unicode string"

/-- Where reading stops: at a fault, with the count of characters left, or at a limit. -/
inductive Stop where
  | fault (fault : ReadFault) (left : Nat)
  | limit (excess : Excess)

def isSpace (c : Char) : Bool :=
  c = ' ' || c = '\t' || c = '\n' || c = '\r'

def skipSpace (cs : List Char) : List Char :=
  cs.dropWhile isSpace

/-- The body of a quoted text, up to the closing quote. `opening` is what is left at the opening
quote. -/
def scanText (opening : List Char) : List Char → Except Stop (List Char × List Char)
  | [] => .error (.fault .unterminatedText opening.length)
  | '"' :: rest => .ok ([], rest)
  | ['\\'] => .error (.fault .unterminatedText opening.length)
  | '\\' :: 'u' :: a :: b :: c :: d :: e :: rest =>
    if (Text.hexValues? [a, b, c, d]).isSome then do
      let (body, after) ← scanText opening (e :: rest)
      return ('\\' :: 'u' :: a :: b :: c :: d :: body, after)
    else .error (.fault .badUnitEscape (rest.length + 6))
  | '\\' :: 'u' :: rest => .error (.fault .badUnitEscape (rest.length + 1))
  | '\\' :: e :: rest =>
    if (escapeLetter? e).isSome then do
      let (body, after) ← scanText opening rest
      return ('\\' :: e :: body, after)
    else .error (.fault .badEscape (rest.length + 2))
  | c :: rest =>
    if c < ' ' then .error (.fault .controlCharacter (rest.length + 1))
    else do
      let (body, after) ← scanText opening rest
      return (c :: body, after)

/-- The integer part of a numeral: a single zero, or digits that begin with another one. -/
def scanWhole? : List Char → Option (List Char × List Char)
  | '0' :: rest => some (['0'], rest)
  | d :: rest =>
    if Text.isDigit d then
      some (d :: rest.takeWhile Text.isDigit, rest.dropWhile Text.isDigit)
    else none
  | [] => none

/-- The fraction part of a numeral, which counts only when a digit follows the point. -/
def scanFraction : List Char → List Char × List Char
  | '.' :: rest =>
    match rest.takeWhile Text.isDigit with
    | [] => ([], '.' :: rest)
    | digits => ('.' :: digits, rest.dropWhile Text.isDigit)
  | cs => ([], cs)

def splitSign : List Char → List Char × List Char
  | '-' :: rest => (['-'], rest)
  | '+' :: rest => (['+'], rest)
  | cs => ([], cs)

/-- The exponent part of a numeral, which counts only when it has digits. -/
def scanExponent : List Char → List Char × List Char
  | e :: rest =>
    if e = 'e' || e = 'E' then
      let (sign, after) := splitSign rest
      match after.takeWhile Text.isDigit with
      | [] => ([], e :: rest)
      | digits => (e :: sign ++ digits, after.dropWhile Text.isDigit)
    else ([], e :: rest)
  | [] => ([], [])

def scanNumber? (cs : List Char) : Option (List Char × List Char) := do
  let (sign, cs) := match cs with
    | '-' :: rest => (['-'], rest)
    | cs => ([], cs)
  let (whole, cs) ← scanWhole? cs
  let (fraction, cs) := scanFraction cs
  let (exponent, cs) := scanExponent cs
  return (sign ++ whole ++ fraction ++ exponent, cs)

def scanWord? : List Char → Option (Word × List Char)
  | 'n' :: 'u' :: 'l' :: 'l' :: rest => some (.null, rest)
  | 't' :: 'r' :: 'u' :: 'e' :: rest => some (.true, rest)
  | 'f' :: 'a' :: 'l' :: 's' :: 'e' :: rest => some (.false, rest)
  | 'N' :: 'a' :: 'N' :: rest => some (.notANumber, rest)
  | 'I' :: 'n' :: 'f' :: 'i' :: 'n' :: 'i' :: 't' :: 'y' :: rest => some (.infinity false, rest)
  | '-' :: 'I' :: 'n' :: 'f' :: 'i' :: 'n' :: 'i' :: 't' :: 'y' :: rest =>
    some (.infinity true, rest)
  | _ => none

/-- The digit count of a numeral that is an integer and has more digits than allowed. -/
def excessDigits? (limits : Limits) (lexeme : List Char) : Option Nat := do
  let most ← limits.digits
  let count := (lexeme.filter Text.isDigit).length
  if isIntegerLexeme lexeme && most < count then some count else none

def scanAtom (limits : Limits) (cs : List Char) : Except Stop (Document × List Char) :=
  match scanWord? cs with
  | some (w, rest) => .ok (.word w, rest)
  | none =>
    match scanNumber? cs with
    | some (lexeme, rest) =>
      match excessDigits? limits lexeme with
      | some count => .error (.limit (.digits count))
      | none => .ok (.number lexeme, rest)
    | none => .error (.fault .expectingValue cs.length)

def Limits.inner (limits : Limits) (inList : Bool) : Except Stop Limits :=
  if limits.depth = 0 then .error (.limit (.nesting inList))
  else .ok { limits with depth := limits.depth - 1 }

mutual

/-- The document at the front of a text that begins with no white space. -/
def scanDocument : (bound : Nat) → Limits → List Char → Except Stop (Document × List Char)
  | 0, _, cs => .error (.fault .expectingValue cs.length)
  | bound + 1, limits, cs =>
    match cs with
    | '"' :: rest => do
      let (body, after) ← scanText cs rest
      return (.text body, after)
    | '[' :: rest => do
      let limits ← limits.inner true
      match skipSpace rest with
      | ']' :: after => return (.array [], after)
      | inside =>
        let (items, after) ← scanItems bound limits inside
        return (.array items, after)
    | '{' :: rest => do
      let limits ← limits.inner false
      match skipSpace rest with
      | '}' :: after => return (.object [], after)
      | inside =>
        let (members, after) ← scanMembers bound limits inside
        return (.object members, after)
    | cs => scanAtom limits cs

def scanItems : (bound : Nat) → Limits → List Char → Except Stop (List Document × List Char)
  | 0, _, cs => .error (.fault .expectingValue cs.length)
  | bound + 1, limits, cs => do
    let (d, after) ← scanDocument bound limits cs
    match skipSpace after with
    | ']' :: rest => return ([d], rest)
    | ',' :: rest =>
      let (items, rest) ← scanItems bound limits (skipSpace rest)
      return (d :: items, rest)
    | rest => .error (.fault .expectingComma rest.length)

def scanMembers : (bound : Nat) → Limits → List Char →
    Except Stop (List (List Char × Document) × List Char)
  | 0, _, cs => .error (.fault .expectingName cs.length)
  | bound + 1, limits, cs =>
    match cs with
    | '"' :: inName => do
      let (name, after) ← scanText cs inName
      match skipSpace after with
      | ':' :: value =>
        let (d, after) ← scanDocument bound limits (skipSpace value)
        match skipSpace after with
        | '}' :: rest => return ([(name, d)], rest)
        | ',' :: rest =>
          let (members, rest) ← scanMembers bound limits (skipSpace rest)
          return ((name, d) :: members, rest)
        | rest => .error (.fault .expectingComma rest.length)
      | rest => .error (.fault .expectingColon rest.length)
    | cs => .error (.fault .expectingName cs.length)

end

/-- The document that a whole text is, white space around it allowed. -/
def scanWhole (limits : Limits) (cs : List Char) : Except Stop Document :=
  if cs.head? = some (Char.ofNat 0xFEFF) then .error (.fault .byteOrderMark cs.length)
  else do
    let (d, after) ← scanDocument (cs.length + 1) limits (skipSpace cs)
    match skipSpace after with
    | [] => return d
    | rest => .error (.fault .extraData rest.length)

/-- Why a text is refused: a fault with its place, or a limit of the reader. -/
inductive ReadError where
  | located (fault : ReadFault) (line column offset : Nat)
  | limit (excess : Excess)
  deriving DecidableEq

namespace ReadError

/-- The fault at a given offset of a text: lines and columns count from one, offsets from zero. -/
def locate (fault : ReadFault) (cs : List Char) (offset : Nat) : ReadError :=
  let before := cs.take offset
  .located fault (before.count '\n' + 1) ((before.reverse.takeWhile (· ≠ '\n')).length + 1) offset

def ofStop (cs : List Char) : Stop → ReadError
  | .fault fault left => locate fault cs (cs.length - left)
  | .limit excess => .limit excess

def message : ReadError → String
  | located fault line column offset =>
    s!"{fault.message}: line {line} column {column} (char {offset})"
  | limit excess => excess.message

end ReadError

def Document.read (limits : Limits) (cs : List Char) : Except ReadError Document :=
  (scanWhole limits cs).mapError (ReadError.ofStop cs)

def read (s : String) : Except ReadError Json := do
  return (← Document.read .forValues s.toList).toJson

end Json

end VersionedGraph
