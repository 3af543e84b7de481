import VersionedGraph.Json.Basic
import VersionedGraph.Number.Numeral
import VersionedGraph.Text.Hex

/-!
# Documents

A document is JSON text with its white space taken away and everything else kept: numerals stand as
they were written, and texts keep their escapes. The value that a document denotes is `toJson`;
`source` is its text again. Predicates over stored properties are evaluated on documents rather than
on values, because a list or object found inside one counts as its own text there, escapes included.
-/

namespace VersionedGraph

namespace Json

/-- The words of the format; the last two are not allowed in strict documents. -/
inductive Word where
  | null
  | true
  | false
  | notANumber
  | infinity (negative : Bool)
  deriving DecidableEq

/-- JSON text without its white space. Texts and names are kept as written between the quotes. -/
inductive Document where
  | word (w : Word)
  | number (lexeme : List Char)
  | text (body : List Char)
  | array (items : List Document)
  | object (members : List (List Char × Document))
  deriving Inhabited

/-- A stretch of a quoted text: a character that stands for itself or a sixteen-bit unit. -/
inductive Piece where
  | plain (c : Char)
  | unit (n : Nat)

def escapeLetter? : Char → Option Char
  | '"' => some '"'
  | '\\' => some '\\'
  | '/' => some '/'
  | 'b' => some '\x08'
  | 'f' => some '\x0c'
  | 'n' => some '\n'
  | 'r' => some '\r'
  | 't' => some '\t'
  | _ => none

def pieces : List Char → List Piece
  | '\\' :: 'u' :: a :: b :: c :: d :: rest =>
    .unit ((Text.hexValues? [a, b, c, d]).getD 0) :: pieces rest
  | '\\' :: e :: rest => .plain ((escapeLetter? e).getD e) :: pieces rest
  | c :: rest => .plain c :: pieces rest
  | [] => []

def isHighSurrogate (n : Nat) : Bool :=
  0xD800 ≤ n && n < 0xDC00

def isLowSurrogate (n : Nat) : Bool :=
  0xDC00 ≤ n && n < 0xE000

def joinSurrogates (high low : Nat) : Char :=
  Char.ofNat (0x10000 + (high - 0xD800) * 0x400 + (low - 0xDC00))

def joinPieces : List Piece → List CodePoint
  | .unit high :: .unit low :: rest =>
    if isHighSurrogate high && isLowSurrogate low then
      .char (joinSurrogates high low) :: joinPieces rest
    else .ofNat high :: joinPieces (.unit low :: rest)
  | .unit n :: rest => .ofNat n :: joinPieces rest
  | .plain c :: rest => .char c :: joinPieces rest
  | [] => []

def unquote (body : List Char) : LooseText :=
  ⟨joinPieces (pieces body)⟩

def isIntegerLexeme (lexeme : List Char) : Bool :=
  !lexeme.any fun c => c = '.' || c = 'e' || c = 'E'

def numberOfLexeme (lexeme : List Char) : Json :=
  let n := Numeral.leading lexeme
  if isIntegerLexeme lexeme then .int n.toInt else .float n.toBinary64

namespace Document

def wordValue : Word → Json
  | .null => .null
  | .true => .bool true
  | .false => .bool false
  | .notANumber => .float Binary64.nan
  | .infinity negative => .float (Binary64.infinity negative)

mutual

def toJson : Document → Json
  | .word w => wordValue w
  | .number lexeme => numberOfLexeme lexeme
  | .text body => .str (unquote body)
  | .array items => .arr (itemsToJson items)
  | .object members => .obj (membersToFields [] members)

def itemsToJson : List Document → List Json
  | [] => []
  | d :: rest => d.toJson :: itemsToJson rest

/-- The fields of an object, added one by one to those already there. -/
def membersToFields (fields : List (LooseText × Json)) :
    List (List Char × Document) → List (LooseText × Json)
  | [] => fields
  | (name, d) :: rest =>
    membersToFields (insertField fields (unquote name) d.toJson) rest

end

theorem itemsToJson_eq_map (items : List Document) : itemsToJson items = items.map toJson := by
  induction items with
  | nil => rfl
  | cons d rest ih => simp [itemsToJson, ih]

def wordText : Word → List Char
  | .null => "null".toList
  | .true => "true".toList
  | .false => "false".toList
  | .notANumber => "NaN".toList
  | .infinity negative => (if negative then "-Infinity" else "Infinity").toList

mutual

def source : Document → List Char
  | .word w => wordText w
  | .number lexeme => lexeme
  | .text body => '"' :: body ++ ['"']
  | .array items => '[' :: sourceItems items ++ [']']
  | .object members => '{' :: sourceMembers members ++ ['}']

def sourceItems : List Document → List Char
  | [] => []
  | [d] => d.source
  | d :: e :: rest => d.source ++ ',' :: sourceItems (e :: rest)

def sourceMembers : List (List Char × Document) → List Char
  | [] => []
  | [(name, d)] => '"' :: name ++ '"' :: ':' :: d.source
  | (name, d) :: m :: rest =>
    '"' :: name ++ '"' :: ':' :: d.source ++ ',' :: sourceMembers (m :: rest)

end

mutual

def isStrict : Document → Bool
  | .word .notANumber => false
  | .word (.infinity _) => false
  | .word _ => true
  | .number _ => true
  | .text _ => true
  | .array items => areStrict items
  | .object members => membersAreStrict members

def areStrict : List Document → Bool
  | [] => true
  | d :: rest => d.isStrict && areStrict rest

def membersAreStrict : List (List Char × Document) → Bool
  | [] => true
  | (_, d) :: rest => d.isStrict && membersAreStrict rest

end

end Document

end Json

end VersionedGraph
