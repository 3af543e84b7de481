/-!
# Wildcard patterns

In a pattern a percent sign stands for any run of characters and an underscore for any one
character; there is no way to escape them. Every other character stands for itself, an ASCII letter
for both of its cases. Pattern and text both end at their first null character, and in both the last
two codes of the basic plane, which are no characters, are seen as the replacement character.

`Pattern.sweep` answers for all suffixes of the text at once: the answers for a pattern follow from
those for the pattern without its first sign, so the work is the product of the two lengths whatever
the percent signs.
-/

namespace VersionedGraph

namespace Text

def lowerAscii (s : String) : String :=
  s.map Char.toLower

def upperAscii (s : String) : String :=
  s.map Char.toUpper

theorem lowerAscii_eq {s t : String} (h : s.toList.map Char.toLower = t.toList) :
    lowerAscii s = t := by
  rw [lowerAscii, ← String.toList_inj, String.toList_map, h]

theorem upperAscii_eq {s t : String} (h : s.toList.map Char.toUpper = t.toList) :
    upperAscii s = t := by
  rw [upperAscii, ← String.toList_inj, String.toList_map, h]

def beforeNul (s : String) : List Char :=
  s.toList.takeWhile (· ≠ Char.ofNat 0)

namespace Pattern

def seen (c : Char) : Char :=
  if c = Char.ofNat 0xFFFE || c = Char.ofNat 0xFFFF then Char.ofNat 0xFFFD else c

def seenText (s : String) : List Char :=
  (beforeNul s).map seen

/-- One sign of a pattern. -/
inductive Sign where
  | anyRun
  | anyChar
  | letter (c : Char)
  deriving DecidableEq

def Sign.ofChar (c : Char) : Sign :=
  if c = '%' then .anyRun else if c = '_' then .anyChar else .letter c

def sameLetter (c d : Char) : Bool :=
  c.toLower = d.toLower

def orLater : List Bool → List Bool
  | [] => []
  | b :: rest =>
    let later := orLater rest
    (b || later.headD false) :: later

/-- For every suffix of the text, the longest first and the empty one last, whether the pattern
matches the whole of it. -/
def sweep : List Sign → List Char → List Bool
  | [], text => text.map (fun _ => false) ++ [true]
  | .anyRun :: rest, text => orLater (sweep rest text)
  | .anyChar :: rest, text => (sweep rest text).tail ++ [false]
  | .letter c :: rest, text =>
    List.zipWith (fun d later => sameLetter c d && later) text (sweep rest text).tail ++ [false]

def covers (pattern : List Sign) (text : List Char) : Bool :=
  (sweep pattern text).headD false

theorem orLater_cons (b : Bool) (rest : List Bool) :
    orLater (b :: rest) = (b || (orLater rest).headD false) :: orLater rest := rfl

section

variable (c : Char) (signs : List Sign) (text : List Char)

theorem sweep_noSigns : sweep [] text = text.map (fun _ => false) ++ [true] := rfl

theorem sweep_anyRun : sweep (.anyRun :: signs) text = orLater (sweep signs text) := rfl

theorem sweep_anyChar :
    sweep (.anyChar :: signs) text = (sweep signs text).tail ++ [false] := rfl

theorem sweep_letter :
    sweep (.letter c :: signs) text =
      List.zipWith (fun d later => sameLetter c d && later) text (sweep signs text).tail ++
        [false] := rfl

theorem covers_eq : covers signs text = (sweep signs text).headD false := rfl

end

def ofText (s : String) : List Sign :=
  (seenText s).map Sign.ofChar

def maxBytes : Nat := 50000

def isTooLong (s : String) : Bool :=
  maxBytes < s.utf8ByteSize

end Pattern

def isLike (pattern text : String) : Bool :=
  Pattern.covers (Pattern.ofText pattern) (Pattern.seenText text)

end Text

end VersionedGraph
