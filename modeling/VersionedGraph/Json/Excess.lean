import VersionedGraph.Json.Reader
import VersionedGraph.Json.Writer

/-!
# Values beyond the limits

A value may have integers of too many digits or lists and objects nested too deeply. The first such
thing in a value is where the text of the value would be refused by a reader, and a value with one is
not written for storing either: its text comes to no end there.
-/

namespace VersionedGraph

namespace Json

mutual

/-- The first thing in a value that is beyond some limits. -/
def excess? (limits : Limits) : Json → Option Excess
  | .arr items =>
    if limits.depth = 0 then some (.nesting true)
    else firstExcess? { limits with depth := limits.depth - 1 } items
  | .obj fields =>
    if limits.depth = 0 then some (.nesting false)
    else firstFieldExcess? { limits with depth := limits.depth - 1 } fields
  | .int n => (excessDigits? limits (intText n)).map .digits
  | .null => none
  | .bool _ => none
  | .float _ => none
  | .str _ => none

def firstExcess? (limits : Limits) : List Json → Option Excess
  | [] => none
  | v :: rest => (excess? limits v).or (firstExcess? limits rest)

def firstFieldExcess? (limits : Limits) : List (LooseText × Json) → Option Excess
  | [] => none
  | (_, v) :: rest => (excess? limits v).or (firstFieldExcess? limits rest)

end

/-- The words for what a value that is to be written has beyond the limits. -/
def Excess.writingMessage : Excess → String
  | digits _ =>
    s!"Exceeds the limit ({Text.maxDigits} digits) for integer string conversion; " ++
      "use sys.set_int_max_str_digits() to increase the limit"
  | nesting _ => "maximum recursion depth exceeded while encoding a JSON object"

end Json

end VersionedGraph
