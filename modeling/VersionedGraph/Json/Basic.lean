import VersionedGraph.Number.Binary64
import VersionedGraph.Text.Loose

/-!
# JSON values

A value keeps integers and doubles apart, since the two are written and compared differently, and an
object is a list of fields in order of insertion. Objects read from text have no field twice: a
later field of the same name replaces the value of the earlier one and keeps its place
(`Json.insertField`).
-/

namespace VersionedGraph

/-- A JSON value. -/
inductive Json where
  | null
  | bool (b : Bool)
  | int (n : Int)
  | float (x : Binary64)
  | str (s : LooseText)
  | arr (items : List Json)
  | obj (fields : List (LooseText × Json))
  deriving Inhabited

namespace Json

/-- The fields with one more, which takes the place of an earlier field of the same name. -/
def insertField (fields : List (LooseText × Json)) (name : LooseText) (value : Json) :
    List (LooseText × Json) :=
  if fields.any (·.1 = name) then fields.map fun f => if f.1 = name then (name, value) else f
  else fields ++ [(name, value)]

/-- The names of the fields after one more: the new name goes to the end unless it is there. -/
theorem insertField_names (fields : List (LooseText × Json)) (name : LooseText) (value : Json) :
    (insertField fields name value).map Prod.fst =
      if name ∈ fields.map Prod.fst then fields.map Prod.fst
      else fields.map Prod.fst ++ [name] := by
  have hany : fields.any (·.1 = name) = true ↔ name ∈ fields.map Prod.fst := by
    simp [List.any_eq_true]
  unfold insertField
  by_cases h : name ∈ fields.map Prod.fst
  · rw [if_pos (hany.2 h), if_pos h, List.map_map]
    apply List.map_congr_left
    intro f _
    by_cases hf : f.1 = name <;> simp [hf]
  · rw [if_neg (fun hc => h (hany.1 hc)), if_neg h]
    simp

/-- The value of a field of an object; other values have none. -/
def field? (name : String) : Json → Option Json
  | .obj fields => fields.lookup (name : LooseText)
  | _ => none

/-- The value of a field of an object, null when it has none. -/
def fieldOrNull (name : String) (v : Json) : Json :=
  (v.field? name).getD .null

def text? : Json → Option String
  | .str s => s.toString?
  | _ => none

def int? : Json → Option Int
  | .int n => some n
  | _ => none

/-- Null, false, the zeros, and the empty text, list and object hold nothing. -/
def isVacant : Json → Bool
  | .null => true
  | .bool b => !b
  | .int n => n = 0
  | .float x => x.magnitude = 0
  | .str s => s.isEmpty
  | .arr items => items.isEmpty
  | .obj fields => fields.isEmpty

/-- A value, or another one in its place when it holds nothing. -/
def orElse (value default : Json) : Json :=
  if value.isVacant then default else value

def isNull : Json → Bool
  | .null => true
  | _ => false

def typeName : Json → String
  | .null => "NoneType"
  | .bool _ => "bool"
  | .int _ => "int"
  | .float _ => "float"
  | .str _ => "str"
  | .arr _ => "list"
  | .obj _ => "dict"

def ofText? : Option String → Json
  | some s => .str s
  | none => .null

def ofInt? : Option Int → Json
  | some n => .int n
  | none => .null

end Json

end VersionedGraph
