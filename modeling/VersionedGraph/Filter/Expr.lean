import VersionedGraph.Filter.Fault
import VersionedGraph.Json.Atom

/-!
# Filter expressions

A property filter compares the value at a path with a value of its own, and filters are combined by
groups of which all or any children must hold. An expression may also hold something that is no
filter at all, since it is handed in piece by piece and checked only when it is compiled.

Expressions are also read from a JSON form, in which a list means that all its items must hold. The
depth of nesting is limited; both readers count the levels that are left, so that they recurse on
that count.
-/

namespace VersionedGraph

/-- A comparison of the value at a path. The path is read only when the filter is compiled. -/
structure PropertyFilter where
  path : Json
  op : Filter.Operator
  value : Json := .null

/-- Property filters combined by groups. -/
inductive FilterExpr where
  | leaf (filter : PropertyFilter)
  | all (children : List FilterExpr)
  | any (children : List FilterExpr)
  | stray
  deriving Inhabited

namespace FilterExpr

/-- The deepest level at which a node may stand; the root stands at level zero. -/
def maxDepth : Nat := 5

def maxChildren : Nat := 50

def roundUp (x : Binary64) : Int :=
  if x.compareInt x.truncate = .gt then x.truncate + 1 else x.truncate

/-- The levels that are left for an expression whose root stands at a given depth. Any number will
do; what is no number of any kind counts as the top. -/
def levelsFrom (depth : Json) : Except FilterFault Nat :=
  match depth with
  | .int n => .ok (maxDepth + 1 - n).toNat
  | .bool b => .ok (if b then maxDepth else maxDepth + 1)
  | .float x => .ok (if x.isNaN then maxDepth + 1 else (maxDepth + 1 - roundUp x).toNat)
  | depth => .error (.misuse (.incomparable ">" depth (.int maxDepth)))

end FilterExpr

namespace PropertyFilter

def make (path op value : Json) : Except FilterFault PropertyFilter :=
  match op.text?.bind Filter.Operator.ofName? with
  | some op => .ok ⟨path, op, value⟩
  | none => .error (.unknownOperator op)

def ofFields (data : Json) : Except FilterFault PropertyFilter :=
  match data.field? "path", data.field? "operator" with
  | some (.str path), some op =>
    if path.isEmpty then .error .pathNotAText
    else make (.str path) op ((data.field? "value").getD .null)
  | some _, some _ => .error .pathNotAText
  | _, _ => .error .notAFilter

end PropertyFilter

namespace FilterExpr

/-- The items of a group, whose count must be within limits. -/
def groupItems (key : String) (items : Json) : Except FilterFault (List Json) :=
  match items with
  | .arr items =>
    if 1 ≤ items.length && items.length ≤ maxChildren then .ok items else .error (.groupSize key)
  | _ => .error (.groupNotAList key)

/-- The expression that a JSON value stands for, with a count of levels left. -/
def ofLevels : (levels : Nat) → Json → Except FilterFault FilterExpr
  | 0, _ => .error .tooDeep
  | levels + 1, .arr items => do
    return .all (← (← groupItems "and" (.arr items)).mapM (ofLevels levels))
  | levels + 1, .obj fields =>
    match Json.field? "and" (.obj fields), Json.field? "or" (.obj fields) with
    | some items, _ => do return .all (← (← groupItems "and" items).mapM (ofLevels levels))
    | none, some items => do return .any (← (← groupItems "or" items).mapM (ofLevels levels))
    | none, none => do return .leaf (← PropertyFilter.ofFields (.obj fields))
  | _ + 1, _ => .error .notAnObject

/-- The expression that a JSON value stands for, as if its root stood at a given depth. -/
def ofJson (data : Json) (depth : Json := .int 0) : Except FilterFault FilterExpr := do
  ofLevels (← levelsFrom depth) data

end FilterExpr

end VersionedGraph
