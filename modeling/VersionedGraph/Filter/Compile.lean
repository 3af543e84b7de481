import VersionedGraph.Filter.Condition
import VersionedGraph.Filter.Expr

/-!
# Compiling filters

A property filter is compiled to one test at one path, which depends on the operator and on the kind
of the filter's own value; an operator that does not take such a value is refused, never bent to it.
Groups are compiled child by child. A group without children constrains nothing and leaves no trace,
and a group of which one child is left is that child.
-/

namespace VersionedGraph

/-- The compiled form of a filter: a condition on the properties of the rows of a name,
or no constraint. -/
structure CompiledFilter where
  rowName : String
  condition? : Option Condition

namespace CompiledFilter

/-- The compiled form for the rows that a value names. Only a condition needs the name, and then it
has been checked to be a text. -/
def ofJson (rowName : Json) (condition? : Option Condition) : CompiledFilter :=
  ⟨rowName.text?.getD "", condition?⟩

@[simp] theorem ofJson_str (rowName : String) (condition? : Option Condition) :
    ofJson (.str rowName) condition? = ⟨rowName, condition?⟩ := by
  simp [ofJson, Json.text?]

/-- The text of the clause, empty when there is no constraint. -/
def predicate (c : CompiledFilter) : String :=
  (c.condition?.map (Condition.predicate c.rowName)).getD ""

def parameters (c : CompiledFilter) : List Scalar :=
  (c.condition?.map Condition.parameters).getD []

def isEmpty (c : CompiledFilter) : Bool :=
  c.condition?.isNone

end CompiledFilter

namespace Filter

/-- The scalar that a value is bound as, for values without parts. -/
def operand : Json → Scalar
  | .bool b => .integer (if b then 1 else 0)
  | .int n => .integer n
  | .float x => .real x
  | .str s => .text s
  | .null => .null
  | .arr _ => .null
  | .obj _ => .null

def readingFor? : ValueKind → Option Condition.Reading
  | .boolean => some .integer
  | .number => some .real
  | .text => some .asIs
  | .null => none
  | .list => none
  | .object => none

def equality (op : Operator) (comparison : Condition.Comparison) (value : Json) :
    Except FilterFault Condition.Test :=
  match readingFor? (ValueKind.of value) with
  | some reading => .ok (.compare reading comparison (operand value))
  | none => .error (.unsupportedValue op (ValueKind.of value))

def ordering (op : Operator) (comparison : Condition.Comparison) (value : Json) :
    Except FilterFault Condition.Test :=
  if ValueKind.of value = .number then .ok (.compare .real comparison (operand value))
  else .error (.needsNumber op (ValueKind.of value))

def pattern (op : Operator) (folding : Condition.Folding) (wrap : LooseText → LooseText)
    (value : Json) :
    Except FilterFault Condition.Test :=
  match value with
  | .str s => .ok (.like folding (wrap s))
  | v => .error (.needsText op (ValueKind.of v))

/-- The test of membership in a list, whose items are all of the kind of the first. -/
def membership (op : Operator) (negated : Bool) (value : Json) :
    Except FilterFault Condition.Test :=
  match value with
  | .arr (first :: rest) =>
    let kind := ValueKind.of first
    match readingFor? kind with
    | none => .error (.unsupportedItem op kind)
    | some reading =>
      if rest.all fun v => ValueKind.of v = kind then
        .ok (.member reading negated ((first :: rest).map operand))
      else .error (.mixedItems op kind)
  | _ => .error (.needsItems op)

def test (op : Operator) (value : Json) : Except FilterFault Condition.Test :=
  match op with
  | .eq =>
    match value with
    | .null => .ok (.isNull false)
    | v => equality .eq .equal v
  | .ne =>
    match value with
    | .null => .ok (.isNull true)
    | v => equality .ne .unequal v
  | .gt => ordering .gt .greater value
  | .lt => ordering .lt .less value
  | .gte => ordering .gte .atLeast value
  | .lte => ordering .lte .atMost value
  | .like => pattern .like .unchanged id value
  | .ilike => pattern .ilike .lower id value
  | .startsWith => pattern .startsWith .unchanged (· ++ "%") value
  | .endsWith => pattern .endsWith .unchanged ("%" ++ ·) value
  | .contains => pattern .contains .upper (fun s => "%" ++ s ++ "%") value
  | .oneOf => membership .oneOf false value
  | .noneOf => membership .noneOf true value
  | .present => .ok (.isNull true)
  | .absent => .ok (.isNull false)

/-- Whether a text may stand for a table in a clause: an identifier. -/
def isRowName (rowName : String) : Bool :=
  Path.isName rowName.toList

/-- Fails unless a value is a text that may stand for a table. -/
def checkRowName : Json → Except FilterFault Unit
  | .str s => if s.toString?.any isRowName then .ok () else .error (.badRowName s)
  | value => .error (.misuse (.notAText value))

def path (value : Json) : Except FilterFault Path :=
  (Path.ofJson value).mapError .badPath

def leaf (rowName : Json) (f : PropertyFilter) : Except FilterFault Condition := do
  checkRowName rowName
  return .leaf (← path f.path) (← test f.op f.value)

/-- The condition that a group comes to, from what is left of its children. -/
def group (join : List Condition → Condition) : List Condition → Option Condition
  | [] => none
  | [c] => some c
  | cs => some (join cs)

@[simp] theorem group_nil (join : List Condition → Condition) : group join [] = none := rfl

@[simp] theorem group_singleton (join : List Condition → Condition) (c : Condition) :
    group join [c] = some c := rfl

/-- The condition of an expression, with a count of levels left. -/
def compileLevels (rowName : Json) :
    (levels : Nat) → FilterExpr → Except FilterFault (Option Condition)
  | 0, _ => .error .tooDeep
  | _ + 1, .leaf f => do return some (← leaf rowName f)
  | levels + 1, .all children =>
    if FilterExpr.maxChildren < children.length then .error .tooManyChildren
    else do return group .all ((← children.mapM (compileLevels rowName levels)).filterMap id)
  | levels + 1, .any children =>
    if FilterExpr.maxChildren < children.length then .error .tooManyChildren
    else do return group .any ((← children.mapM (compileLevels rowName levels)).filterMap id)
  | _ + 1, .stray => .error .notAFilter

end Filter

namespace PropertyFilter

def compile (f : PropertyFilter) (rowName : Json := .str "e") :
    Except FilterFault CompiledFilter := do
  return .ofJson rowName (some (← Filter.leaf rowName f))

/-- The compiled form of a list of filters that must all hold; each of them stands in parentheses,
even a single one. -/
def compileAll (fs : List PropertyFilter) (rowName : Json := .str "e") :
    Except FilterFault CompiledFilter :=
  match fs with
  | [] => .ok (.ofJson rowName none)
  | fs => do return .ofJson rowName (some (.all (← fs.mapM (Filter.leaf rowName))))

end PropertyFilter

namespace FilterExpr

/-- The compiled form of an expression, as if its root stood at a given depth. -/
def compile (e : FilterExpr) (rowName : Json := .str "e") (depth : Json := .int 0) :
    Except FilterFault CompiledFilter := do
  return .ofJson rowName (← Filter.compileLevels rowName (← levelsFrom depth) e)

end FilterExpr

end VersionedGraph
