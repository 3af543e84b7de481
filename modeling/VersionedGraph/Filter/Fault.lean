import VersionedGraph.Filter.Operator
import VersionedGraph.Path

/-!
# Faults of filters

A filter is refused for its shape, its path, its operator, or a value that the operator does not
take. Each cause is a constructor; `message` gives its words and `field` the part of a request that
it is blamed on.
-/

namespace VersionedGraph

/-- The kinds of value that faults speak of. -/
inductive ValueKind where
  | null
  | boolean
  | number
  | text
  | list
  | object
  deriving DecidableEq

namespace ValueKind

def of : Json → ValueKind
  | .null => null
  | .bool _ => boolean
  | .int _ => number
  | .float _ => number
  | .str _ => text
  | .arr _ => list
  | .obj _ => object

def name : ValueKind → String
  | null => "null"
  | boolean => "boolean"
  | number => "number"
  | text => "string"
  | list => "array"
  | object => "dict"

end ValueKind

/-- The ways in which a filter is refused. -/
inductive FilterFault where
  | badRowName (rowName : LooseText)
  | badPath (fault : PathFault)
  | unknownOperator (value : Json)
  | unsupportedValue (op : Filter.Operator) (kind : ValueKind)
  | needsNumber (op : Filter.Operator) (kind : ValueKind)
  | needsText (op : Filter.Operator) (kind : ValueKind)
  | needsItems (op : Filter.Operator)
  | unsupportedItem (op : Filter.Operator) (kind : ValueKind)
  | mixedItems (op : Filter.Operator) (kind : ValueKind)
  | tooDeep
  | tooManyChildren
  | notAFilter
  | notAnObject
  | groupNotAList (key : String)
  | groupSize (key : String)
  | pathNotAText
  /-- A row name that is no text, or a depth that is no number. -/
  | misuse (fault : Misuse)

namespace FilterFault

def message : FilterFault → LooseText
  | badRowName rowName => s!"Invalid table alias: {Text.quoted rowName}"
  | badPath fault => fault.message
  | unknownOperator value =>
    "Unsupported operator '" ++ value.shown ++ "'. Valid operators: " ++
      Text.quotedList (Filter.Operator.all.map Filter.Operator.name)
  | unsupportedValue op kind => s!"Unsupported value type for {op.name} operator: {kind.name}"
  | needsNumber op kind => s!"{op.name} operator requires a numeric value, got {kind.name}"
  | needsText op kind => s!"{op.name} operator requires a string value, got {kind.name}"
  | needsItems op => s!"{op.name} operator requires a non-empty array value"
  | unsupportedItem op kind =>
    s!"Unsupported value type in array for {op.name} operator: {kind.name}"
  | mixedItems op kind =>
    s!"{op.name} operator requires all array elements to be {kind.name} values"
  | tooDeep => "Filter expression exceeds maximum nesting depth of 5"
  | tooManyChildren => "Filter group exceeds maximum of 50 children"
  | notAFilter => "Invalid filter expression: must be a property filter, AND group, or OR group"
  | notAnObject => "Invalid filter expression: must be an object or a list"
  | groupNotAList key => s!"'{key}' must be a list"
  | groupSize key => s!"'{key}' must contain between 1 and 50 expressions"
  | pathNotAText => "'path' must be a non-empty string"
  | misuse fault => fault.message

/-- The part of a request that a fault is blamed on, if it is blamed on one. -/
def field? : FilterFault → Option String
  | badRowName _ => "alias"
  | badPath _ => "path"
  | unknownOperator _ => "operator"
  | unsupportedValue _ _ => "value"
  | needsNumber _ _ => "value"
  | needsText _ _ => "value"
  | needsItems _ => "value"
  | unsupportedItem _ _ => "value"
  | mixedItems _ _ => "value"
  | tooDeep => "filter_expression"
  | tooManyChildren => "filter_expression"
  | notAFilter => "filter_expression"
  | notAnObject => "filter_expression"
  | groupNotAList _ => "filter_expression"
  | groupSize _ => "filter_expression"
  | pathNotAText => "path"
  | misuse _ => none

end FilterFault

end VersionedGraph
