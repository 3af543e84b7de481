import VersionedGraph.Json.Basic

/-!
# Comparison operators

The fifteen ways in which a property filter compares the value at its path with the value that it
carries.
-/

namespace VersionedGraph

namespace Filter

/-- A way to compare. -/
inductive Operator where
  | eq
  | ne
  | gt
  | lt
  | gte
  | lte
  | like
  | ilike
  | startsWith
  | endsWith
  | contains
  | oneOf
  | noneOf
  | present
  | absent
  deriving DecidableEq, Inhabited

namespace Operator

def all : List Operator :=
  [eq, ne, gt, lt, gte, lte, like, ilike, startsWith, endsWith, contains, oneOf, noneOf, present,
    absent]

def name : Operator → String
  | eq => "eq"
  | ne => "ne"
  | gt => "gt"
  | lt => "lt"
  | gte => "gte"
  | lte => "lte"
  | like => "like"
  | ilike => "ilike"
  | startsWith => "starts_with"
  | endsWith => "ends_with"
  | contains => "contains"
  | oneOf => "in"
  | noneOf => "not_in"
  | present => "exists"
  | absent => "not_exists"

theorem mem_all (op : Operator) : op ∈ all := by
  cases op <;> simp [all]

theorem name_injective {op op' : Operator} (h : op.name = op'.name) : op = op' := by
  cases op <;> cases op' <;> simp_all [name]

def ofName? (s : String) : Option Operator :=
  all.find? fun op => op.name = s

theorem ofName?_name (op : Operator) : ofName? op.name = some op := by
  cases op <;> rfl

end Operator

end Filter

end VersionedGraph
