import VersionedGraph.Store.Neighbors

/-!
# Directions

A traversal crosses links from source to target, from target to source, or both ways, in which case
the outbound hops of an entity come before its inbound ones.
-/

namespace VersionedGraph

/-- The ways in which a traversal crosses links. -/
inductive Direction where
  | outbound
  | inbound
  | both
  deriving DecidableEq, Inhabited

namespace Direction

def all : List Direction := [outbound, inbound, both]

def name : Direction → String
  | outbound => "outbound"
  | inbound => "inbound"
  | both => "both"

def ofName? (s : String) : Option Direction :=
  all.find? fun d => d.name = s

theorem ofName?_name (d : Direction) : ofName? d.name = some d := by
  cases d <;> rfl

def ofJson (value : Json) : Except Fault Direction :=
  match value.text?.bind ofName? with
  | some d => .ok d
  | none => .error (.direction value)

/-- The direction that a request gives. A text must be the name of one; any other value is none, and
is refused only where the direction is used. -/
def given? (value : Json) : Except Fault (Option Direction) :=
  match value with
  | .str name => do return some (← ofJson (.str name))
  | _ => .ok none

@[simp] theorem given?_name (d : Direction) : given? (.str d.name) = .ok (some d) := by
  cases d <;> rfl

/-- The hops that a direction allows, in the order in which they are tried. -/
def hops : Direction → List HopDirection
  | outbound => [.outbound]
  | inbound => [.inbound]
  | both => [.outbound, .inbound]

end Direction

def maxSearchDepth : Nat := 10

/-- The depth given by a value, which must be an integer within limits. -/
def checkDepth : Json → Except Fault Nat
  | .int n =>
    if 0 ≤ n && n ≤ maxSearchDepth then .ok n.toNat else .error .depthOutOfRange
  | _ => .error .depthNotAnInteger

end VersionedGraph
