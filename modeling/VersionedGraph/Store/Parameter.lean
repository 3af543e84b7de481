import VersionedGraph.Fault

/-!
# Parameters

A query or write hands all its values over before it looks at any row. What can be handed over is
then taken in the form that the column it meets would keep.
-/

namespace VersionedGraph

namespace Json

def handOver (values : List Json) (place : Nat := 1) : Except Fault Unit :=
  match firstBindFault? place values with
  | some fault => .error (.unbindable fault)
  | none => .ok ()

@[simp] theorem handOver_nil (place : Nat) : handOver [] place = .ok () := rfl

/-- The text that a single value is looked up as, if it is looked up as anything. -/
def lookupText (value : Json) : Except Fault (Option String) := do
  handOver [value]
  return value.columnText?

/-- The cell that a single value is looked up as, if it is looked up as anything. -/
def lookupCell (value : Json) : Except Fault (Option Cell) := do
  handOver [value]
  return value.cell?

@[simp] theorem lookupText_str (s : String) : (Json.str s).lookupText = .ok (some s) := by
  simp [lookupText, handOver, firstBindFault?, bindFault?, bind, Except.bind, pure, Except.pure]

@[simp] theorem lookupText_null : Json.null.lookupText = .ok none := rfl

end Json

end VersionedGraph
