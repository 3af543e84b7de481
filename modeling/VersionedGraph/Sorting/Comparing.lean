/-!
# Computing by comparisons

What a sort does depends on its items only through the answers to its comparisons. So it is written
as a tree: a node asks whether one item comes before another and goes on in one of two ways, a leaf
has the result. A tree is run with any way of answering, also with one that fails on some pairs; the
first comparison that fails is then the failure of the run.
-/

namespace VersionedGraph

/-- A computation of a result that asks for comparisons. -/
inductive Comparing (α β : Type) where
  | done (result : β)
  | ask (x y : α) (next : Bool → Comparing α β)

namespace Comparing

variable {α β γ ε : Type}

/-- The computation that goes on with what another one results in. -/
def bind (c : Comparing α β) (f : β → Comparing α γ) : Comparing α γ :=
  match c with
  | done result => f result
  | ask x y next => ask x y fun b => (next b).bind f

instance : Monad (Comparing α) where
  pure := done
  bind := bind

def isBelow (x y : α) : Comparing α Bool :=
  ask x y done

/-- The result with given answers, or the failure of the first comparison that fails. -/
def run (answer : α → α → Except ε Bool) : Comparing α β → Except ε β
  | done result => .ok result
  | ask x y next =>
    match answer x y with
    | .error e => .error e
    | .ok b => (next b).run answer

end Comparing

end VersionedGraph
