import VersionedGraph.Filter.Condition
import VersionedGraph.Json.Atom
import VersionedGraph.Sorting.Runs

/-!
# Access clauses

A query is restricted to readable rows in one of two ways. As long as the readable access lists are
few, a clause names them; otherwise the rows are fetched without a clause and filtered afterwards. A
row without an access list is public, and a caller who is not authenticated sees nothing else.
-/

namespace VersionedGraph

/-- The part that access plays in a query, with ids of some type. -/
inductive AclClause (ι : Type) where
  /-- Only public rows. -/
  | publicOnly
  /-- Public rows and those with one of some access lists. -/
  | oneOf (ids : List ι)
  /-- No part: rows are filtered after they are fetched. -/
  | deferred
  deriving DecidableEq

namespace AclClause

variable {ι : Type}

def isInline : AclClause ι → Bool
  | deferred => false
  | _ => true

def map {κ : Type} (f : ι → κ) : AclClause ι → AclClause κ
  | publicOnly => publicOnly
  | oneOf ids => oneOf (ids.map f)
  | deferred => deferred

def predicate (column : LooseText) : AclClause ι → LooseText
  | publicOnly => column ++ " IS NULL"
  | oneOf ids =>
    let marks := String.intercalate ", " (ids.map fun _ => "?")
    "(" ++ column ++ " IS NULL OR " ++ column ++ s!" IN ({marks}))"
  | deferred => ""

def bindings : AclClause ι → List ι
  | oneOf ids => ids
  | _ => []

def idScalar : Option Int → Scalar
  | some id => .integer id
  | none => .null

/-- The meaning of the clause for a row with an access list or none. -/
def truth (acl : Option Int) : AclClause Int → Truth
  | publicOnly => some (acl = none)
  | oneOf ids =>
    Truth.or (some (acl = none))
      (Condition.Test.memberTruth (idScalar acl) (ids.map Scalar.integer))
  | deferred => some true

/-- Whether the clause lets a row with an access list or none pass. -/
def permits (c : AclClause Int) (acl : Option Int) : Bool :=
  c.truth acl = some true

end AclClause

/-- A clause together with the ids that a later filter needs. -/
structure AclFilter (ι : Type) where
  clause : AclClause ι
  accessible : List ι

def AclFilter.map {ι κ : Type} (f : ι → κ) (a : AclFilter ι) : AclFilter κ :=
  ⟨a.clause.map f, a.accessible.map f⟩

namespace Acl

variable {ι : Type}

/-- The most access lists that a clause names unless configured otherwise. -/
def defaultCap : Int := 1000

/-- The clause for some accessible ids, sorted and without repetitions, named in the clause as long
as there are no more than `cap` of them. The cap is not looked at when there is nothing to name. -/
def filterFor (accessible : List ι) (authenticated : Bool) (cap : Json) :
    Except Misuse (AclFilter ι) :=
  if !authenticated then .ok ⟨.publicOnly, []⟩
  else if accessible.isEmpty then .ok ⟨.publicOnly, accessible⟩
  else do
    if ← Json.exceeds (.int accessible.length) cap then return ⟨.deferred, accessible⟩
    else return ⟨.oneOf accessible, accessible⟩

/-- Whether an access list, or its absence, is within reach of some ids. -/
def isReadable (accessible : List Int) (acl : Option Int) : Bool :=
  acl.all fun id => accessible.contains id

def keepReadable {α : Type} (accessible : List Int) (aclOf : α → Option Int) (items : List α) :
    List α :=
  items.filter fun item => isReadable accessible (aclOf item)

/-- Whether a value in the place of an access list id is within reach of some ids: it is null or
equals one of them by value. -/
def isReadableValue (accessible : List Atom) (acl : Json) : Except Misuse Bool := do
  match ← Atom.ofJson acl with
  | .null => return true
  | a => return accessible.any a.sameAs

/-- The items whose value in the place of an access list id is within reach, in order. -/
def keepReadableValues {α : Type} (accessible : List Atom) (aclOf : α → Except Misuse Json)
    (items : List α) : Except Misuse (List α) :=
  items.filterM fun item => do isReadableValue accessible (← aclOf item)

def sortedIds (ids : List Int) : List Int :=
  ids.eraseDups.mergeSort fun m n => m ≤ n

/-- Whether one id is below another, provided that they can be compared. -/
def isIdBelow (a b : Atom) : Except Misuse Bool :=
  match a.compare? b with
  | some o => .ok (o = .lt)
  | none => .error (.incomparable "<" a.toJson b.toJson)

/-- The ids given by values, in ascending order without repetitions. Of equal ones the first is
kept. -/
def sortedAtoms (values : List Json) : Except Misuse (List Atom) := do
  let ids := (← values.mapM Atom.ofJson).eraseDupsBy Atom.sameAs
  match Sorting.fault? isIdBelow ids with
  | some fault => .error fault
  | none => return ids.mergeSort fun a b => (a.compare? b).all (· ≠ .gt)

end Acl

end VersionedGraph
