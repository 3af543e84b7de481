import VersionedGraph.Store.Lookup

/-!
# Queries for latest rows

A query selects the latest rows of a kind that meet every one of its criteria, newest first and up
to a limit. The limit may come as any value; it counts when it is an integer, whatever its form, and
a negative one is no limit.
-/

namespace VersionedGraph

namespace Store

/-- Whether an id comes no later in descending order, in which rows without one are last. -/
def idDescends : Option String → Option String → Bool
  | some a, some b => b ≤ a
  | some _, none => true
  | none, some _ => false
  | none, none => true

/-- Whether a row comes no later in an answer: newer ones come first, and of equally old ones that
with the greater id. -/
def newerFirst {k : Kind} (a b : ListedRow k) : Bool :=
  match a.createdAt.compare b.createdAt with
  | .gt => true
  | .lt => false
  | .eq => idDescends a.id b.id

def limited {α : Type} (limit : Int) (items : List α) : List α :=
  if limit < 0 then items else items.take limit.toNat

/-- The latest rows that meet all criteria, newest first. Of more rows than the limit asks for, some
that are too old to be among the first ones may be missing. -/
def selectLatest (s : Store) (k : Kind) (criteria : List (Criterion k)) (limit : Int) :
    Except Fault (List (ListedRow k)) := do
  let way := Lookup.ofCriteria criteria
  let found := way.inOrder ((s.listedRows k).filter (·.isLatest))
  let test (row : ListedRow k) : Except Fault Bool := Criterion.allHold row (way.arranged criteria)
  let tied (a b : ListedRow k) : Bool := a.createdAt.compare b.createdAt = .eq
  let rows ←
    if way = .age && 0 ≤ limit then selectUntil test tied limit.toNat 0 none found
    else selectM test found
  return rows.mergeSort newerFirst

/-- The records of the latest rows that meet all criteria, newest first and up to a limit. With a
limit of zero no row is looked at. -/
def queryLatest (s : Store) (k : Kind) (criteria : List (Criterion k)) (limit : Json) :
    Except Fault (List (Listing k)) := do
  criteria.forM Criterion.checkRowName
  Json.handOver (criteria.flatMap Criterion.bound ++ [limit])
  match limit.handedScalar.integer? with
  | none => throw .limitNotAnInteger
  | some 0 => return []
  | some limit =>
    let rows ← s.selectLatest k criteria limit
    (limited limit rows).mapM Version.decode

def counts (s : Store) : List (String × Nat) :=
  [("entities", ((s.listedRows .entity).filter (·.isLatest)).length),
    ("entity_versions", (s.listedRows .entity).length),
    ("links", ((s.listedRows .link).filter (·.isLatest)).length),
    ("link_versions", (s.listedRows .link).length), ("acls", s.acls.length),
    ("groups", s.groups.length)]

end Store

end VersionedGraph
