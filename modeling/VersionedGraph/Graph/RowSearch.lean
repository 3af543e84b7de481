import VersionedGraph.Graph.Direction
import VersionedGraph.Store.Access
import VersionedGraph.Store.Query

/-!
# Search over latest versions

A search lists the latest entities or links that meet some conditions and that the caller can read,
newest first. When the caller can read so many access lists that the query does not name them, more
rows are fetched than asked for and the unreadable ones are left out.
-/

namespace VersionedGraph

/-- A request for latest versions of a kind. Null stands for what is not asked. -/
structure RowSearch (k : Kind) where
  user : Json := .null
  typeId : Json := .null
  filter : Option FilterExpr := none
  createdBy : Json := .null
  createdFrom : Json := .null
  createdUntil : Json := .null
  includeDeleted : Bool := false
  /-- Criteria that only one kind has. -/
  own : List (Criterion k) := []
  limit : Json := .int 20

namespace RowSearch

def maxLimit : Int := 100

/-- The most rows that are fetched when unreadable ones are left out afterwards. -/
def fetchLimit : Int := 10000

def checkLimit : Json → Except Fault Int
  | .int n => if 1 ≤ n && n ≤ maxLimit then .ok n else .error .badLimit
  | _ => .error .badLimit

def asked {k : Kind} (criterion : Json → Criterion k) (value : Json) : List (Criterion k) :=
  if value.isNull then [] else [criterion value]

def columnCriteria {k : Kind} (r : RowSearch k) : List (Criterion k) :=
  asked .typeIs r.typeId ++ asked .createdBy r.createdBy ++ asked .createdFrom r.createdFrom ++
    asked .createdUntil r.createdUntil ++ (if r.includeDeleted then [] else [.undeleted]) ++ r.own

def run {k : Kind} (s : Store) (aclCap : Json) (r : RowSearch k) :
    Except Fault (List (Listing k)) := do
  let limit ← checkLimit r.limit
  let compile (f : FilterExpr) := f.compile (.str k.rowName)
  let filters ← (r.filter.toList.mapM compile).mapError .filter
  let access ← s.readFilter r.user aclCap
  let criteria := r.columnCriteria ++ filters.map .properties ++ [.access access.clause]
  if access.clause.isInline then s.queryLatest k criteria (.int limit)
  else do
    let rows ← s.queryLatest k criteria (.int fetchLimit)
    let readable := Acl.keepReadable access.accessible (fun row : Listing k => row.acl) rows
    return readable.take limit.toNat

end RowSearch

end VersionedGraph
