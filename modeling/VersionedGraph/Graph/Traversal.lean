import VersionedGraph.Graph.Search
import VersionedGraph.Store.Access

/-!
# Traversal and shortest paths

Both searches start from the latest version of an entity, which must exist, must not be deleted
unless deleted things are included, and must be readable by the caller. They cross only hops whose
link and entity are both readable. A traversal lists everything within a number of hops; a shortest
path is the first path by which the search outbound reaches its target.
-/

namespace VersionedGraph

/-- What searches are given when a request leaves it out. Like requests, these may be any values. -/
structure SearchSettings where
  /-- The most access lists that a query names. -/
  aclCap : Json := .int Acl.defaultCap
  traversalDepth : Json := .int 3
  shortestPathDepth : Json := .int maxSearchDepth

/-- A request for everything around an entity. -/
structure TraversalRequest where
  start : Json
  user : Json := .null
  direction : Json := .str Direction.outbound.name
  maxDepth : Json := .null
  linkTypes : Json := .null
  entityTypes : Json := .null
  includeDeleted : Bool := false
  allPaths : Bool := false
  entityFilter : Option FilterExpr := none
  linkFilter : Option FilterExpr := none

/-- What a traversal reached, in order of discovery. -/
structure Traversal where
  start : String
  direction : Direction
  maxDepth : Nat
  visits : List Visit
  allPaths : Bool
  /-- The listings of neighbors that the traversal asked for, in order. -/
  expanded : List (String × HopDirection)

/-- A request for a shortest path. -/
structure PathRequest where
  source : Json
  target : Json
  user : Json := .null
  maxDepth : Json := .null
  linkTypes : Json := .null
  includeDeleted : Bool := false

/-- A place on a path and the link by which it was reached, none for the first. -/
structure PathHop where
  entity : Record .entity
  link : Option (Record .link)

/-- A path from one entity to another. -/
structure ShortestPath where
  source : String
  target : String
  hops : List PathHop
  /-- The listings of neighbors that the search asked for, in order. -/
  expanded : List (String × HopDirection)

/-- How the versions on a path are looked up once the path is known. -/
structure PathLookup where
  entity : String → Except Fault (Option (Record .entity))
  link : String → Except Fault (Option (Record .link))

namespace PathLookup

def requireEntity (lookup : PathLookup) (id : String) : Except Fault (Record .entity) := do
  match ← lookup.entity id with
  | some entity => return entity
  | none => .error (.notFound .entity (.str id))

def requireLink (lookup : PathLookup) (id : String) : Except Fault (Record .link) := do
  match ← lookup.link id with
  | some link => return link
  | none => .error (.notFound .link (.str id))

def hop (lookup : PathLookup) (step : Step) : Except Fault PathHop := do
  let entity ← requireEntity lookup step.entity
  let link ← requireLink lookup step.link
  return ⟨entity, some link⟩

def ofStore (s : Store) : PathLookup :=
  ⟨fun id => s.getExact .entity (.str id), fun id => s.getExact .link (.str id)⟩

end PathLookup

namespace Store

/-- The latest version of an entity that a caller can read. -/
def readable (s : Store) (user : Json) (includeDeleted : Bool) (id : Json) :
    Except Fault (Record .entity) := do
  match ← s.getLatest .entity id with
  | none => .error (.notFound .entity id)
  | some entity =>
    if entity.isDeleted && !includeDeleted then .error (.notFound .entity id)
    else do
      s.checkAccess user (.ofInt? entity.acl) id .read
      return entity

/-- The neighbors that pass both a request and, when access is not part of the query, a filter by
access afterwards. -/
def readableNeighbors (s : Store) (access : AclFilter Int) (r : HopRequest) (d : HopDirection)
    (id : String) : Except Fault (List Neighbor) := do
  let found ← s.neighbors d (.str id) { r with access := access.clause }
  if access.clause.isInline then return found
  else
    let byLink := Acl.keepReadable access.accessible (fun n : Neighbor => n.link.acl) found
    return Acl.keepReadable access.accessible (fun n : Neighbor => n.entity.acl) byLink

def requestedDepth (maxDepth configured : Json) : Except Fault Nat :=
  checkDepth (if maxDepth.isNull then configured else maxDepth)

def compileOptional (k : Kind) (e : Option FilterExpr) : Except Fault (List CompiledFilter) :=
  (e.toList.mapM fun f : FilterExpr => f.compile (.str k.rowName)).mapError .filter

/-- The fault of a traversal that comes to use a direction which is none: at its first hop, or at
its end if it makes no hop. -/
def noDirection (value : Json) (depth : Nat) : Fault :=
  .misuse (.noAttribute value (if 0 < depth then "hops" else "value"))

def traverse (s : Store) (settings : SearchSettings) (r : TraversalRequest) :
    Except Fault Traversal := do
  let direction? ← Direction.given? r.direction
  let depth ← requestedDepth r.maxDepth settings.traversalDepth
  let entityFilters ← compileOptional .entity r.entityFilter
  let linkFilters ← compileOptional .link r.linkFilter
  let start ← s.readable r.user r.includeDeleted r.start
  let access ← s.readFilter r.user settings.aclCap
  match direction? with
  | none => throw (noDirection r.direction depth)
  | some direction =>
    let request : HopRequest :=
      { includeDeleted := r.includeDeleted
        linkTypes := r.linkTypes
        entityTypes := r.entityTypes
        filters := entityFilters ++ linkFilters }
    let list := s.readableNeighbors access request
    let search ← Search.run list r.allPaths none direction.hops depth start
    return ⟨start.id, direction, depth, search.visits, r.allPaths, search.expanded⟩

/-- A path with the fewest hops from one entity to another along which a caller can go, its places
looked up again at the end. -/
def shortestPath (s : Store) (settings : SearchSettings) (lookup : PathLookup) (r : PathRequest) :
    Except Fault ShortestPath := do
  let depth ← requestedDepth r.maxDepth settings.shortestPathDepth
  let origin ← s.readable r.user r.includeDeleted r.source
  let target ← s.readable r.user r.includeDeleted r.target
  if origin.id = target.id then return ⟨origin.id, target.id, [⟨origin, none⟩], []⟩
  else
    let access ← s.readFilter r.user settings.aclCap
    let request : HopRequest := { includeDeleted := r.includeDeleted, linkTypes := r.linkTypes }
    let list := s.readableNeighbors access request
    let search ← Search.run list false (some target.id) [.outbound] depth origin
    match (search.visit? target.id).bind (·.paths.head?) with
    | none => .error (.noPath origin.id target.id depth)
    | some steps => do
      let first ← lookup.requireEntity origin.id
      let rest ← steps.mapM lookup.hop
      return ⟨origin.id, target.id, ⟨first, none⟩ :: rest, search.expanded⟩

end Store

def Step.toJson (s : Step) : Json :=
  .obj [("link_id", .str s.link), ("entity_id", .str s.entity)]

def Visit.ownFields (allPaths : Bool) (v : Visit) : List (LooseText × Json) :=
  let depth := .int v.depth
  if allPaths then
    [("depth", depth), ("paths", .arr (v.paths.map fun path => .arr (path.map Step.toJson)))]
  else [("depth", depth)]

def Visit.toJson (allPaths : Bool) (v : Visit) : Json :=
  .obj (v.entity.fields ++ v.ownFields allPaths)

def Traversal.toJson (t : Traversal) : Json :=
  .obj
    [("start_id", .str t.start), ("direction", .str t.direction.name),
      ("max_depth", .int t.maxDepth), ("count", .int t.visits.length),
      ("entities", .arr (t.visits.map (Visit.toJson t.allPaths)))]

def PathHop.toJson (h : PathHop) : Json :=
  .obj
    [("entity", h.entity.toJson),
      ("link", match h.link with
        | some link => link.toJson
        | none => .null)]

/-- A path as it is handed out; its length counts links. -/
def ShortestPath.toJson (p : ShortestPath) : Json :=
  .obj
    [("from", .str p.source), ("to", .str p.target), ("length", .int (p.hops.length - 1 : Nat)),
      ("path", .arr (p.hops.map PathHop.toJson))]

end VersionedGraph
