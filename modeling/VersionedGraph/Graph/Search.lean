import VersionedGraph.Graph.Direction

/-!
# Breadth-first search

The entities around a start are discovered wave by wave: all that are one hop away, then all that
are two hops away, and so on up to a depth. Within a wave entities are expanded in the order in
which they were discovered, each once, and the hops of an entity are taken in the order in which its
neighbors are listed. The first path to an entity is therefore a shortest one.

The search is over any function that lists neighbors, which may fail. It may be asked to note every
path and not only the first, and to stop at an entity.
-/

namespace VersionedGraph

/-- One hop of a path: the link crossed and the entity reached. -/
structure Step where
  link : String
  entity : String
  deriving DecidableEq

/-- An entity that was reached, how many hops away, and by which paths, the first one first. -/
structure Visit where
  entity : Record .entity
  depth : Nat
  paths : List (List Step)

/-- The state of a search: what was reached in order of discovery, what of it belongs to the next
wave with the first path to each, which neighbors were listed, and whether the goal was reached. -/
structure Search where
  visits : List Visit
  next : List (String × List Step) := []
  expanded : List (String × HopDirection) := []
  found : Bool := false

namespace Search

def start (entity : Record .entity) : Search :=
  ⟨[⟨entity, 0, [[]]⟩], [], [], false⟩

def visit? (s : Search) (id : String) : Option Visit :=
  s.visits.find? fun v => v.entity.id = id

def addPath (id : String) (path : List Step) (v : Visit) : Visit :=
  if v.entity.id = id && !v.paths.contains path then { v with paths := v.paths ++ [path] } else v

/-- The state after crossing a hop at the end of a path. -/
def cross (allPaths : Bool) (goal : Option String) (depth : Nat) (path : List Step) (s : Search)
    (n : Neighbor) : Search :=
  let id := n.entity.id
  let longer := path ++ [⟨n.link.id, id⟩]
  if s.found then s
  else if (s.visit? id).isSome then
    if allPaths then { s with visits := s.visits.map (addPath id longer) } else s
  else
    { s with
      visits := s.visits ++ [⟨n.entity, depth + 1, [longer]⟩]
      next := s.next ++ [(id, longer)]
      found := goal = some id }

/-- The state after listing and crossing the hops of an entity in one direction. -/
def expand (list : HopDirection → String → Except Fault (List Neighbor)) (allPaths : Bool)
    (goal : Option String) (depth : Nat) (node : String × List Step) (s : Search)
    (d : HopDirection) : Except Fault Search :=
  if s.found then .ok s
  else do
    let neighbors ← list d node.1
    return neighbors.foldl (cross allPaths goal depth node.2)
      { s with expanded := s.expanded ++ [(node.1, d)] }

def expandAll (list : HopDirection → String → Except Fault (List Neighbor)) (allPaths : Bool)
    (goal : Option String) (directions : List HopDirection) (depth : Nat) (s : Search)
    (node : String × List Step) : Except Fault Search :=
  directions.foldlM (expand list allPaths goal depth node) s

/-- The state after expanding waves, a given number of them; `depth` is that of the first. -/
def waves (list : HopDirection → String → Except Fault (List Neighbor)) (allPaths : Bool)
    (goal : Option String) (directions : List HopDirection) :
    (remaining depth : Nat) → (wave : List (String × List Step)) → Search → Except Fault Search
  | 0, _, _, s => .ok s
  | remaining + 1, depth, wave, s => do
    let s ← wave.foldlM (expandAll list allPaths goal directions depth) { s with next := [] }
    waves list allPaths goal directions remaining (depth + 1) s.next s

def run (list : HopDirection → String → Except Fault (List Neighbor)) (allPaths : Bool)
    (goal : Option String) (directions : List HopDirection) (maxDepth : Nat)
    (entity : Record .entity) : Except Fault Search :=
  waves list allPaths goal directions maxDepth 0 [(entity.id, [])] (start entity)

end Search

end VersionedGraph
