import VersionedGraph.Store.Basic

/-!
# Chains

Any version stands for its chain. The latest version of the chain of an id is the row itself, if it
is marked, or else the first marked row that is found by going from version to successor. The chain
is found from there by going back. Rows that name each other in a circle do no harm, since no row is
visited twice.
-/

namespace VersionedGraph

namespace Store

def successorIds (s : Store) (k : Kind) (id : String) : List String :=
  ((s.rows k).filter fun r => r.previous = some id).map (·.id)

def predecessorIds (s : Store) (k : Kind) (id : String) : List String :=
  ((s.row? k id).bind (·.previous)).toList.filter fun p => (s.row? k p).isSome

/-- The id, if there is such a row, and those of all later versions, nearer ones first. -/
def forwardIds (s : Store) (k : Kind) (id : String) : List String :=
  closure (s.successorIds k) (s.rows k).length (((s.row? k id).map (·.id)).toList)

/-- The id, if there is such a row, and those of all earlier versions, nearer ones first. -/
def backwardIds (s : Store) (k : Kind) (id : String) : List String :=
  closure (s.predecessorIds k) (s.rows k).length (((s.row? k id).map (·.id)).toList)

def latest? (s : Store) (k : Kind) (id : String) : Option (Row k) :=
  match (s.row? k id).filter (·.isLatest) with
  | some row => some row
  | none => ((s.forwardIds k id).filterMap (s.row? k)).find? (·.isLatest)

def chain (s : Store) (k : Kind) (id : String) : List (Row k) :=
  match s.latest? k id with
  | none => []
  | some row =>
    let rows := (s.backwardIds k row.id).filterMap (s.row? k)
    rows.mergeSort fun a b => a.version.precedes b.version

def getExact (s : Store) (k : Kind) (id : Json) : Except Fault (Option (Record k)) := do
  ((← id.lookupText).bind (s.row? k)).mapM Version.decode

def getLatest (s : Store) (k : Kind) (id : Json) : Except Fault (Option (Record k)) := do
  ((← id.lookupText).bind (s.latest? k)).mapM Version.decode

def getVersions (s : Store) (k : Kind) (id : Json) : Except Fault (List (Record k)) := do
  (((← id.lookupText).map (s.chain k)).getD []).mapM Version.decode

def resolveLatest (s : Store) (table id : Json) : Except Fault (Option String) := do
  let k ← Kind.lookUp table
  return ((← id.lookupText).bind (s.latest? k)).map (·.id)

/-- The ids of the chain of an id, oldest first, in the table that a value names. -/
def versionIds (s : Store) (table id : Json) : Except Fault (List String) := do
  let k ← Kind.lookUp table
  return (((← id.lookupText).map (s.chain k)).getD []).map (·.id)

end Store

end VersionedGraph
