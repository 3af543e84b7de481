import VersionedGraph.Store.Insert

/-!
# Writing entities and links

An entity or link is created as version one and changed by further versions: its properties are
replaced, it is deleted and restored, or it is given another access list. Every change may be asked
for by the id of any version of the chain and is made to the latest. Deleted things can only be
restored or given another access list.

A creation answers with what was proposed, in the form in which it was proposed. A change answers
with the new version as it is stored. It is complete before that is read back, so properties that
cannot be read are a fault of the answer and undo nothing.
-/

namespace VersionedGraph

/-- What an entity or link is created from; what is left out or holds nothing is generated or
empty. -/
structure Creation (k : Kind) where
  typeId : Json
  ends : k.Ends Json
  properties : Json := .null
  createdBy : Json := .null
  acl : Json := .null
  id : Json := .null
  createdAt : Json := .null

namespace Creation

def columns {k : Kind} (c : Creation k) (stamp : Stamp) : Columns k where
  id := c.id.orElse (.str stamp.id)
  typeId := c.typeId
  ends := c.ends
  properties := c.properties.orElse (.obj [])
  version := .int 1
  previous := .null
  createdAt := c.createdAt.orElse (.int stamp.time)
  createdBy := c.createdBy
  isDeleted := .bool false
  isLatest := .bool true
  acl := c.acl

end Creation

namespace Store

def checkEndpoints (s : Store) : (k : Kind) → k.Ends Json → Except Fault Unit
  | .entity, _ => .ok ()
  | .link, ends => do
    if ((← ends.source.lookupText).bind (s.row? .entity)).isNone then
      .error (.endpointNotFound true ends.source)
    else if ((← ends.target.lookupText).bind (s.row? .entity)).isNone then
      .error (.endpointNotFound false ends.target)
    else return ()

end Store

namespace Action

def requireLatest (k : Kind) (id : Json) : Action (Row k) := do
  match (← id.lookupText).bind ((← get).latest? k) with
  | some row => return row
  | none => throw (.notFound k.resource id)

/-- Adds version one of an entity or link, and answers with it as it was proposed. -/
def create {k : Kind} (c : Creation k) (stamp : Stamp) : Action (Columns k) :=
  atomically do
    (← get).checkEndpoints k c.ends
    let columns := c.columns stamp
    let _ ← insert columns
    return columns

/-- Makes a change to the latest version, provided that it has no objection, and reads the new
version back. -/
def change (k : Kind) (id : Json) (objection? : Row k → Option Fault) (c : Change)
    (actor : Json) (stamp : Stamp) : Action (Record k) := do
  let row ← atomically do
    let current ← requireLatest k id
    if let some fault := objection? current then throw fault
    succeed current c actor stamp
  row.decode

def update (k : Kind) (id properties actor : Json) (stamp : Stamp) : Action (Record k) :=
  let objection? (r : Row k) : Option Fault :=
    if r.isDeleted then some (.deleted k.resource id) else Columns.writeFault? properties
  change k id objection? (.properties (Json.storedText properties)) actor stamp

def delete (k : Kind) (id actor : Json) (stamp : Stamp) : Action (Record k) :=
  change k id (fun r => if r.isDeleted then some (.alreadyDeleted k.resource id) else none)
    (.deletion true) actor stamp

def restore (k : Kind) (id actor : Json) (stamp : Stamp) : Action (Record k) :=
  change k id (fun r => if r.isDeleted then none else some (.notDeleted k.resource id))
    (.deletion false) actor stamp

/-- Fails unless a value is the id of an access list. -/
def requireAcl (acl : Json) : Action Unit := do
  if (((← acl.lookupCell).bind Cell.integer?).bind (← get).acl?).isNone then
    throw (.notFound .acl (.str acl.shown))

/-- Points at another access list, which must exist; no version is written when it is the one
already pointed at. -/
def setAcl (k : Kind) (id acl actor : Json) (stamp : Stamp) : Action (Record k) := do
  let row ← atomically do
    let current ← requireLatest k id
    if (Json.ofInt? current.acl).sameAs acl then return current
    if !acl.isNull then requireAcl acl
    succeed current (.acl acl) actor stamp
  row.decode

def insertRow {k : Kind} (c : Columns k) : Action Unit :=
  atomically do
    let _ ← insert c

end Action

end VersionedGraph
