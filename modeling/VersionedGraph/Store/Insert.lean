import VersionedGraph.Store.Chain

/-!
# Adding rows

A row is proposed as columns. Before they become a row the properties must be within the limits of
what is written, all columns must be ones that can be handed over, nothing may be missing, and the
version must be positive; before the row is added, its id must be new and what it refers to must
exist. The first that does not hold is the fault. Each column keeps a value in its own form, so the
row may differ from what was proposed.

The next version of a row is a copy with one change and new bookkeeping; the row itself loses its
mark.

A row added by hand may have no id. It is kept apart, since no other row can refer to it.
-/

namespace VersionedGraph

namespace Kind

/-- The endpoints that columns keep, or the column of the first that is missing. -/
def settleEnds : (k : Kind) → k.Ends Json → Except String (k.Ends String)
  | entity, _ => .ok ()
  | link, ends =>
    match ends.source.columnText?, ends.target.columnText? with
    | none, _ => .error "source_entity_id"
    | _, none => .error "target_entity_id"
    | some source, some target => .ok ⟨source, target⟩

def endList : (k : Kind) → k.Ends Json → List Json
  | entity, _ => []
  | link, ends => [ends.source, ends.target]

@[simp] theorem settleEnds_endValues (k : Kind) (ends : k.Ends String) :
    k.settleEnds (k.endValues ends) = .ok ends := by
  cases k
  · rfl
  · simp [settleEnds, endValues]

end Kind

namespace Columns

variable {k : Kind}

def document : Json → LooseText
  | .str s => s
  | v => Json.storedText v

/-- Why a document cannot be written. A text is taken as it is and has no limits. -/
def writeFault? (properties : Json) : Option Fault :=
  (properties.excess? .forValues).map .unwritable

/-- The values that are handed over for a row, in the order of the columns. -/
def parameters (c : Columns k) : List Json :=
  [c.id, c.typeId] ++ k.endList c.ends ++
    [.str (document c.properties), c.version, c.previous, c.createdAt, c.createdBy,
      .bool !c.isDeleted.isVacant, .bool !c.isLatest.isVacant, c.acl]

def require {α : Type} (k : Kind) (column : String) : Option α → Except Fault α
  | some a => .ok a
  | none => .error (.constraint (.notNull k.table column))

/-- Whether the column for the access list keeps an id, if it keeps anything. -/
def namesAcl (c : Columns k) : Bool :=
  c.acl.cell?.all fun cell => cell.integer?.isSome

def settle (c : Columns k) : Except Fault (ListedRow k) := do
  if let some fault := writeFault? c.properties then throw fault
  Json.handOver c.parameters
  let typeId ← require k "type_id" c.typeId.columnText?
  let ends ← (k.settleEnds c.ends).mapError fun column => .constraint (.notNull k.table column)
  let version ← require k "version" c.version.cell?
  let createdAt ← require k "created_at" c.createdAt.cell?
  if !version.isPositive then .error (.constraint .positiveVersion)
  else return ⟨c.id.columnText?, typeId, ends, (document c.properties).replaced, version,
    c.previous.columnText?, createdAt, c.createdBy.columnText?, !c.isDeleted.isVacant,
    !c.isLatest.isVacant, c.acl.cell?.bind Cell.integer?⟩

end Columns

namespace Store

/-- Whether what a row refers to exists: its access list, the version before it, which may be the
row itself, and the entities at its endpoints. -/
def hasReferences (s : Store) {k : Kind} (r : ListedRow k) : Bool :=
  r.acl.all (fun id => (s.acl? id).isSome) &&
    r.previous.all (fun id => some id = r.id || (s.row? k id).isSome) &&
    (k.endIds r.ends).all fun id => (s.row? .entity id).isSome

def addRow (s : Store) {k : Kind} (r : Row k) : Store :=
  s.withRows k (s.rows k ++ [r])

@[simp] theorem rows_addRow (s : Store) {k : Kind} (r : Row k) :
    (s.addRow r).rows k = s.rows k ++ [r] := by
  simp [addRow]

def unmark {k : Kind} (id : String) (r : Row k) : Row k :=
  if r.id = id then { r with isLatest := false } else r

def clearLatest (s : Store) (k : Kind) (id : String) : Store :=
  s.withRows k ((s.rows k).map (unmark id))

@[simp] theorem unmark_id {k : Kind} (id : String) (r : Row k) : (unmark id r).id = r.id := by
  unfold unmark
  split <;> rfl

@[simp] theorem rows_clearLatest (s : Store) (k : Kind) (id : String) :
    (s.clearLatest k id).rows k = (s.rows k).map (unmark id) := by
  simp [clearLatest]

end Store

/-- What a new version changes. -/
inductive Change where
  | properties (text : String)
  | deletion (isDeleted : Bool)
  | acl (id : Json)

namespace Change

def apply {k : Kind} (change : Change) (c : Columns k) : Columns k :=
  match change with
  | properties text => { c with properties := .str text }
  | deletion isDeleted => { c with isDeleted := .bool isDeleted }
  | acl id => { c with acl := id }

def nextVersion {k : Kind} (change : Change) (r : Row k) (actor : Json) (stamp : Stamp) :
    Except Fault (Columns k) := do
  let version ← r.version.next.mapError .misuse
  return { change.apply r.columns with
    id := .str stamp.id
    version
    previous := .str r.id
    createdAt := .int stamp.time
    createdBy := actor
    isLatest := .bool true }

end Change

namespace Action

def insert {k : Kind} (c : Columns k) : Action (ListedRow k) := do
  let row ← c.settle
  let s ← get
  if (row.id.bind (s.row? k)).isSome then throw (.constraint (.unique k.table "id"))
  if !(c.namesAcl && s.hasReferences row) then throw (.constraint .reference)
  match row.id with
  | some id => set (s.addRow (row.withId id))
  | none => set (s.addUnnamed k (row.withId ()))
  return row

def succeed {k : Kind} (current : Row k) (change : Change) (actor : Json) (stamp : Stamp) :
    Action (Row k) := do
  let next ← change.nextVersion current actor stamp
  modify fun s => s.clearLatest k current.id
  return (← insert next).withId stamp.id

end Action

end VersionedGraph
