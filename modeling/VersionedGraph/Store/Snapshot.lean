import VersionedGraph.Store.Interning
import VersionedGraph.Store.Groups
import VersionedGraph.Store.Table

/-!
# Snapshots

A store is kept as a JSON object with the rows of each table in order of insertion. It is loaded by
adding them one by one, so what is loaded satisfies the same constraints as what is written.
-/

namespace VersionedGraph

namespace Snapshot

def items (data : Json) (table : String) : List Json :=
  match data.field? table with
  | some (.arr items) => items
  | _ => []

def addAcl (entries : Json) : Action Unit := do
  let _ ← Action.internGiven entries

def addGroup (data : Json) : Action Unit := do
  let id := data.fieldOrNull "id"
  let creation : GroupCreation :=
    { name := data.fieldOrNull "name"
      description := data.fieldOrNull "description"
      createdBy := data.fieldOrNull "created_by"
      id }
  let time := ((data.fieldOrNull "created_at").int?).getD 0
  let _ ← Action.createGroup creation ⟨"", time⟩
  for m in items data "members" do
    Action.addMember id (m.fieldOrNull "member_type") (m.fieldOrNull "member_id")

def addAll (data : Json) : Action Unit := do
  (items data "acls").forM addAcl
  (items data "groups").forM addGroup
  (items data "entities").forM (Action.insertRead .entity)
  (items data "links").forM (Action.insertRead .link)

def load (data : Json) : Except Fault Store :=
  match (addAll data).run.run Store.empty with
  | (.ok _, s) => .ok s
  | (.error f, _) => .error f

end Snapshot

end VersionedGraph
