import VersionedGraph.Store.Basic
import VersionedGraph.Store.Parameter

/-!
# Groups

A group has users and other groups as members. A user belongs to the groups that have the user as a
member, to the groups that have one of those as a member, and so on; groups that contain each other
do no harm. Ids of members need not belong to anyone.
-/

namespace VersionedGraph

namespace Store

def groupsWith (s : Store) (p : Principal) : List String :=
  (s.memberships.filter fun m => m.member = p).map (·.group)

/-- The groups that a user belongs to, directly or through other groups, nearer ones first. -/
def effectiveGroups (s : Store) (user : String) : List String :=
  closure (fun g => s.groupsWith ⟨.group, g⟩) s.memberships.length (s.groupsWith ⟨.user, user⟩)

def groupsOf (s : Store) (user : Json) : Except Fault (List String) := do
  return ((← user.lookupText).map s.effectiveGroups).getD []

/-- The members of a group, for one that was just created none. -/
def members (s : Store) (group : String) : List Principal :=
  (s.memberships.filter fun m => m.group = group).map (·.member)

end Store

/-- What a group is created from. -/
structure GroupCreation where
  name : Json
  description : Json := .null
  createdBy : Json := .null
  id : Json := .null

/-- A group by its columns, as plain values. -/
structure GroupColumns where
  id : Json
  name : Json
  description : Json
  createdAt : Int
  createdBy : Json

namespace GroupCreation

/-- The columns of a new group; an id that holds nothing counts as none. -/
def columns (c : GroupCreation) (stamp : Stamp) : GroupColumns :=
  ⟨c.id.orElse (.str stamp.id), c.name, c.description, stamp.time, c.createdBy⟩

end GroupCreation

namespace GroupColumns

def settle (c : GroupColumns) : Except Fault Group := do
  Json.handOver [c.id, c.name, c.description, .int c.createdAt, c.createdBy]
  match c.name.columnText? with
  | none => .error (.constraint (.notNull "groups" "name"))
  | some name =>
    return ⟨c.id.columnText?, name, c.description.columnText?, c.createdAt, c.createdBy.columnText?⟩

def toJson (c : GroupColumns) : Json :=
  .obj
    [("id", c.id), ("name", c.name), ("description", c.description),
      ("created_at", .int c.createdAt), ("created_by", c.createdBy), ("members", .arr [])]

end GroupColumns

namespace Action

/-- Adds a group, whose id and name must be new, and answers with it as it was proposed. -/
def createGroup (c : GroupCreation) (stamp : Stamp) : Action GroupColumns := do
  let s ← get
  let columns := c.columns stamp
  let group ← columns.settle
  if s.groups.any fun g => g.name = group.name then throw (.constraint (.unique "groups" "name"))
  if (group.id.bind s.group?).isSome then throw (.constraint (.unique "groups" "id"))
  set { s with groups := s.groups ++ [group] }
  return columns

/-- Makes a principal a member of a group, which may be one already. Nobody in particular is taken
for a member without effect. -/
def addMember (group memberType memberId : Json) : Action Unit := do
  match memberType.text?.bind PrincipalType.ofName? with
  | none => throw (.memberType memberType)
  | some type =>
    if type = .group && memberId.sameAs group then throw .memberOfItself
    let s ← get
    match (← group.lookupText).bind fun id => (s.group? id).map fun _ => id with
    | none => throw (.notFound .group group)
    | some id =>
      Json.handOver [group, memberType, memberId]
      if let some memberId := memberId.columnText? then
        let m : Membership := ⟨id, ⟨type, memberId⟩⟩
        if !s.memberships.contains m then set { s with memberships := s.memberships ++ [m] }

def removeMember (group memberType memberId : Json) : Action Bool := do
  Json.handOver [group, memberType, memberId]
  let s ← get
  let isMeant (m : Membership) : Bool :=
    group.columnText? = some m.group && memberType.columnText? = some m.member.type.name &&
      memberId.columnText? = some m.member.id
  set { s with memberships := s.memberships.filter fun m => !isMeant m }
  return s.memberships.any isMeant

end Action

end VersionedGraph
