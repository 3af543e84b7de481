import VersionedGraph.Json.Atom

/-!
# Access entries

An access list grants permissions to principals, which are users and groups. A principal also has a
text form, its type and its id with a colon between them.
-/

namespace VersionedGraph

/-- What a principal may do with a resource. -/
inductive Permission where
  | read
  | write
  deriving DecidableEq, Inhabited

namespace Permission

def all : List Permission := [read, write]

def name : Permission → String
  | read => "read"
  | write => "write"

def ofName? (s : String) : Option Permission :=
  all.find? fun p => p.name = s

theorem ofName?_name (p : Permission) : ofName? p.name = some p := by
  cases p <;> rfl

def grantedBy : Permission → List Permission
  | read => [read, write]
  | write => [write]

theorem self_mem_grantedBy (p : Permission) : p ∈ p.grantedBy := by
  cases p <;> simp [grantedBy]

end Permission

/-- The kinds of principal. -/
inductive PrincipalType where
  | user
  | group
  deriving DecidableEq, Inhabited

namespace PrincipalType

def all : List PrincipalType := [user, group]

def name : PrincipalType → String
  | user => "user"
  | group => "group"

def ofName? (s : String) : Option PrincipalType :=
  all.find? fun t => t.name = s

theorem ofName?_name (t : PrincipalType) : ofName? t.name = some t := by
  cases t <;> rfl

end PrincipalType

/-- A user or group. -/
structure Principal where
  type : PrincipalType
  id : String
  deriving DecidableEq, Inhabited

/-- The ways in which a value fails to name a principal. -/
inductive PrincipalFault where
  | noColon (value : Json)
  | unknownType (type : String)
  | emptyId (text : String)
  | misuse (fault : Misuse)

namespace PrincipalFault

def message : PrincipalFault → LooseText
  | noColon value => "Invalid principal format: " ++ value.shown
  | unknownType type => s!"Invalid principal type: {type}"
  | emptyId text => s!"Empty principal id: {text}"
  | misuse fault => fault.message

end PrincipalFault

namespace Principal

def render (p : Principal) : String :=
  p.type.name ++ ":" ++ p.id

/-- The principal named by a text; the first colon ends the type. -/
def parse (s : String) : Except PrincipalFault Principal :=
  let type := s.toList.takeWhile (· ≠ ':')
  match s.toList.dropWhile (· ≠ ':') with
  | [] => .error (.noColon (.str s))
  | _ :: id =>
    match PrincipalType.ofName? (String.ofList type) with
    | none => .error (.unknownType (String.ofList type))
    | some type => if id.isEmpty then .error (.emptyId s) else .ok ⟨type, String.ofList id⟩

/-- The principal named by a value. Of the values that are no texts, those with a colon among their
items are not told apart from texts at first. -/
def ofJson (value : Json) : Except PrincipalFault Principal :=
  match value with
  | .str s => parse s.replaced
  | value =>
    match value.items? with
    | none => .error (.misuse (.noContents value))
    | some items =>
      if items.any (Json.sameAs (.str ":")) then .error (.misuse (.noAttribute value "split"))
      else .error (.noColon value)

@[simp] theorem ofJson_str (s : String) : ofJson (.str s) = parse s := by
  simp [ofJson]

end Principal

/-- One grant of a stored access list. -/
structure AclEntry where
  principal : Principal
  permission : Permission
  deriving DecidableEq, Inhabited

namespace AclEntry

def compare (a b : AclEntry) : Ordering :=
  (Ord.compare a.principal.type.name b.principal.type.name).then
    ((Ord.compare a.principal.id b.principal.id).then
      (Ord.compare a.permission.name b.permission.name))

def precedes (a b : AclEntry) : Bool :=
  compare a b ≠ .gt

def toJson (e : AclEntry) : Json :=
  .obj
    [("principal_type", .str e.principal.type.name), ("principal_id", .str e.principal.id),
      ("permission", .str e.permission.name)]

end AclEntry

end VersionedGraph
