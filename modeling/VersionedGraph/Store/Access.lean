import VersionedGraph.Acl.Clause
import VersionedGraph.Store.Groups

/-!
# Who may reach what

An access list grants a permission to a user when one of its entries does so, naming the user or a
group that the user belongs to, at the permission or a stronger one. Callers who are not
authenticated reach no access list at all. One query asks for a limited number of principals, so a
user who belongs to too many groups cannot be served.

Callers and access lists may come as any values. Null is a caller who is not authenticated and the
access list of a public resource. A caller must be known apart from others, so a value with parts is
none; an access list is within reach when it equals by value the id of one that is.

A `Resolver` serves one request and remembers what it has found out, so that the store is asked once
for each user and permission. Its answers are those of a store that does not change meanwhile.
-/

namespace VersionedGraph

def Permission.ofJson (value : Json) : Except Fault Permission :=
  match value.text?.bind Permission.ofName? with
  | some p => .ok p
  | none => .error (.permissionName value)

def maxPrincipals : Nat := 997

namespace Store

def aclIdsGranting (s : Store) (principals : List Principal) (permissions : List String) :
    List Int :=
  (s.numberedAcls.filter fun a => a.2.entries.any fun e =>
    principals.contains e.principal && permissions.contains e.permission.name).map Prod.fst

/-- The access lists with an entry for one of some principals at one of the permissions given by a
value. -/
def findAcls (s : Store) (principals : List Principal) (permissions : Json) :
    Except Fault (List Int) := do
  if principals.isEmpty || permissions.isVacant then return []
  let permissions ← permissions.items.mapError .misuse
  if maxPrincipals < principals.length then throw .tooManyPrincipals
  Json.handOver permissions (2 * principals.length + 1)
  return s.aclIdsGranting principals (permissions.filterMap Json.columnText?)

def principalsOf (s : Store) (user : String) : List Principal :=
  ⟨.user, user⟩ :: (s.effectiveGroups user).map fun g => ⟨.group, g⟩

def grantedIds (s : Store) (user : String) (permission : Permission) : List Int :=
  s.aclIdsGranting (s.principalsOf user) (permission.grantedBy.map Permission.name)

/-- The access lists that grant a permission to a caller, in ascending order. -/
def accessibleIds (s : Store) (caller : Json) (permission : Permission) :
    Except Fault (List Int) := do
  if caller.isNull then return []
  let _ ← (Atom.ofJson caller).mapError .misuse
  match ← caller.lookupText with
  | none => return []
  | some user =>
    if maxPrincipals < (s.principalsOf user).length then throw .tooManyPrincipals
    return s.grantedIds user permission

@[simp] theorem accessibleIds_null (s : Store) (permission : Permission) :
    s.accessibleIds .null permission = .ok [] := rfl

/-- A user who acts as no more principals than one query asks for is served. -/
theorem accessibleIds_str {s : Store} {user : String} (permission : Permission)
    (h : (s.principalsOf user).length ≤ maxPrincipals) :
    s.accessibleIds (.str user) permission = .ok (s.grantedIds user permission) := by
  have fits : ¬ maxPrincipals < (s.principalsOf user).length := by omega
  have known : (Atom.ofJson (.str user)).mapError Fault.misuse = .ok (.text user) := rfl
  simp [accessibleIds, known, Json.isNull, bind, Except.bind, pure, Except.pure, fits]

end Store

/-- Whether a caller has a permission on resources with an access list or none, given how to find
the access lists within reach. Public resources are readable by everyone and writable by every
authenticated caller, and are decided without asking. -/
def isAllowed {m : Type → Type} [Monad m] [MonadExceptOf Fault m] (accessible : m (List Int))
    (caller acl : Json) (permission : Permission) : m Bool := do
  if acl.isNull then return !caller.isNull || permission = .read
  else if caller.isNull then return false
  else
    let ids ← accessible
    match Atom.ofJson acl with
    | .ok acl => return ids.any fun id => acl.sameAs (.int id)
    | .error fault => throw (.misuse fault)

namespace Store

/-- Whether a caller has a permission on resources with an access list or none. -/
def hasPermission (s : Store) (caller acl : Json) (permission : Permission) : Except Fault Bool :=
  isAllowed (s.accessibleIds caller permission) caller acl permission

def checkAccess (s : Store) (caller acl resourceId : Json) (permission : Permission) :
    Except Fault Unit := do
  if ← s.hasPermission caller acl permission then return ()
  else throw (.accessDenied caller permission resourceId)

/-- The part that access plays in a query by a caller who wants to read. -/
def readFilter (s : Store) (caller cap : Json) : Except Fault (AclFilter Int) := do
  let ids ← s.accessibleIds caller .read
  (Acl.filterFor ids (!caller.isNull) cap).mapError .misuse

end Store

/-- The memory of one request, and the most access lists that its clauses name. -/
structure Resolver where
  cap : Json
  memory : List ((Atom × Permission) × List Int) := []

abbrev Inquiry := ExceptT Fault (StateM Resolver)

namespace Resolver

def remembered? (r : Resolver) (caller : Atom) (permission : Permission) : Option (List Int) :=
  (r.memory.find? fun m => m.1.1.sameAs caller && m.1.2 = permission).map Prod.snd

/-- The access lists that grant a permission to a caller, remembered from now on. -/
def accessibleIds (s : Store) (caller : Json) (permission : Permission) : Inquiry (List Int) := do
  if caller.isNull then return []
  let key ← ((Atom.ofJson caller).mapError .misuse : Except Fault Atom)
  match (← get).remembered? key permission with
  | some ids => return ids
  | none =>
    let ids ← s.accessibleIds caller permission
    modify fun r => { r with memory := ((key, permission), ids) :: r.memory }
    return ids

def hasPermission (s : Store) (caller acl : Json) (permission : Permission) : Inquiry Bool :=
  isAllowed (accessibleIds s caller permission) caller acl permission

def checkAccess (s : Store) (caller acl resourceId : Json) (permission : Permission) :
    Inquiry Unit := do
  if ← hasPermission s caller acl permission then return ()
  else throw (.accessDenied caller permission resourceId)

/-- The part that access plays in a query by a caller. -/
def filter (s : Store) (caller : Json) (permission : Permission) : Inquiry (AclFilter Int) := do
  let ids ← accessibleIds s caller permission
  ((Acl.filterFor ids (!caller.isNull) (← get).cap).mapError .misuse : Except Fault _)

end Resolver

end VersionedGraph
