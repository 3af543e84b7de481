import VersionedGraph.Acl.Canonical
import VersionedGraph.Store.Basic

/-!
# Interning access lists

Equal sets of grants share one stored access list, which is found by the digest of their canonical
form. A stored list never changes; giving a resource other grants means pointing it at another list.
-/

namespace VersionedGraph

namespace AclDraft

/-- The text under which a field is stored, which must not be missing. -/
def stored (column : String) (field : Json) : Except Fault String :=
  match field.columnText? with
  | some s => .ok s
  | none => .error (.constraint (.notNull "acl_entries" column))

/-- The entry that a draft proposes. Numbers are stored as texts. -/
def settle (d : AclDraft) : Except Fault AclEntry := do
  Json.handOver [d.principalType.toJson, d.principalId.toJson, d.permission.toJson]
  let type ← stored "principal_type" d.principalType.toJson
  let id ← stored "principal_id" d.principalId.toJson
  let permission ← stored "permission" d.permission.toJson
  match PrincipalType.ofName? type, Permission.ofName? permission with
  | some type, some permission => return ⟨⟨type, id⟩, permission⟩
  | none, _ => .error (.constraint .principalType)
  | some _, none => .error (.constraint .permission)

/-- The entries that drafts propose, of which no two may be alike. -/
def settleAll (entries : List AclEntry) : List AclDraft → Except Fault (List AclEntry)
  | [] => .ok entries
  | d :: rest => do
    let entry ← d.settle
    if entries.contains entry then .error (.constraint .repeatedGrant)
    else settleAll (entries ++ [entry]) rest

end AclDraft

namespace Store

def aclByDigest? (s : Store) (digest : String) : Option Int :=
  (s.numberedAcls.find? fun a => a.2.digest = digest).map Prod.fst

def nextAclId (s : Store) : Int :=
  s.acls.length + 1

/-- The store in which the access list of an id has one more entry. -/
def withEntry (s : Store) (id : Int) (entry : AclEntry) : Store :=
  { s with
    acls := s.acls.modify (id - 1).toNat fun acl => { acl with entries := acl.entries ++ [entry] } }

/-- The entries of an access list in canonical order, none for an id that does not exist. -/
def aclEntries (s : Store) (id : Json) : Except Fault (List AclEntry) := do
  let acl := ((← id.lookupCell).bind Cell.integer?).bind s.acl?
  return ((acl.map AccessList.entries).getD []).mergeSort AclEntry.precedes

end Store

namespace Action

/-- Adds an access list that has no entries yet, and answers with its id. -/
def addAcl (digest : String) : Action Int := do
  let s ← get
  set { s with acls := s.acls ++ [(⟨digest, []⟩ : AccessList)] }
  return s.nextAclId

/-- Adds the entry that a draft proposes to the access list of an id, which must not have it yet. -/
def addEntry (id : Int) (d : AclDraft) : Action Unit := do
  let entry ← d.settle
  let s ← get
  if (s.acl? id).any (·.entries.contains entry) then throw (.constraint .repeatedGrant)
  set (s.withEntry id entry)

/-- The id of the access list with the given grants, which is added if there is none yet, first the
list and then its entries one by one. Without any grant there is no list: the resource is public. -/
def internAcl (drafts : List AclDraft) : Action (Option Int) :=
  if drafts.isEmpty then return none
  else atomically do
    let digest ← ((Acl.digest drafts).mapError .misuse : Except Fault String)
    match (← get).aclByDigest? digest with
    | some id => return some id
    | none =>
      let id ← addAcl digest
      (Acl.distinct drafts).forM (addEntry id)
      return some id

/-- The id of the access list with the grants given by a value; a value that holds nothing gives
none. -/
def internGiven (entries : Json) : Action (Option Int) :=
  if entries.isVacant then return none
  else do internAcl (← ((AclDraft.listOfJson entries).mapError .misuse : Except Fault _))

/-- The grants of a new resource: those of the creator alone when none are given, and otherwise the
given ones, with the creator's in front unless it is among them. -/
def resourceDrafts (creator : AclDraft) : Option (List AclDraft) → List AclDraft
  | none => [creator]
  | some given =>
    let distinct := Acl.distinct given
    if distinct.any creator.sameAs then distinct else creator :: distinct

def creatorDraft (creator : Json) : Except Misuse AclDraft :=
  AclDraft.make (.str PrincipalType.user.name) creator (.str Permission.write.name)

def givenDrafts (value : Json) : Except Misuse (Option (List AclDraft)) := do
  if value.isNull then return none
  return some (← (← value.countedItems).mapM AclDraft.ofJson)

/-- The access list of a new resource; an empty list of grants makes it public. -/
def internResourceAcl (creator given : Json) : Action (Option Int) := do
  match ← ((givenDrafts given).mapError .misuse : Except Fault _) with
  | some [] => return none
  | given =>
    let creator ← ((creatorDraft creator).mapError .misuse : Except Fault _)
    internAcl (resourceDrafts creator given)

end Action

end VersionedGraph
