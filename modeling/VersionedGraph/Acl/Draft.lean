import VersionedGraph.Acl.Entry
import VersionedGraph.Json.Atom

/-!
# Drafts of access entries

Entries are handed in as drafts. A draft has the three fields of an entry, which may hold any values
without parts; only the store insists that they are texts and name a type and a permission that
exist. Drafts and not entries are what is compared and hashed, so lists are told apart before they
are checked, and drafts that cannot be put in order are refused before the store sees them.
-/

namespace VersionedGraph

/-- One grant as it is handed in, unchecked. -/
structure AclDraft where
  principalType : Atom
  principalId : Atom
  permission : Atom
  deriving DecidableEq, Inhabited

namespace AclDraft

def ofEntry (e : AclEntry) : AclDraft :=
  ⟨.text e.principal.type.name, .text e.principal.id, .text e.permission.name⟩

def make (principalType principalId permission : Json) : Except Misuse AclDraft := do
  return ⟨← Atom.ofJson principalType, ← Atom.ofJson principalId, ← Atom.ofJson permission⟩

/-- The draft given by the fields of an object. All of them must be there before any is looked
at. -/
def ofJson (value : Json) : Except Misuse AclDraft := do
  let principalType ← value.part (.str "principal_type")
  let principalId ← value.part (.str "principal_id")
  make principalType principalId (← value.part (.str "permission"))

def listOfJson (value : Json) : Except Misuse (List AclDraft) := do
  (← value.items).mapM ofJson

/-- A draft as it is handed out and as it stands in the canonical text, fields in alphabetical
order. -/
def toJson (d : AclDraft) : Json :=
  .obj
    [("permission", d.permission.toJson), ("principal_id", d.principalId.toJson),
      ("principal_type", d.principalType.toJson)]

/-- The fields of two drafts side by side, in the order in which they are compared. -/
def paired (a b : AclDraft) : List (Atom × Atom) :=
  [(a.principalType, b.principalType), (a.principalId, b.principalId), (a.permission, b.permission)]

def difference? (a b : AclDraft) : Option (Atom × Atom) :=
  (paired a b).find? fun f => !f.1.sameAs f.2

def sameAs (a b : AclDraft) : Bool :=
  a.principalId.sameAs b.principalId && a.principalType.sameAs b.principalType &&
    a.permission.sameAs b.permission

/-- Whether one draft comes before another: the first fields that differ decide, provided that they
can be compared. -/
def isBelow (a b : AclDraft) : Except Misuse Bool :=
  match difference? a b with
  | none => .ok false
  | some (x, y) =>
    match x.compare? y with
    | some o => .ok (o = .lt)
    | none => .error (.incomparable "<" x.toJson y.toJson)

def precedes (a b : AclDraft) : Bool :=
  match isBelow b a with
  | .ok below => !below
  | .error _ => true

end AclDraft

end VersionedGraph
