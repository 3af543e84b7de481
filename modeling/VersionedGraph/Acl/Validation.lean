import VersionedGraph.Acl.Entry
import VersionedGraph.Json.Shown
import VersionedGraph.Text.Quoted

/-!
# Checking access lists

Before a list of raw values is taken for an access list, every complaint about it is collected: at
most one for the length of the list, and for each item those about its fields, in the order of the
items.
-/

namespace VersionedGraph

namespace Acl

def maxEntries : Nat := 100

/-- Complaints about an access list; `position` counts its items from zero. -/
inductive Complaint where
  | tooMany
  | notAnObject (position : Nat)
  | badPrincipalType (position : Nat) (value : Json)
  | badPrincipalId (position : Nat)
  | badPermission (position : Nat) (value : Json)

def Complaint.message : Complaint → LooseText
  | tooMany => "Maximum 100 ACL entries allowed"
  | notAnObject position => s!"Entry {position}: must be a dictionary"
  | badPrincipalType position value =>
    s!"Entry {position}: invalid principal_type '" ++ value.shown ++ "', must be one of " ++
      Text.quotedList (PrincipalType.all.map PrincipalType.name)
  | badPrincipalId position => s!"Entry {position}: missing 'principal_id'"
  | badPermission position value =>
    s!"Entry {position}: invalid permission '" ++ value.shown ++ "', must be one of " ++
      Text.quotedList (Permission.all.map Permission.name)

def entryComplaints (position : Nat) : Json → List Complaint
  | .obj fields =>
    let entry := Json.obj fields
    let type := entry.fieldOrNull "principal_type"
    let permission := entry.fieldOrNull "permission"
    let isNamed := match entry.fieldOrNull "principal_id" with
      | .str s => !s.isEmpty
      | _ => false
    (if (type.text?.bind PrincipalType.ofName?).isSome then []
      else [.badPrincipalType position type]) ++
      (if isNamed then [] else [.badPrincipalId position]) ++
      (if (permission.text?.bind Permission.ofName?).isSome then []
        else [.badPermission position permission])
  | _ => [.notAnObject position]

def complaintsFrom (position : Nat) : List Json → List Complaint
  | [] => []
  | entry :: rest => entryComplaints position entry ++ complaintsFrom (position + 1) rest

def complaints (entries : List Json) : List Complaint :=
  (if maxEntries < entries.length then [.tooMany] else []) ++ complaintsFrom 0 entries

def complaintsOf (entries : Json) : Except Misuse (List Complaint) := do
  return complaints (← entries.countedItems)

end Acl

end VersionedGraph
