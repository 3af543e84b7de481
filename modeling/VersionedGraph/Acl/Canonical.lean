import VersionedGraph.Acl.Draft
import VersionedGraph.Json.Writer
import VersionedGraph.Sorting.Runs
import VersionedGraph.Text.Sha256

/-!
# The canonical form of an access list

A list of drafts denotes a set of grants. Its canonical text is the sorted list without duplicates,
written as JSON, and the digest of that text identifies the set: the order in which grants were
handed in and how often each of them was do not show in it. Drafts of which two cannot be compared
have no canonical form.
-/

namespace VersionedGraph

namespace Acl

def distinct (drafts : List AclDraft) : List AclDraft :=
  drafts.eraseDupsBy AclDraft.sameAs

def canonicalDrafts (drafts : List AclDraft) : Except Misuse (List AclDraft) :=
  match Sorting.fault? AclDraft.isBelow (distinct drafts) with
  | some fault => .error fault
  | none => .ok ((distinct drafts).mergeSort AclDraft.precedes)

def canonicalText (drafts : List AclDraft) : Except Misuse String := do
  return Json.tightText (.arr ((← canonicalDrafts drafts).map AclDraft.toJson))

def digest (drafts : List AclDraft) : Except Misuse String := do
  return Sha256.hexDigest (← canonicalText drafts).toUTF8.toList

end Acl

end VersionedGraph
