import VersionedGraph.Acl.Validation
import VersionedGraph.Binding
import VersionedGraph.Filter.Condition
import VersionedGraph.Filter.Fault
import VersionedGraph.Json.Excess
import VersionedGraph.Number.Integer
import VersionedGraph.Report
import VersionedGraph.Statement.Fault

/-!
# Faults

Everything that an operation on the graph can fail with, as causes. `message` gives the words for a
cause, `kind` the sort of failure it is, and `report?` its outward form for the four kinds that
callers handle: invalid requests, missing resources, denied access, and paths that do not exist.
-/

namespace VersionedGraph

/-- What a look-up can miss. -/
inductive Resource where
  | entity
  | link
  | acl
  | group
  deriving DecidableEq

namespace Resource

def name : Resource → String
  | entity => "entity"
  | link => "link"
  | acl => "acl"
  | group => "group"

/-- The name of a resource at the start of a message. -/
def title : Resource → String
  | entity => "Entity"
  | link => "Link"
  | acl => "ACL"
  | group => "Group"

end Resource

/-- What every stored row must satisfy. -/
inductive Constraint where
  | unique (table column : String)
  /-- Two grants of one access list that are stored alike. -/
  | repeatedGrant
  | notNull (table column : String)
  | reference
  | positiveVersion
  | principalType
  | permission
  deriving DecidableEq

/-- The words for a constraint that a row does not satisfy. -/
def Constraint.message : Constraint → String
  | unique table column => s!"UNIQUE constraint failed: {table}.{column}"
  | repeatedGrant =>
    "UNIQUE constraint failed: acl_entries.acl_id, acl_entries.principal_type, " ++
      "acl_entries.principal_id, acl_entries.permission"
  | notNull table column => s!"NOT NULL constraint failed: {table}.{column}"
  | reference => "FOREIGN KEY constraint failed"
  | positiveVersion => "CHECK constraint failed: version > 0"
  | principalType => "CHECK constraint failed: principal_type IN ('user', 'group')"
  | permission => "CHECK constraint failed: permission IN ('read', 'write')"

/-- What can be named in the place of a logging level and is none. -/
inductive NonLevel where
  | messageFormat
  | formatStyles
  deriving DecidableEq

namespace NonLevel

def name : NonLevel → String
  | messageFormat => "BASIC_FORMAT"
  | formatStyles => "_STYLES"

def message : NonLevel → String
  | messageFormat => "Unknown level: '%(levelname)s:%(name)s:%(message)s'"
  | formatStyles =>
    "Level not an integer or a valid string: \x7b'%': (<class 'logging.PercentStyle'>, " ++
      "'%(levelname)s:%(name)s:%(message)s'), '\x7b': (<class 'logging.StrFormatStyle'>, " ++
      "'\x7blevelname\x7d:\x7bname\x7d:\x7bmessage\x7d'), " ++
      "'$': (<class 'logging.StringTemplateStyle'>, " ++
      "'$\x7blevelname\x7d:$\x7bname\x7d:$\x7bmessage\x7d')\x7d"

end NonLevel

/-- The sorts of failure. -/
inductive FaultKind where
  | validation
  | notFound
  | accessDenied
  | noPath
  | badValue
  | badType
  | missingPart
  | missingField
  | missingItem
  | outOfRange
  | unencodable
  | badParameter
  | query
  | integrity
  | unreadable
  | nesting
  deriving DecidableEq

/-- The causes of failure. -/
inductive Fault where
  /-- A text that is no property path. -/
  | path (fault : PathFault)
  /-- A filter that cannot be compiled. -/
  | filter (fault : FilterFault)
  /-- A condition that cannot be evaluated. -/
  | evaluation (fault : EvalFault)
  /-- A condition on the properties of rows by a name that the query does not have. -/
  | unknownRowName (rowName : String)
  /-- A statement that cannot be read or carried out. -/
  | statement (fault : StatementFault)
  /-- A question about more principals than one query can ask for. -/
  | tooManyPrincipals
  /-- A row that the store does not take. -/
  | constraint (c : Constraint)
  /-- A value that cannot be handed to a query. -/
  | unbindable (fault : BindFault)
  /-- Stored properties that cannot be read. -/
  | unreadable (fault : Json.ReadError)
  /-- Properties that cannot be written. -/
  | unwritable (excess : Json.Excess)
  /-- A table without versions. -/
  | unversioned (table : Json)
  /-- A hop in no single direction. -/
  | hopDirection (value : Json)
  /-- A direction that does not exist. -/
  | direction (value : Json)
  | depthNotAnInteger
  | depthOutOfRange
  | badLimit
  /-- A limit of a query that is no integer in any form. -/
  | limitNotAnInteger
  /-- A change to something that is deleted. -/
  | deleted (resource : Resource) (id : Json)
  | alreadyDeleted (resource : Resource) (id : Json)
  | notDeleted (resource : Resource) (id : Json)
  | memberType (value : Json)
  /-- A group as a member of itself. -/
  | memberOfItself
  /-- A resource that is not there, by the id that was asked for. -/
  | notFound (resource : Resource) (id : Json)
  /-- A link without an entity at its source or target. -/
  | endpointNotFound (isSource : Bool) (id : Json)
  | accessDenied (actor : Json) (permission : Permission) (resourceId : Json)
  | noPath (source target : String) (maxDepth : Int)
  /-- A value put to a use that it does not have. -/
  | misuse (fault : Misuse)
  | principal (fault : PrincipalFault)
  | permissionName (value : Json)
  | integer (fault : IntegerFault)
  /-- An argument that is no JSON text. -/
  | badJson (field : String) (fault : Json.ReadError)
  | aclNotAList
  | badAcl (complaints : List Acl.Complaint)
  /-- A setting that must be positive. -/
  | notPositive (setting : String)
  /-- A setting that must be a depth. -/
  | notADepth (setting : String)
  | logFormat
  /-- A logging level that is none. -/
  | logLevel (level : NonLevel)

namespace Fault

def actorName (actor : Json) : LooseText :=
  match actor with
  | .null => "anonymous"
  | user => "user:" ++ user.shown

def message : Fault → LooseText
  | path fault => fault.message
  | filter fault => fault.message
  | evaluation fault => fault.message
  | unknownRowName rowName => s!"no such column: {rowName}.properties"
  | statement fault => fault.message
  | tooManyPrincipals => "Expression tree is too large (maximum depth 1000)"
  | constraint c => c.message
  | unbindable fault => fault.message
  | unreadable fault => fault.message
  | unwritable excess => excess.writingMessage
  | unversioned table => "Not a versioned table: " ++ table.shown
  | hopDirection value => "Invalid direction: " ++ value.shown
  | direction value =>
    "Invalid direction '" ++ value.shown ++ "'. Must be one of: outbound, inbound, both"
  | depthNotAnInteger => "max_depth must be an integer"
  | depthOutOfRange => "max_depth must be between 0 and 10"
  | badLimit => "limit must be an integer between 1 and 100"
  | limitNotAnInteger => "datatype mismatch"
  | deleted resource id => resource.title ++ " " ++ id.shown ++ " is deleted; restore it first"
  | alreadyDeleted resource id => resource.title ++ " " ++ id.shown ++ " is already deleted"
  | notDeleted resource id => resource.title ++ " " ++ id.shown ++ " is not deleted"
  | memberType value => "Invalid member_type: " ++ value.shown
  | memberOfItself => "A group cannot be a member of itself"
  | notFound resource id => resource.title ++ " not found: " ++ id.shown
  | endpointNotFound isSource _ =>
    if isSource then "Source entity not found" else "Target entity not found"
  | accessDenied actor permission resourceId =>
    "Access denied: " ++ actorName actor ++ s!" lacks {permission.name} on " ++ resourceId.shown
  | noPath source target maxDepth =>
    (Report.noPath (.str source) (.str target) (.int maxDepth)).text
  | misuse fault => fault.message
  | principal fault => fault.message
  | permissionName value => s!"{value.shownInside} is not a valid Permission"
  | integer fault => fault.message
  | badJson field fault =>
    match fault with
    | .located _ _ _ _ => s!"Invalid JSON for {field}: {fault.message}"
    | .limit excess => excess.message
  | aclNotAList => "ACL entries must be a JSON list"
  | badAcl _ => "Invalid ACL entries"
  | notPositive setting => s!"{setting} must be positive"
  | notADepth setting => s!"{setting} must be between 0 and 10"
  | logFormat => "LOG_FORMAT must be 'json' or 'text'"
  | logLevel level => level.message

/-- The sort of failure that going beyond a limit of reading or writing is. -/
def excessKind : Json.Excess → FaultKind
  | .digits _ => .badValue
  | .nesting _ => .nesting

def misuseKind : Misuse → FaultKind
  | .missingField _ => .missingField
  | .noPosition _ => .missingItem
  | .noAttribute _ _ => .missingPart
  | _ => .badType

/-- The sort of failure that a text is which is no path. -/
def pathKind : PathFault → FaultKind
  | .indexTooLong _ => .badValue
  | .misuse fault => misuseKind fault
  | _ => .validation

def kind : Fault → FaultKind
  | path fault => pathKind fault
  | filter (.badPath fault) => pathKind fault
  | filter (.misuse fault) => misuseKind fault
  | filter _ => .validation
  | evaluation _ => .query
  | unknownRowName _ => .query
  | statement fault => if fault.concernsUse then .badParameter else .query
  | tooManyPrincipals => .query
  | constraint _ => .integrity
  | unbindable .outOfRange => .outOfRange
  | unbindable (.unencodable _ _) => .unencodable
  | unbindable (.unsupported _ _) => .badParameter
  | unreadable (.located _ _ _ _) => .unreadable
  | unreadable (.limit excess) => excessKind excess
  | unwritable excess => excessKind excess
  | unversioned _ => .badValue
  | hopDirection _ => .badValue
  | direction _ => .validation
  | depthNotAnInteger => .validation
  | depthOutOfRange => .validation
  | badLimit => .validation
  | limitNotAnInteger => .integrity
  | deleted _ _ => .validation
  | alreadyDeleted _ _ => .validation
  | notDeleted _ _ => .validation
  | memberType _ => .validation
  | memberOfItself => .validation
  | notFound _ _ => .notFound
  | endpointNotFound _ _ => .notFound
  | accessDenied _ _ _ => .accessDenied
  | noPath _ _ _ => .noPath
  | misuse fault => misuseKind fault
  | principal (.misuse fault) => misuseKind fault
  | principal _ => .badValue
  | permissionName _ => .badValue
  | integer _ => .badValue
  | badJson _ (.located _ _ _ _) => .validation
  | badJson _ (.limit excess) => excessKind excess
  | aclNotAList => .validation
  | badAcl _ => .validation
  | notPositive _ => .badValue
  | notADepth _ => .badValue
  | logFormat => .badValue
  | logLevel .messageFormat => .badValue
  | logLevel .formatStyles => .badType

/-- The part of a request that an invalid one is blamed on. -/
def field? : Fault → Option String
  | path _ => some "path"
  | filter fault => fault.field?
  | direction _ => some "direction"
  | depthNotAnInteger => some "max_depth"
  | depthOutOfRange => some "max_depth"
  | badLimit => some "limit"
  | memberType _ => some "member_type"
  | memberOfItself => some "member_id"
  | badJson field _ => some field
  | aclNotAList => some "entries"
  | badAcl _ => some "entries"
  | _ => none

def errors : Fault → List LooseText
  | badAcl complaints => complaints.map Acl.Complaint.message
  | _ => []

/-- The outward form of a cause, for those that callers handle. -/
def report? (f : Fault) : Option Report :=
  let message : Json := .str f.message
  match f.kind, f with
  | .validation, f =>
    some (.validation message (.ofText? f.field?) (.arr (f.errors.map Json.str)))
  | _, notFound resource id => some (.notFound message (.str resource.name) id)
  | _, endpointNotFound _ id => some (.notFound message (.str Resource.entity.name) id)
  | _, accessDenied actor permission resourceId =>
    some (.accessDenied message actor resourceId (.str permission.name))
  | _, noPath source target maxDepth =>
    some (.noPath (.str source) (.str target) (.int maxDepth))
  | _, _ => none

end Fault

end VersionedGraph
