import VersionedGraph.Json.Shown

/-!
# Reports

A report is the outward form of a failure that a caller is meant to handle: a message, a code to
branch on, and details whose fields depend on the code. Whoever reports a failure says what its
parts are, so they may be any values.
-/

namespace VersionedGraph

/-- A failure as it is reported. -/
structure Report where
  message : Json
  code : Json
  details : Json

namespace Report

/-- A report without a kind; a code or details that hold nothing count as none. -/
def general (message code details : Json) : Report :=
  ⟨message, code.orElse (.str "GRUFF_ERROR"), details.orElse (.obj [])⟩

/-- The report of a request that is refused for what it says. -/
def validation (message field errors : Json) : Report :=
  ⟨message, .str "VALIDATION_ERROR", .obj [("field", field), ("errors", errors.orElse (.arr []))]⟩

def notFound (message resourceType resourceId : Json) : Report :=
  ⟨message, .str "NOT_FOUND",
    .obj [("resource_type", resourceType), ("resource_id", resourceId)]⟩

def accessDenied (message actor resourceId requiredPermission : Json) : Report :=
  ⟨message, .str "ACCESS_DENIED",
    .obj [("actor", actor), ("resource_id", resourceId),
      ("required_permission", requiredPermission)]⟩

def noPath (source target maxDepth : Json) : Report :=
  ⟨.str "No path found between the specified entities", .str "NO_PATH_FOUND",
    .obj [("from", source), ("to", target), ("max_depth", maxDepth)]⟩

def text (r : Report) : LooseText :=
  r.message.shown

def toJson (r : Report) : Json :=
  .obj [("error", r.message), ("code", r.code), ("details", r.details)]

end Report

end VersionedGraph
