import VersionedGraph.Fault

/-!
# Versions

Entities and links are never changed in place. Each write makes a new version, with an id of its
own, that names the version before it; the versions that follow one another in this way are a chain,
and one of them is marked as the latest. A link has two endpoints besides, each naming any version
of an entity.

A version is a row of the store with its properties as text, and a record once they have been read.
Every version that is written has an id. Rows that are added by hand may lack one; nothing names
them, so they turn up only in lists.

Both ends of the store see rows as `Columns`, plain values by column: a row is proposed as columns,
which may hold anything, and versions are handed out as columns, which hold what is stored.
-/

namespace VersionedGraph

/-- The two kinds of versioned things. -/
inductive Kind where
  | entity
  | link
  deriving DecidableEq

/-- What a link leads from and to. -/
structure Endpoints (α : Type) where
  source : α
  target : α
  deriving DecidableEq, Inhabited

namespace Kind

@[reducible] def Ends (α : Type) : Kind → Type
  | entity => Unit
  | link => Endpoints α

def table : Kind → String
  | entity => "entities"
  | link => "links"

def ofTable? (s : String) : Option Kind :=
  [entity, link].find? fun k => k.table = s

theorem ofTable?_table (k : Kind) : ofTable? k.table = some k := by
  cases k <;> rfl

def ofJson (table : Json) : Except Fault Kind :=
  match table.text?.bind ofTable? with
  | some k => .ok k
  | none => .error (.unversioned table)

def lookUp (table : Json) : Except Fault Kind := do
  let _ ← (Atom.ofJson table).mapError .misuse
  ofJson table

def rowName : Kind → String
  | entity => "e"
  | link => "l"

def other : Kind → Kind
  | entity => link
  | link => entity

def resource : Kind → Resource
  | entity => .entity
  | link => .link

def endIds : (k : Kind) → k.Ends String → List String
  | entity, _ => []
  | link, ends => [ends.source, ends.target]

def endValues : (k : Kind) → k.Ends String → k.Ends Json
  | entity, _ => ()
  | link, ends => ⟨.str ends.source, .str ends.target⟩

end Kind

/-- One version of an entity or link, with id, endpoints and properties of given types. -/
structure Version (ι ε π : Type) where
  id : ι
  typeId : String
  ends : ε
  properties : π
  version : Cell
  previous : Option String
  createdAt : Cell
  createdBy : Option String
  isDeleted : Bool
  isLatest : Bool
  acl : Option Int
  deriving DecidableEq, Inhabited

abbrev Row (k : Kind) := Version String (k.Ends String) String

/-- A version as it is handed out, its properties as a value. -/
abbrev Record (k : Kind) := Version String (k.Ends String) Json

abbrev UnnamedRow (k : Kind) := Version Unit (k.Ends String) String

abbrev ListedRow (k : Kind) := Version (Option String) (k.Ends String) String

/-- A version as it is handed out among others that may lack ids. -/
abbrev Listing (k : Kind) := Version (Option String) (k.Ends String) Json

namespace Version

variable {ι κ ε π ρ : Type}

def withId (v : Version ι ε π) (id : κ) : Version κ ε π :=
  ⟨id, v.typeId, v.ends, v.properties, v.version, v.previous, v.createdAt, v.createdBy, v.isDeleted,
    v.isLatest, v.acl⟩

def withProperties (v : Version ι ε π) (properties : ρ) : Version ι ε ρ :=
  ⟨v.id, v.typeId, v.ends, properties, v.version, v.previous, v.createdAt, v.createdBy, v.isDeleted,
    v.isLatest, v.acl⟩

def listed (v : Version String ε π) : Version (Option String) ε π :=
  v.withId (some v.id)

@[simp] theorem withId_id (v : Version ι ε π) (id : κ) : (v.withId id).id = id := rfl

@[simp] theorem withId_self (v : Version ι ε π) : v.withId v.id = v := rfl

@[simp] theorem withProperties_id (v : Version ι ε π) (properties : ρ) :
    (v.withProperties properties).id = v.id := rfl

@[simp] theorem withProperties_properties (v : Version ι ε π) (properties : ρ) :
    (v.withProperties properties).properties = properties := rfl

@[simp] theorem withProperties_self (v : Version ι ε π) : v.withProperties v.properties = v := rfl

@[simp] theorem listed_id (v : Version String ε π) : v.listed.id = some v.id := rfl

end Version

/-- The value of stored properties; an empty text stands for an empty object. -/
def readProperties (text : String) : Except Fault Json :=
  if text.isEmpty then .ok (.obj []) else (Json.read text).mapError .unreadable

def Version.decode {ι ε : Type} (row : Version ι ε String) : Except Fault (Version ι ε Json) := do
  return row.withProperties (← readProperties row.properties)

/-- A version by its columns, as plain values. -/
structure Columns (k : Kind) where
  id : Json
  typeId : Json
  ends : k.Ends Json
  /-- A document, or the text of one. -/
  properties : Json
  version : Json
  previous : Json
  createdAt : Json
  createdBy : Json
  isDeleted : Json
  isLatest : Json
  acl : Json

namespace Columns

def endFields : (k : Kind) → k.Ends Json → List (LooseText × Json)
  | .entity, _ => []
  | .link, ends => [("source_entity_id", ends.source), ("target_entity_id", ends.target)]

def fields {k : Kind} (c : Columns k) : List (LooseText × Json) :=
  ("id", c.id) :: ("type_id", c.typeId) :: ("properties", c.properties) ::
    ("version", c.version) :: ("previous_version_id", c.previous) :: ("created_at", c.createdAt) ::
    ("created_by", c.createdBy) :: ("is_deleted", c.isDeleted) :: ("is_latest", c.isLatest) ::
    ("acl_id", c.acl) :: endFields k c.ends

def toJson {k : Kind} (c : Columns k) : Json :=
  .obj c.fields

end Columns

namespace Listing

def columns {k : Kind} (r : Listing k) : Columns k where
  id := .ofText? r.id
  typeId := .str r.typeId
  ends := k.endValues r.ends
  properties := r.properties
  version := r.version.toJson
  previous := .ofText? r.previous
  createdAt := r.createdAt.toJson
  createdBy := .ofText? r.createdBy
  isDeleted := .bool r.isDeleted
  isLatest := .bool r.isLatest
  acl := .ofInt? r.acl

def toJson {k : Kind} (r : Listing k) : Json :=
  (columns r).toJson

end Listing

namespace Record

def columns {k : Kind} (r : Record k) : Columns k :=
  Listing.columns r.listed

def fields {k : Kind} (r : Record k) : List (LooseText × Json) :=
  (columns r).fields

def toJson {k : Kind} (r : Record k) : Json :=
  (columns r).toJson

end Record

def Row.columns {k : Kind} (r : Row k) : Columns k :=
  Record.columns (r.withProperties (.str r.properties))

end VersionedGraph
