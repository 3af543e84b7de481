import VersionedGraph.Statement.Insertion
import VersionedGraph.Store.Write

/-!
# Rows by table

A row can be added by hand to the table of a name. It comes as an object with a field for every
column: those of an entity if the name is exactly that of their table, or else those of a link.

Any name that is not exactly that of a table becomes part of the text of a statement, as it is. So
it may have blanks, quotes and comments, may be in any case and may say where the table is to be
looked for; but it may also name a table that lacks the columns of a link, or make a statement that
cannot be read or gives other values than those of the row.
-/

namespace VersionedGraph

namespace Kind

def columnNames (k : Kind) : List String :=
  let ends := match k with
    | entity => []
    | link => ["source_entity_id", "target_entity_id"]
  ["id", "type_id"] ++ ends ++
    ["properties", "version", "previous_version_id", "created_at", "created_by", "is_deleted",
      "is_latest", "acl_id"]

end Kind

namespace Columns

/-- The endpoints given by the fields of an object, all of which must be there. -/
def readEnds (data : Json) : (k : Kind) → Except Misuse (k.Ends Json)
  | .entity => .ok ()
  | .link => do
    let source ← data.part (.str "source_entity_id")
    return ⟨source, ← data.part (.str "target_entity_id")⟩

/-- The columns given by the fields of an object, all of which must be there. -/
def read (k : Kind) (data : Json) : Except Misuse (Columns k) := do
  let id ← data.part (.str "id")
  let typeId ← data.part (.str "type_id")
  let ends ← readEnds data k
  let properties ← data.part (.str "properties")
  let version ← data.part (.str "version")
  let previous ← data.part (.str "previous_version_id")
  let createdAt ← data.part (.str "created_at")
  let createdBy ← data.part (.str "created_by")
  let isDeleted ← data.part (.str "is_deleted")
  let isLatest ← data.part (.str "is_latest")
  let acl ← data.part (.str "acl_id")
  return { id, typeId, ends, properties, version, previous, createdAt, createdBy, isDeleted,
           isLatest, acl }

/-- The columns given one by one, by names in lower case. Of a column that is given twice the first
counts, and one that is not given has its default. -/
def ofGiven (k : Kind) (given : List (String × Json)) : Columns k :=
  let value (column : String) (default : Json) : Json := (given.lookup column).getD default
  { id := value "id" .null
    typeId := value "type_id" .null
    ends := match k with
      | .entity => ()
      | .link => ⟨value "source_entity_id" .null, value "target_entity_id" .null⟩
    properties := value "properties" (.str "")
    version := value "version" .null
    previous := value "previous_version_id" .null
    createdAt := value "created_at" .null
    createdBy := value "created_by" .null
    isDeleted := value "is_deleted" (.bool false)
    isLatest := value "is_latest" (.bool true)
    acl := value "acl_id" .null }

end Columns

/-- A table by its name and columns. Only those of a kind have rows that a statement adds. -/
structure Table where
  name : String
  columns : List String
  kind : Option Kind := none

namespace Table

def ofKind (k : Kind) : Table :=
  ⟨k.table, k.columnNames, some k⟩

def all : List Table :=
  [ofKind .entity, ofKind .link, ⟨"acls", ["id", "hash", "created_at"], none⟩,
    ⟨"acl_entries", ["acl_id", "principal_type", "principal_id", "permission"], none⟩,
    ⟨"groups", ["id", "name", "description", "created_at", "created_by"], none⟩,
    ⟨"group_members", ["group_id", "member_type", "member_id", "created_at"], none⟩,
    ⟨"schema_version", ["version", "applied_at"], none⟩,
    ⟨"sqlite_sequence", ["name", "seq"], none⟩]

/-- The tables that list the tables themselves, by place and name, each with its proper name. -/
def catalogues : List ((String × String) × String) :=
  [(("main", "sqlite_master"), "sqlite_master"), (("main", "sqlite_schema"), "sqlite_master"),
    (("temp", "sqlite_temp_master"), "sqlite_temp_master"),
    (("temp", "sqlite_temp_schema"), "sqlite_temp_master"),
    (("temp", "sqlite_master"), "sqlite_temp_master"),
    (("temp", "sqlite_schema"), "sqlite_temp_master")]

/-- The tables that are computed, which are found in every place. -/
def computed : List String :=
  ["json_each", "json_tree", "dbstat", "sqlite_stmt", "fts3tokenize"]

/-- The table that is meant by a name, in any case, in one of the two places that there are or in
both of them. -/
def find (target : Statement.Target) : Except StatementFault Table :=
  let name := Text.lowerAscii target.table
  let places := match target.place with
    | some place => [Text.lowerAscii place]
    | none => ["main", "temp"]
  let known := if places.contains "main" then all.find? (·.name = name) else none
  let catalogue := places.findSome? fun place => catalogues.lookup (place, name)
  match known, catalogue with
  | some table, _ => .ok table
  | none, some proper => .error (.readOnlyTable proper)
  | none, none =>
    if computed.contains name then .error (.readOnlyTable name)
    else .error (.unknownTable target.qualified)

theorem find_table (k : Kind) (name : Option String) :
    find ⟨none, k.table, name⟩ = .ok (ofKind k) := by
  have hlower : Text.lowerAscii k.table = k.table := by cases k <;> decide +kernel
  simp only [find, hlower]
  cases k <;> simp [all, ofKind, Kind.table]

def rowNumberNames : List String :=
  ["rowid", "_rowid_", "oid"]

def hasColumn (t : Table) (column : String) : Bool :=
  (t.columns ++ rowNumberNames).contains (Text.lowerAscii column)

end Table

namespace Statement

namespace Insertion

/-- Fails unless every row has as many values as there are columns to take them. -/
def checkLength (i : Insertion) (t : Table) : Except StatementFault Unit :=
  let lengths := i.rows.map List.length
  let length := lengths.head?.getD 0
  if lengths.any (· ≠ length) then .error .unevenRows
  else
    match i.columns with
    | some columns =>
      if length = columns.length then .ok () else .error (.rowLength length columns.length)
    | none =>
      if length = 0 || length = t.columns.length then .ok ()
      else .error (.tableWidth i.target.shown t.columns.length length)

/-- The table of an insertion that can be carried out with a number of values handed over. -/
def resolve (i : Insertion) (handed : Nat) : Except StatementFault Table := do
  let t ← Table.find i.target
  if let some column := (i.columns.getD []).find? (!t.hasColumn ·) then
    throw (.unknownColumn i.target.shown column)
  if let some fault := i.rows.findSome? (·.findSome? Slot.fault?) then throw fault
  i.checkLength t
  if i.isFollowed then throw .several
  if i.parameters ≠ handed then throw (.parameterCount i.parameters handed)
  return t

/-- What the columns of a table are given for every row, by names in lower case. -/
def given (i : Insertion) (t : Table) (handed : List Json) : List (List (String × Json)) :=
  let columns := (i.columns.getD t.columns).map Text.lowerAscii
  let value : Slot → Json
    | .own value => value
    | .handed number => handed[number - 1]?.getD .null
    | .stray _ => .null
  let rows := if i.rows.isEmpty then [[]] else i.rows
  rows.map fun row => columns.zip (row.map value)

end Insertion

/-- The text of the statement that adds a row to the table of a name, behind its first two words. -/
def insertionText (table : LooseText) (columns : List String) : LooseText :=
  " " ++ table ++ (" (" ++ String.intercalate ", " columns ++ ") VALUES (" ++
    String.intercalate ", " (columns.map fun _ => "?") ++ ")")

/-- The insertion that the text of a statement gives, which must be a proper text without null
characters. -/
def readInsertion (table : LooseText) (columns : List String) : Except Fault Insertion :=
  let start : LooseText := "INSERT INTO"
  let text := insertionText table columns
  match (start ++ text).firstHalves? with
  | some (position, halves) => .error (.unbindable (.unencodable position halves))
  | none =>
    let text := text.replaced
    if text.contains (Char.ofNat 0) then .error (.statement .nullCharacter)
    else (Insertion.read text).mapError .statement

end Statement

namespace Action

def insertRead (k : Kind) (data : Json) : Action Unit := do
  let columns ← ((Columns.read k data).mapError .misuse : Except Fault _)
  insertRow columns

/-- Carries out an insertion with values handed over. All its rows are added or none. -/
def insertGiven (i : Statement.Insertion) (handed : List Json) : Action Unit := do
  let t ← ((i.resolve handed.length).mapError .statement : Except Fault _)
  Json.handOver handed
  match t.kind with
  | none => return ()
  | some k => atomically ((i.given t handed).forM fun given => insertRow (Columns.ofGiven k given))

/-- Adds the row given by an object to the table that a value names. -/
def insertInto (table data : Json) : Action Unit :=
  match table.text?.bind Kind.ofTable? with
  | some k => insertRead k data
  | none => do
    let columns ← ((Columns.read .link data).mapError .misuse : Except Fault _)
    let insertion ← Statement.readInsertion table.shown (Kind.columnNames .link)
    insertGiven insertion columns.parameters

end Action

end VersionedGraph
