import VersionedGraph.Graph.Traversal

/-!
# Settings

All settings come from environment variables, and each has a default. The limits that keep requests
small are not among them. Variables are read one after another and the first that is no integer is
the fault; only then are the values themselves looked at.
-/

namespace VersionedGraph

/-- How the store is kept. -/
structure StorageSettings where
  path : String := "/var/lib/gruff/graph.db"
  walMode : Bool := true
  busyTimeout : Int := 5000
  cacheSize : Int := -64000

/-- The limits of searches. -/
structure SearchLimits where
  aclCap : Int := Acl.defaultCap
  traversalDepth : Int := 3
  shortestPathDepth : Int := maxSearchDepth

namespace SearchLimits

def toSettings (l : SearchLimits) : SearchSettings :=
  ⟨.int l.aclCap, .int l.traversalDepth, .int l.shortestPathDepth⟩

end SearchLimits

/-- What is logged and in which form. -/
structure LogSettings where
  level : String := "INFO"
  format : String := "json"

/-- Everything that can be set. -/
structure Settings where
  storage : StorageSettings := {}
  search : SearchLimits := {}
  log : LogSettings := {}

abbrev Environment := String → Option String

namespace Environment

def text (env : Environment) (name default : String) : String :=
  (env name).getD default

def integer (env : Environment) (name : String) (default : Int) : Except Fault Int :=
  match env name with
  | none => .ok default
  | some s => (IntegerText.parse s).mapError .integer

end Environment

namespace LogSettings

/-- The ASCII capitals that a character has, or itself. The dotless i, the long s and the ligatures
of s and t have such capitals too. -/
def capitals (c : Char) : List Char :=
  if c = Char.ofNat 0x131 then ['I']
  else if c = Char.ofNat 0x17F then ['S']
  else if c = Char.ofNat 0xFB05 || c = Char.ofNat 0xFB06 then ['S', 'T']
  else [c.toUpper]

def levelName (s : LogSettings) : String :=
  String.ofList (s.level.toList.flatMap capitals)

/-- Fails when logging cannot be set to the level. A name that stands for nothing counts as the
usual level, but two names stand for something else. -/
def check (s : LogSettings) : Except Fault Unit :=
  match [NonLevel.messageFormat, .formatStyles].find? fun n => n.name = s.levelName with
  | some nonLevel => .error (.logLevel nonLevel)
  | none => .ok ()

end LogSettings

namespace Settings

def isDepth (n : Int) : Bool :=
  0 ≤ n && n ≤ maxSearchDepth

def check (s : Settings) : Except Fault Unit :=
  if s.search.aclCap ≤ 0 then .error (.notPositive "ACL_MAX_IN_CLAUSE_IDS")
  else if !isDepth s.search.traversalDepth then .error (.notADepth "TRAVERSAL_DEFAULT_DEPTH")
  else if !isDepth s.search.shortestPathDepth then .error (.notADepth "SHORTEST_PATH_DEFAULT_DEPTH")
  else if s.log.format ≠ "json" && s.log.format ≠ "text" then .error .logFormat
  else .ok ()

def ofEnvironment (env : Environment) : Except Fault Settings := do
  let defaults : Settings := {}
  let storage : StorageSettings :=
    { path := env.text "GRUFF_DB_PATH" defaults.storage.path
      walMode := Text.lowerAscii (env.text "SQLITE_WAL_MODE" "true") = "true"
      busyTimeout := ← env.integer "SQLITE_BUSY_TIMEOUT_MS" defaults.storage.busyTimeout
      cacheSize := ← env.integer "SQLITE_CACHE_SIZE" defaults.storage.cacheSize }
  let search : SearchLimits :=
    { aclCap := ← env.integer "ACL_MAX_IN_CLAUSE_IDS" defaults.search.aclCap
      traversalDepth := ← env.integer "TRAVERSAL_DEFAULT_DEPTH" defaults.search.traversalDepth
      shortestPathDepth :=
        ← env.integer "SHORTEST_PATH_DEFAULT_DEPTH" defaults.search.shortestPathDepth }
  let log : LogSettings :=
    { level := env.text "LOG_LEVEL" defaults.log.level
      format := env.text "LOG_FORMAT" defaults.log.format }
  let settings : Settings := ⟨storage, search, log⟩
  settings.check
  return settings

def toJson (s : Settings) : Json :=
  .obj
    [("storage", .obj
        [("db_path", .str s.storage.path), ("wal_mode", .bool s.storage.walMode),
          ("busy_timeout_ms", .int s.storage.busyTimeout),
          ("cache_size_pages", .int s.storage.cacheSize)]),
      ("acl", .obj [("max_in_clause_ids", .int s.search.aclCap)]),
      ("traversal", .obj
        [("default_depth", .int s.search.traversalDepth),
          ("shortest_path_default_depth", .int s.search.shortestPathDepth)]),
      ("observability", .obj
        [("log_level", .str s.log.level), ("log_format", .str s.log.format)])]

def logged (s : Settings) : Json :=
  .obj
    [("db_path", .str s.storage.path), ("wal_mode", .bool s.storage.walMode),
      ("acl_max_in_clause_ids", .int s.search.aclCap),
      ("traversal_default_depth", .int s.search.traversalDepth),
      ("shortest_path_default_depth", .int s.search.shortestPathDepth),
      ("log_level", .str s.log.level)]

end Settings

end VersionedGraph
