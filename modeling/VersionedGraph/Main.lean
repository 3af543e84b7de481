import VersionedGraph.Command.Run
import VersionedGraph.Store.Snapshot

/-!
# The command line program

Reads the environment and the snapshot of the store, runs the command, and prints what it leaves
behind. A snapshot that is not there yet is an empty store.
-/

namespace VersionedGraph

namespace Program

def settingNames : List String :=
  ["GRUFF_DB_PATH", "SQLITE_WAL_MODE", "SQLITE_BUSY_TIMEOUT_MS", "SQLITE_CACHE_SIZE",
    "ACL_MAX_IN_CLAUSE_IDS", "TRAVERSAL_DEFAULT_DEPTH", "SHORTEST_PATH_DEFAULT_DEPTH", "LOG_LEVEL",
    "LOG_FORMAT"]

def readEnvironment : IO Environment := do
  let pairs ← settingNames.mapM fun name => do return (name, ← IO.getEnv name)
  return fun name => (pairs.lookup name).join

def readStore (path : String) : IO (Except Fault Store) := do
  try
    let text ← IO.FS.readFile path
    return (Json.read text).mapError Fault.unreadable >>= Snapshot.load
  catch _ => return .ok Store.empty

/-- Where the store is kept: as the command line says, or else as the settings say. -/
def storePath (env : Environment) (args : List String) : String :=
  let configured := env.text "GRUFF_DB_PATH" ({} : StorageSettings).path
  match Command.read args with
  | .ok (some path, _) => if path.isEmpty then configured else path
  | _ => configured

/-- Runs a command line in the environment of the process and on the store it names. -/
def run (args : List String) : IO UInt32 := do
  let env ← readEnvironment
  match (← readStore (storePath env args)) >>= fun store => Command.run store env args with
  | .ok outcome =>
    IO.print outcome.stdout
    return outcome.exit.toUInt32
  | .error f =>
    IO.eprintln f.message.replaced
    return 1

end Program

end VersionedGraph

def main (args : List String) : IO UInt32 :=
  VersionedGraph.Program.run args
