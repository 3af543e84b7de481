import VersionedGraph.Acl.Canonical
import VersionedGraph.Command.Arguments
import VersionedGraph.Settings

/-!
# Commands

Four commands are given on the command line: a traversal, a shortest path, the compiled form of a
filter, and the digest of an access list. Each answers with indented JSON and exit status zero, or
with the report of what went wrong and status one. Wrong arguments end with status two and no
answer. Failures that have no report are passed on.
-/

namespace VersionedGraph

/-- A command with its arguments. -/
inductive Command where
  | traverse (request : TraversalRequest) (filter : Option String)
  | path (request : PathRequest)
  | compileFilter (expression : String) (rowName : Json)
  | aclHash (entries : String)

/-- What a command leaves behind. -/
structure Outcome where
  exit : Nat
  stdout : String

namespace Command

open Arguments

def traverseSpecs : List OptionSpec :=
  [⟨"--user", .text⟩, ⟨"--direction", .choice (Direction.all.map (·.name))⟩,
    ⟨"--max-depth", .integer⟩, ⟨"--link-type", .text⟩, ⟨"--entity-type", .text⟩,
    ⟨"--include-deleted", .flag⟩, ⟨"--return-paths", .flag⟩, ⟨"--filter", .text⟩]

def pathSpecs : List OptionSpec :=
  [⟨"--user", .text⟩, ⟨"--max-depth", .integer⟩, ⟨"--link-type", .text⟩,
    ⟨"--include-deleted", .flag⟩]

def positional (p : Parsed) (place : Nat) : Json :=
  p.positionals[place]?.getD .null

def positionalText (p : Parsed) (place : Nat) : String :=
  (positional p place).text?.getD ""

def readTraverse (args : List String) : Except Refusal Command := do
  let p ← parse traverseSpecs 1 args
  let filter := (p.value "--filter").text?.filter fun s => !s.isEmpty
  return .traverse
    { start := positional p 0
      user := p.value "--user"
      direction := p.value "--direction" (.str Direction.outbound.name)
      maxDepth := p.value "--max-depth"
      linkTypes := .arr (p.all "--link-type")
      entityTypes := .arr (p.all "--entity-type")
      includeDeleted := p.has "--include-deleted"
      allPaths := p.has "--return-paths" } filter

def readPath (args : List String) : Except Refusal Command := do
  let p ← parse pathSpecs 2 args
  return .path
    { source := positional p 0
      target := positional p 1
      user := p.value "--user"
      maxDepth := p.value "--max-depth"
      linkTypes := .arr (p.all "--link-type")
      includeDeleted := p.has "--include-deleted" }

def readNamed (name : String) (args : List String) : Except Refusal Command :=
  match name with
  | "traverse" => readTraverse args
  | "path" => readPath args
  | "compile-filter" => do
    let p ← parse [⟨"--alias", .text⟩] 1 args
    return .compileFilter (positionalText p 0) (p.value "--alias" (.str Kind.entity.rowName))
  | "acl-hash" => do
    let p ← parse [] 1 args
    return .aclHash (positionalText p 0)
  | _ => .error .usage

def globalSpecs : List OptionSpec :=
  [⟨"--db", .text⟩]

/-- The place of the store, if one is given, and the command. The arguments of a command begin right
after its name. -/
def readTokens : (db : Option String) → List (Token × String) →
    Except Refusal (Option String × Command)
  | db, (.value, name) :: rest => do return (db, ← readNamed name (rest.map Prod.snd))
  | _, (.option spec (some attached), _) :: rest => do
    readTokens (← spec.kind.take (valueOf attached)).text? rest
  | _, (.option _ none, _) :: (.value, v) :: rest => readTokens (some v) rest
  | _, (.help, _) :: _ => .error .help
  | db, (.unknown, _) :: rest => do
    let _ ← readTokens db rest
    .error .usage
  | _, _ => .error .usage

/-- The place of the store, if one is given, and the command that a command line stands for. -/
def read (args : List String) : Except Refusal (Option String × Command) := do
  readTokens none (← tokenize globalSpecs args)

def readJson (field text : String) : Except Fault Json :=
  (Json.read text).mapError (.badJson field)

def readFilter (text : String) : Except Fault FilterExpr := do
  (FilterExpr.ofJson (← readJson "filter" text)).mapError .filter

/-- The digest of a list of access entries and their number. -/
def answerAclHash (entries : Json) : Except Fault Json :=
  match entries with
  | .arr items =>
    match Acl.complaints items with
    | [] => do
      let digest ← (items.mapM AclDraft.ofJson >>= Acl.digest).mapError .misuse
      return .obj [("hash", .str digest), ("entries", .int items.length)]
    | complaints => .error (.badAcl complaints)
  | _ => .error .aclNotAList

def answer (store : Store) (settings : Settings) : Command → Except Fault Json
  | traverse request filter => do
    let request := { request with entityFilter := ← filter.mapM readFilter }
    return (← store.traverse settings.search.toSettings request).toJson
  | path request => do
    return (← store.shortestPath settings.search.toSettings (.ofStore store) request).toJson
  | compileFilter expression rowName => do
    let compiled ← ((← readFilter expression).compile rowName).mapError .filter
    return .obj
      [("predicate", .str compiled.predicate),
        ("parameters", .arr (compiled.parameters.map Scalar.toJson))]
  | aclHash entries => do answerAclHash (← readJson "entries" entries)

/-- What is printed for an answer: indented, with a line feed at the end. -/
def printed (v : Json) : String :=
  Json.indentedText v ++ "\n"

/-- What a command leaves behind, or a failure that has no report. -/
def outcome (store : Store) (settings : Settings) (c : Command) : Except Fault Outcome :=
  match c.answer store settings with
  | .ok v => .ok ⟨0, printed v⟩
  | .error f =>
    match f.report? with
    | some report => .ok ⟨1, printed report.toJson⟩
    | none => .error f

def refused : Refusal → Outcome
  | .usage => ⟨2, ""⟩
  | .help => ⟨0, ""⟩

/-- What a command line leaves behind in an environment and with a store. The settings are read only
when the arguments are right, and logging is set up before the command is carried out. -/
def run (store : Store) (env : Environment) (args : List String) : Except Fault Outcome :=
  match read args with
  | .error refusal => .ok (refused refusal)
  | .ok (_, command) => do
    let settings ← Settings.ofEnvironment env
    settings.log.check
    command.outcome store settings

end Command

end VersionedGraph
