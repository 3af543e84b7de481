import VersionedGraph.Json.Basic
import VersionedGraph.Number.Integer

/-!
# Command line arguments

A command takes a fixed number of positional arguments and some options. The name of an option may
be shortened as long as it is clear which one is meant; its value follows as the next argument or
after an equals sign. Two dashes alone end the options. What begins with a dash is not an option if
it is a single dash, looks like a negative number, or has a blank in it and names none.

Arguments are taken from the left, and a value is refused as soon as it is met: help that is asked
for after a wrong value is not given, but help that is asked for before it is.

Two dashes are dropped also where they are meant as a value, so an argument may be there and yet
have no text. It is handed on as an empty list.
-/

namespace VersionedGraph

namespace Arguments

/-- What an option takes: nothing, any text, the text of an integer, or one of some names. -/
inductive OptionKind where
  | flag
  | text
  | integer
  | choice (names : List String)

/-- An option by its name with dashes, and what it takes. -/
structure OptionSpec where
  name : String
  kind : OptionKind

/-- Why arguments are not carried out: they are wrong, or help is asked for instead. -/
inductive Refusal where
  | usage
  | help
  deriving DecidableEq

/-- What an argument is taken for. An option may have its value attached. -/
inductive Token where
  | value
  | dashes
  | option (spec : OptionSpec) (attached : Option String)
  | help
  | unknown

def helpSpecs : List OptionSpec :=
  [⟨"-h", .flag⟩, ⟨"--help", .flag⟩]

def withoutLineEnd (cs : List Char) : List Char :=
  if cs.getLast? = some '\n' then cs.dropLast else cs

/-- Whether a text is a dash and digits, possibly with a point before the last run of them. A line
feed at its end is overlooked. -/
def isNegativeNumber (s : String) : Bool :=
  match withoutLineEnd s.toList with
  | '-' :: rest =>
    let isDigit (c : Char) : Bool := (Text.digitValue? c).isSome
    match rest.dropWhile isDigit with
    | [] => !rest.isEmpty
    | '.' :: fraction => !fraction.isEmpty && fraction.all isDigit
    | _ => false
  | _ => false

/-- The part before the first equals sign and the part after it, if there is one. -/
def splitEquals (s : String) : String × Option String :=
  let cs := s.toList
  match cs.dropWhile (· ≠ '=') with
  | [] => (s, none)
  | _ :: rest => (String.ofList (cs.takeWhile (· ≠ '=')), some (String.ofList rest))

/-- Whether what is attached to an option only asks for help over again, as the short option does
when its letter is repeated. -/
def repeatsHelp (spec : OptionSpec) (attached : String) : Bool :=
  spec.name = "-h" && !attached.isEmpty && attached.all (· = 'h')

def optionToken (spec : OptionSpec) (attached : Option String) : Token :=
  if helpSpecs.any (·.name = spec.name) && attached.all (repeatsHelp spec) then .help
  else .option spec attached

def classify (specs : List OptionSpec) (arg : String) : Except Refusal Token :=
  let specs := helpSpecs ++ specs
  let (name, attached) := splitEquals arg
  if !arg.startsWith "-" || arg = "-" then .ok .value
  else
    match specs.find? (·.name = arg), specs.find? (·.name = name) with
    | some spec, _ => .ok (optionToken spec none)
    | none, some spec => .ok (optionToken spec attached)
    | none, none =>
      if arg.startsWith "--" then
        match specs.filter fun spec => spec.name.startsWith name with
        | [spec] => .ok (optionToken spec attached)
        | [] => .ok (if arg.contains ' ' then .value else .unknown)
        | _ => .error .usage
      else if arg.startsWith "-h" then
        .ok (optionToken ⟨"-h", .flag⟩ (some (String.ofList (arg.toList.drop 2))))
      else if isNegativeNumber arg || arg.contains ' ' then .ok .value
      else .ok .unknown

/-- What the arguments are taken for, each with its text. After two dashes all are values. -/
def tokenize (specs : List OptionSpec) : List String → Except Refusal (List (Token × String))
  | [] => .ok []
  | arg :: rest =>
    if arg = "--" then .ok ((.dashes, arg) :: rest.map fun v => (.value, v))
    else do return (← classify specs arg, arg) :: (← tokenize specs rest)

/-- The value that a text stands for: two dashes stand for an empty list. -/
def valueOf (s : String) : Json :=
  if s = "--" then .arr [] else .str s

/-- The value that an option takes from what it is given. What has no text is not looked at. -/
def OptionKind.take (kind : OptionKind) (value : Json) : Except Refusal Json :=
  match kind, value.text? with
  | .flag, _ => .error .usage
  | .integer, some s => ((IntegerText.parse s).map Json.int).mapError fun _ => .usage
  | .choice names, some s => if names.contains s then .ok value else .error .usage
  | _, _ => .ok value

/-- The arguments of a command: options with their values in order, null for those that have none,
positional arguments, and whether there is something that has no place. -/
structure Parsed where
  options : List (String × Json) := []
  positionals : List Json := []
  leftover : Bool := false

def Parsed.withOption (p : Parsed) (name : String) (value : Json) : Parsed :=
  { p with options := (name, value) :: p.options }

def Parsed.withPositional (p : Parsed) (value : Json) : Parsed :=
  { p with positionals := value :: p.positionals }

/-- What stands directly before a token, as far as it matters: a positional argument, two dashes
that end the options in front of one, or anything else. -/
inductive Before where
  | other
  | positional
  | dashes
  deriving DecidableEq

/-- The arguments that tokens make up, when `need` positional arguments are still to come. Two
dashes that end the options are passed over next to a positional argument and have no place
elsewhere. A positional argument loses only one pair of dashes: if there is one in front of it that
does not belong to another argument, it keeps its own text. -/
def collect : (need : Nat) → (before : Before) → List (Token × String) → Except Refusal Parsed
  | _, _, [] => .ok {}
  | 0, _, (.value, _) :: rest => do return { ← collect 0 .other rest with leftover := true }
  | need + 1, before, (.value, v) :: rest => do
    let value := if before = .dashes then .str v else valueOf v
    return (← collect need .positional rest).withPositional value
  | need, before, (.dashes, _) :: rest =>
    if before = .positional then collect need .positional rest
    else if 0 < need && !rest.isEmpty then collect need .dashes rest
    else do return { ← collect need .other rest with leftover := true }
  | _, _, (.help, _) :: _ => .error .help
  | need, _, (.unknown, _) :: rest => do return { ← collect need .other rest with leftover := true }
  | need, _, (.option spec (some attached), _) :: rest => do
    let value ← spec.kind.take (valueOf attached)
    return (← collect need .other rest).withOption spec.name value
  | need, _, (.option ⟨name, .flag⟩ none, _) :: rest => do
    return (← collect need .other rest).withOption name .null
  | need, _, (.option spec none, _) :: (.value, v) :: rest => do
    let value ← spec.kind.take (.str v)
    return (← collect need .other rest).withOption spec.name value
  | _, _, (.option _ none, _) :: _ => .error .usage

def parse (specs : List OptionSpec) (need : Nat) (args : List String) : Except Refusal Parsed := do
  let parsed ← collect need .other (← tokenize specs args)
  if parsed.leftover || parsed.positionals.length ≠ need then .error .usage else return parsed

namespace Parsed

def all (p : Parsed) (name : String) : List Json :=
  (p.options.filter fun o => o.1 = name).map Prod.snd

/-- The value of an option, the last one if there are several, or a default. -/
def value (p : Parsed) (name : String) (default : Json := .null) : Json :=
  (p.all name).getLast?.getD default

def has (p : Parsed) (name : String) : Bool :=
  p.options.any fun o => o.1 = name

end Parsed

end Arguments

end VersionedGraph
