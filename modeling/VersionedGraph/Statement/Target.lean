import VersionedGraph.Statement.Fault
import VersionedGraph.Statement.Token

/-!
# Targets

A statement names the table it is about, perhaps with the place where it is looked for in front, and
perhaps with another name for it behind. Every reader here takes what it reads from the front of the
tokens and hands on the rest; its fault is the first token with which the statement cannot go on.
-/

namespace VersionedGraph

namespace Statement

def outOfPlace : List Token → StatementFault
  | [] => .incomplete
  | t :: _ => if t.kind = .unknown then .unknownToken t.text else .misplaced t.text

def readName : List Token → Except StatementFault (String × List Token)
  | [] => .error .incomplete
  | t :: rest =>
    match t.name? with
    | some name => .ok (name, rest)
    | none => .error (outOfPlace (t :: rest))

def readSign (sign : String) : List Token → Except StatementFault (List Token)
  | [] => .error .incomplete
  | t :: rest => if t.isSign sign then .ok rest else .error (outOfPlace (t :: rest))

def beginsWith (sign : String) (tokens : List Token) : Bool :=
  tokens.head?.any (·.isSign sign)

def beginsWithWord (word : String) (tokens : List Token) : Bool :=
  tokens.head?.any (·.isWord word)

/-- The table of a statement: where it is looked for, its name, and the name that the statement
gives to it. -/
structure Target where
  place : Option String
  table : String
  givenName : Option String
  deriving DecidableEq

namespace Target

def qualified (t : Target) : String :=
  match t.place with
  | some place => place ++ "." ++ t.table
  | none => t.table

def shown (t : Target) : String :=
  t.givenName.getD t.qualified

def read (tokens : List Token) : Except StatementFault (Target × List Token) := do
  let (first, rest) ← readName tokens
  let (place, table, rest) ←
    if beginsWith "." rest then do
      let (table, rest) ← readName (rest.drop 1)
      pure (some first, table, rest)
    else pure (none, first, rest)
  if beginsWithWord "AS" rest then do
    let (name, rest) ← readName (rest.drop 1)
    return (⟨place, table, some name⟩, rest)
  else return (⟨place, table, none⟩, rest)

end Target

end Statement

end VersionedGraph
