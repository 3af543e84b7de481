import VersionedGraph.Store.Closure
import VersionedGraph.Store.Parameter
import VersionedGraph.Store.Version

/-!
# The store

The store holds the rows of both kinds in order of insertion, apart from them those without ids,
the access lists, whose ids are their places counted from one, and the groups with their
memberships.

Reading is a function of the store. Writing is an `Action`, which may fail at any point and leaves
what it has done so far; `atomically` undoes that.
-/

namespace VersionedGraph

/-- A stored access list: the digest of its canonical form and its entries. -/
structure AccessList where
  digest : String
  entries : List AclEntry
  deriving DecidableEq

/-- A named group of users and of other groups. One without an id is named by nothing else. -/
structure Group where
  id : Option String
  name : String
  description : Option String
  createdAt : Int
  createdBy : Option String
  deriving DecidableEq

/-- A principal's place in a group. -/
structure Membership where
  group : String
  member : Principal
  deriving DecidableEq

/-- Everything that is stored. -/
structure Store where
  entities : List (Row .entity) := []
  links : List (Row .link) := []
  unnamedEntities : List (UnnamedRow .entity) := []
  unnamedLinks : List (UnnamedRow .link) := []
  acls : List AccessList := []
  groups : List Group := []
  memberships : List Membership := []
  deriving DecidableEq, Inhabited

/-- A generated id and the time of a write. -/
structure Stamp where
  id : String
  time : Int

/-- A write to the store, which may fail on its way. -/
abbrev Action := ExceptT Fault (StateM Store)

/-- The write that leaves the store as it was when it fails. -/
def atomically {α : Type} (action : Action α) : Action α := fun s =>
  match action.run.run s with
  | (.ok a, s') => (.ok a, s')
  | (.error f, _) => (.error f, s)

theorem atomically_of_error {α : Type} {action : Action α} {s s' : Store} {f : Fault}
    (h : (atomically action).run.run s = (.error f, s')) : s' = s := by
  unfold atomically at h
  simp only [ExceptT.run, StateT.run] at h
  split at h
  · exact absurd (congrArg Prod.fst h) (by simp)
  · exact (congrArg Prod.snd h).symm

theorem atomically_of_ok {α : Type} {action : Action α} {s s' : Store} {a : α} :
    (atomically action).run.run s = (.ok a, s') ↔ action.run.run s = (.ok a, s') := by
  unfold atomically
  simp only [ExceptT.run, StateT.run]
  cases action s with
  | mk result t =>
    cases result with
    | ok b => exact Iff.rfl
    | error f =>
      constructor <;> intro e
      · exact absurd (congrArg Prod.fst e) (by simp)
      · exact absurd (congrArg Prod.fst e) (by simp)

namespace Store

def empty : Store := {}

def rows (s : Store) : (k : Kind) → List (Row k)
  | .entity => s.entities
  | .link => s.links

def withRows (s : Store) : (k : Kind) → List (Row k) → Store
  | .entity, rows => { s with entities := rows }
  | .link, rows => { s with links := rows }

@[simp] theorem rows_withRows (s : Store) (k : Kind) (rows : List (Row k)) :
    (s.withRows k rows).rows k = rows := by
  cases k <;> rfl

@[simp] theorem withRows_rows (s : Store) (k : Kind) : s.withRows k (s.rows k) = s := by
  cases k <;> rfl

theorem rows_withRows_of_ne {k l : Kind} (h : l ≠ k) (s : Store) (rows : List (Row k)) :
    (s.withRows k rows).rows l = s.rows l := by
  cases k <;> cases l
  · exact absurd rfl h
  · rfl
  · rfl
  · exact absurd rfl h

@[simp] theorem acls_withRows (s : Store) (k : Kind) (rows : List (Row k)) :
    (s.withRows k rows).acls = s.acls := by
  cases k <;> rfl

def unnamed (s : Store) : (k : Kind) → List (UnnamedRow k)
  | .entity => s.unnamedEntities
  | .link => s.unnamedLinks

def addUnnamed (s : Store) : (k : Kind) → UnnamedRow k → Store
  | .entity, row => { s with unnamedEntities := s.unnamedEntities ++ [row] }
  | .link, row => { s with unnamedLinks := s.unnamedLinks ++ [row] }

@[simp] theorem unnamed_withRows (s : Store) (k l : Kind) (rows : List (Row k)) :
    (s.withRows k rows).unnamed l = s.unnamed l := by
  cases k <;> cases l <;> rfl

@[simp] theorem rows_addUnnamed (s : Store) (k l : Kind) (row : UnnamedRow k) :
    (s.addUnnamed k row).rows l = s.rows l := by
  cases k <;> cases l <;> rfl

def listedRows (s : Store) (k : Kind) : List (ListedRow k) :=
  (s.rows k).map Version.listed ++ (s.unnamed k).map fun row => row.withId none

theorem listedRows_of_unnamed_eq_nil {s : Store} {k : Kind} (h : s.unnamed k = []) :
    s.listedRows k = (s.rows k).map Version.listed := by
  simp [listedRows, h]

def row? (s : Store) (k : Kind) (id : String) : Option (Row k) :=
  (s.rows k).find? fun r => r.id = id

def acl? (s : Store) (id : Int) : Option AccessList :=
  if 1 ≤ id then s.acls[(id - 1).toNat]? else none

def numberedAcls (s : Store) : List (Int × AccessList) :=
  s.acls.zipIdx.map fun a => ((a.2 : Int) + 1, a.1)

def group? (s : Store) (id : String) : Option Group :=
  s.groups.find? fun g => g.id = some id

end Store

end VersionedGraph
