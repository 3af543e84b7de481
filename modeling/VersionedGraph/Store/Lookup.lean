import VersionedGraph.Store.Criterion

/-!
# Ways of finding rows

The rows of a query are found by one of their columns, if a criterion says what is in it, and are
then checked for the rest. Which rows a query lists does not depend on how they are found. What
depends on it is the order in which rows are looked at, and whether access is checked before the
properties are: both decide which rows a filter is evaluated on.

Rows that are found by age are looked at newest first, and no further than the limit asks for:
`selectUntil` ends at the first row to be listed that is older than enough others.
-/

namespace VersionedGraph

/-- The column that rows are found by, if any. -/
inductive Lookup where
  | type
  | source
  | target
  | access
  | age
  | insertion
  deriving DecidableEq

namespace Lookup

/-- Whether rows can be found in this way when they must meet a criterion. -/
def serves {k : Kind} : Lookup → Criterion k → Bool
  | type, .typeIs _ => true
  | source, .sourceIs _ => true
  | target, .targetIs _ => true
  | access, .access clause => clause.isInline
  | _, _ => false

/-- The ways of finding rows of a kind, preferred ones first. Links are found by an endpoint rather
than by type as long as deleted ones are left out. -/
def preferred : (k : Kind) → (undeletedOnly : Bool) → List Lookup
  | .entity, _ => [type, access]
  | .link, true => [target, source, type, access]
  | .link, false => [type, target, source, access]

/-- The way of finding rows of a kind when there is nothing to find them by. -/
def otherwise : Kind → Lookup
  | .entity => age
  | .link => insertion

def leavesDeletedOut {k : Kind} (criteria : List (Criterion k)) : Bool :=
  criteria.any fun
    | .undeleted => true
    | _ => false

def ofCriteria {k : Kind} (criteria : List (Criterion k)) : Lookup :=
  let ways := preferred k (leavesDeletedOut criteria)
  (ways.find? fun way => criteria.any way.serves).getD (otherwise k)

/-- The criteria in the order in which they are checked. Rows that are found by access are checked
for it before their properties are. -/
def arranged {k : Kind} (way : Lookup) (criteria : List (Criterion k)) : List (Criterion k) :=
  if way = access then
    criteria.filter (!·.isOnProperties) ++ criteria.filter (·.isOnProperties)
  else criteria

def aclAscends : Option Int → Option Int → Bool
  | none, _ => true
  | some _, none => false
  | some m, some n => m ≤ n

def inOrder {k : Kind} (way : Lookup) (rows : List (ListedRow k)) : List (ListedRow k) :=
  match way, k with
  | type, .link => rows
  | type, _ => rows.mergeSort fun a b => !a.isDeleted || b.isDeleted
  | source, _ => rows.mergeSort fun a b => !a.isDeleted || b.isDeleted
  | target, _ => rows.mergeSort fun a b => !a.isDeleted || b.isDeleted
  | access, _ => rows.mergeSort fun a b => aclAscends a.acl b.acl
  | age, _ => rows.reverse.mergeSort fun a b => b.createdAt.precedes a.createdAt
  | insertion, _ => rows

end Lookup

/-- The items for which a test that may fail is true, up to the first that is not tied with the last
one when there are as many as the limit. -/
def selectUntil {α : Type} (test : α → Except Fault Bool) (tied : α → α → Bool) (limit : Nat) :
    (taken : Nat) → (last : Option α) → List α → Except Fault (List α)
  | _, _, [] => .ok []
  | taken, last, a :: rest => do
    if ← test a then
      if limit ≤ taken && !last.any (tied a) then return []
      else return a :: (← selectUntil test tied limit (taken + 1) (some a) rest)
    else selectUntil test tied limit taken last rest

/-- A limit that leaves room for all items ends nothing early. -/
theorem selectUntil_eq_selectM {α : Type} (test : α → Except Fault Bool) (tied : α → α → Bool)
    {limit : Nat} (items : List α) {taken : Nat} (last : Option α)
    (h : taken + items.length ≤ limit) :
    selectUntil test tied limit taken last items = selectM test items := by
  induction items generalizing taken last with
  | nil => rfl
  | cons a rest ih =>
    simp only [List.length_cons] at h
    have room : ¬ limit ≤ taken := by omega
    simp only [selectUntil, selectM, room, decide_false, Bool.false_and]
    cases test a with
    | error f => rfl
    | ok keep =>
      cases keep with
      | true =>
        rw [← ih (some a) (by omega : taken + 1 + rest.length ≤ limit)]
        rfl
      | false =>
        rw [← ih last (by omega : taken + rest.length ≤ limit)]
        cases selectUntil test tied limit taken last rest <;> rfl

end VersionedGraph
