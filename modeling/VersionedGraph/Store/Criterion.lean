import VersionedGraph.Acl.Clause
import VersionedGraph.Filter.Compile
import VersionedGraph.Store.Basic
import VersionedGraph.Store.Parameter

/-!
# Criteria

What the rows of a query are asked to meet, one criterion for each column or filter. The criteria of
a row are checked in order and only until one fails, so a filter that cannot be evaluated does harm
only on rows that got that far.

Before any row is looked at, a query is refused when a compiled filter speaks of rows by a name that
is not there, or when a value that it needs cannot be handed over. What is asked of a column may be
any value, which is compared in the form that the column would keep.
-/

namespace VersionedGraph

/-- The document that stored properties are up to their first null character, if they are one that
filters can look into. -/
def queryDocument? (properties : String) : Option Json.Document :=
  match Json.Document.read .forQueries (Text.beforeNul properties) with
  | .ok d => if d.isStrict then some d else none
  | .error _ => none

def Condition.holdsOn (c : Condition) (properties : String) : Except Fault Bool :=
  (c.holds (queryDocument? properties)).mapError .evaluation

namespace CompiledFilter

/-- Refuses filters on rows of a name that is not among the given ones. -/
def checkRowName (names : List String) (c : CompiledFilter) : Except Fault Unit :=
  if c.isEmpty || names.contains c.rowName then .ok () else .error (.unknownRowName c.rowName)

/-- Whether the filter, if it constrains at all, is true of stored properties. -/
def holdsOn (c : CompiledFilter) (properties : String) : Except Fault Bool :=
  match c.condition? with
  | none => .ok true
  | some condition => condition.holdsOn properties

end CompiledFilter

namespace Json

def isColumnText (value : Json) (content : Option String) : Bool :=
  content.isSome && value.columnText? = content

/-- The order of a column for integers relative to a value, unless the value counts as nothing. -/
def cellOrder? (value : Json) (content : Cell) : Option Ordering :=
  content.toScalar.compare? value.handedScalar.numeric

@[simp] theorem isColumnText_str (s : String) (content : Option String) :
    (Json.str s).isColumnText content = decide (content = some s) := by
  cases content <;> simp [isColumnText, eq_comm]

@[simp] theorem cellOrder?_int (m n : Int) :
    (Json.int n).cellOrder? (.integer m) = some (compare m n) := rfl

end Json

/-- Something that rows of a kind may be asked to meet. -/
inductive Criterion : Kind → Type where
  | typeIs {k : Kind} (id : Json) : Criterion k
  | typeAmong {k : Kind} (ids : List Json) : Criterion k
  | createdBy {k : Kind} (actor : Json) : Criterion k
  | createdFrom {k : Kind} (time : Json) : Criterion k
  | createdUntil {k : Kind} (time : Json) : Criterion k
  | undeleted {k : Kind} : Criterion k
  | sourceIs (id : Json) : Criterion .link
  | targetIs (id : Json) : Criterion .link
  | properties {k : Kind} (filter : CompiledFilter) : Criterion k
  | access {k : Kind} (clause : AclClause Int) : Criterion k

namespace Criterion

def bound {k : Kind} : Criterion k → List Json
  | typeIs id => [id]
  | typeAmong ids => ids
  | createdBy actor => [actor]
  | createdFrom time => [time]
  | createdUntil time => [time]
  | undeleted => []
  | sourceIs id => [id]
  | targetIs id => [id]
  | properties filter => filter.parameters.map Scalar.toJson
  | access clause => clause.bindings.map Json.int

def checkRowName {k : Kind} : Criterion k → Except Fault Unit
  | properties filter => filter.checkRowName [k.rowName]
  | _ => .ok ()

/-- Whether a criterion looks into the properties of a row and not only at its columns. -/
def isOnProperties {k : Kind} : Criterion k → Bool
  | properties _ => true
  | _ => false

def holds {k : Kind} (c : Criterion k) (row : ListedRow k) : Except Fault Bool :=
  match k, c, row with
  | _, typeIs id, row => .ok (id.isColumnText (some row.typeId))
  | _, typeAmong ids, row => .ok (ids.any fun id => id.isColumnText (some row.typeId))
  | _, createdBy actor, row => .ok (actor.isColumnText row.createdBy)
  | _, createdFrom time, row => .ok ((time.cellOrder? row.createdAt).any (· ≠ .lt))
  | _, createdUntil time, row => .ok ((time.cellOrder? row.createdAt).any (· ≠ .gt))
  | _, undeleted, row => .ok (!row.isDeleted)
  | _, sourceIs id, row => .ok (id.isColumnText (some row.ends.source))
  | _, targetIs id, row => .ok (id.isColumnText (some row.ends.target))
  | _, properties filter, row => filter.holdsOn row.properties
  | _, access clause, row => .ok (clause.permits row.acl)

/-- Whether a row meets all criteria, checked in order until one fails. -/
def allHold {k : Kind} (row : ListedRow k) : List (Criterion k) → Except Fault Bool
  | [] => .ok true
  | c :: rest => do if ← c.holds row then allHold row rest else return false

theorem exists_holds_eq_ok {k : Kind} {c : Criterion k} (row : ListedRow k)
    (h : c.isOnProperties = false) : ∃ b, c.holds row = .ok b := by
  cases c with
  | properties filter => simp [isOnProperties] at h
  | _ => exact ⟨_, rfl⟩

end Criterion

/-- The items for which a test that may fail is true. -/
def selectM {α : Type} (test : α → Except Fault Bool) : List α → Except Fault (List α)
  | [] => .ok []
  | a :: rest => do
    let keep ← test a
    let kept ← selectM test rest
    return if keep then a :: kept else kept

/-- With a test that does not fail the items are a plain selection. -/
theorem selectM_eq_filter {α : Type} {test : α → Except Fault Bool} {p : α → Bool} {items : List α}
    (h : ∀ a ∈ items, test a = .ok (p a)) : selectM test items = .ok (items.filter p) := by
  induction items with
  | nil => rfl
  | cons a rest ih =>
    have hrest := ih fun b hb => h b (List.mem_cons_of_mem a hb)
    simp only [selectM, h a List.mem_cons_self, hrest, List.filter_cons]
    rfl

end VersionedGraph
