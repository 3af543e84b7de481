import VersionedGraph.Proofs.Latest
import VersionedGraph.Proofs.Meaning

/-!
# Queries by compiled expressions

A query for latest rows with what an expression compiles to, up to a limit that leaves room for all
rows, lists exactly the rows that the expression holds on. That is so in two ways. The text of the
query's condition is read as a clause that is true of the latest rows on which the expression is
true, however deep its groups are and whatever children of them are void. And an answer of the
query, if it is not refused, is made of these rows.
-/

namespace VersionedGraph

namespace FilterExpr

variable {k : Kind} {t : FilterExpr} {c : CompiledFilter} {row : ListedRow k} {b : Bool}

/-- Whether an expression holds on a row: it constrains nothing, or it is true of the properties. -/
def HoldsOn (k : Kind) (t : FilterExpr) (row : ListedRow k) : Prop :=
  t.isVoid = true ∨
    ∃ d, queryDocument? row.properties = some d ∧ t.truth k ⟨row.isLatest, d⟩ = some true

/-- What each leaf on its own compiles to can be evaluated on a row. -/
def EvaluatesOn (k : Kind) (t : FilterExpr) (row : ListedRow k) : Prop :=
  ∀ f ∈ t.leaves, ∀ c, f.compile (.str k.rowName) = .ok c → ∃ b, c.holdsOn row.properties = .ok b

theorem evaluatesOn_iff :
    t.EvaluatesOn k row ↔ (t.leaves.all fun f => (f.compile (.str k.rowName)).toOption.all
      fun c => (c.holdsOn row.properties).toBool) = true := by
  have hok {x : Except Fault Bool} : x.toBool = true ↔ ∃ b, x = .ok b := by
    cases x <;> simp [Except.toBool]
  rw [List.all_eq_true]
  refine forall₂_congr fun f _ => ?_
  cases f.compile (.str k.rowName) with
  | error e => exact iff_of_true nofun rfl
  | ok c =>
    simp only [Except.ok.injEq, forall_eq', Except.toOption, Option.all_some]
    exact hok.symm

instance : Decidable (t.EvaluatesOn k row) :=
  decidable_of_iff' _ evaluatesOn_iff

theorem EvaluatesOn.evaluates (h : t.EvaluatesOn k row) :
    ∀ f ∈ t.leaves, f.Evaluates k (queryDocument? row.properties) := by
  intro f hf c hc
  obtain ⟨b, hb⟩ := h f hf _ (PropertyFilter.compile_of_leaf hc)
  change (c.holds (queryDocument? row.properties)).mapError _ = _ at hb
  exact ⟨b, mapError_eq_ok_iff.1 hb⟩

theorem CompilesTo.exists_holdsOn (h : CompilesTo k t c.condition?)
    (hleaves : t.EvaluatesOn k row) : ∃ b, c.holdsOn row.properties = .ok b := by
  unfold CompiledFilter.holdsOn
  cases hcondition : c.condition? with
  | none => exact ⟨true, rfl⟩
  | some condition =>
    obtain ⟨b, hb⟩ := h.holds condition hcondition _ hleaves.evaluates
    exact ⟨b, mapError_eq_ok_iff.2 hb⟩

/-- Where a compiled filter can be evaluated it is found to hold just on the rows that the
expression holds on. -/
theorem CompilesTo.eq_true_iff (h : CompilesTo k t c.condition?)
    (hholds : c.holdsOn row.properties = .ok b) : b = true ↔ t.HoldsOn k row := by
  have hvoid := h.isNone
  unfold CompiledFilter.holdsOn at hholds
  cases hcondition : c.condition? with
  | none =>
    rw [hcondition] at hholds hvoid
    cases hholds
    exact iff_of_true rfl (.inl hvoid.symm)
  | some condition =>
    rw [hcondition] at hholds hvoid
    have hfound : condition.holds (queryDocument? row.properties) = .ok b :=
      mapError_eq_ok_iff.1 hholds
    unfold HoldsOn
    rw [← hvoid, Option.isNone_some]
    cases hdocument : queryDocument? row.properties with
    | none =>
      rw [hdocument, (h.written condition hcondition).holds_none] at hfound
      cases hfound
    | some d =>
      rw [hdocument] at hfound
      have htruth := h.truth condition hcondition ⟨row.isLatest, d⟩
      rw [Condition.truth_clause] at htruth
      rw [condition.eq_truth_of_holds hfound, htruth]
      simp

end FilterExpr

namespace Clause

theorem truth_latestMark (row : Row) : latestMark.truth row = some row.isLatest := by
  obtain ⟨isLatest, d⟩ := row
  cases isLatest <;> rfl

end Clause

namespace FilterExpr

variable {k : Kind} {t : FilterExpr} {c : CompiledFilter}

/-- The condition of a query with a compiled expression is true of a row if the row is latest and
the expression, unless it is void, is true of it. -/
theorem CompilesTo.truth_latestClause (h : CompilesTo k t c.condition?)
    (hname : c.rowName = k.rowName) :
    ∃ clause, Clause.read k.rowName (latestClause k [c]) c.parameters = some clause ∧
      ∀ row, clause.truth row = some true ↔
        row.isLatest = true ∧ (t.isVoid = true ∨ t.truth k row = some true) := by
  have hconditions : [c].filterMap (·.condition?) = c.condition?.toList := by
    cases hcondition : c.condition? <;> simp [hcondition]
  have hvalues : [c].flatMap (·.parameters) = c.parameters := by simp
  have hwritten : ∀ condition ∈ [c].filterMap (·.condition?), condition.Written := by
    intro condition hcondition
    rw [hconditions] at hcondition
    exact h.written condition (Option.mem_toList.1 hcondition)
  have hread := Clause.read_latestClause (List.forall_mem_singleton.2 hname) hwritten
  rw [hvalues, hconditions] at hread
  refine ⟨_, hread, fun row => ?_⟩
  rw [Clause.truth_gather_all, List.map_cons, Truth.conj_cons, Truth.and_eq_true,
    Clause.truth_latestMark, Option.some_inj]
  refine and_congr_right fun _ => ?_
  have hvoid := h.isNone
  cases hcondition : c.condition? with
  | none =>
    rw [hcondition] at hvoid
    exact iff_of_true rfl (.inl hvoid.symm)
  | some condition =>
    rw [hcondition] at hvoid
    rw [← hvoid, ← h.truth condition hcondition, Option.toList_some, List.map_singleton,
      List.map_singleton, Truth.conj_singleton]
    simp

end FilterExpr

/-- A query with a filter on the rows of its own name needs only that its values can be handed
over. -/
theorem Criterion.handOver_properties {k : Kind} {c : CompiledFilter}
    (hname : c.rowName = k.rowName) (limit : Json) :
    Criterion.handOver ([.properties c] : List (Criterion k)) limit =
      Json.handOver (c.parameters.map Scalar.toJson ++ [limit]) := by
  have hchecked : c.checkRowName [k.rowName] = .ok () := by
    simp [CompiledFilter.checkRowName, hname]
  unfold Criterion.handOver
  change ((c.checkRowName [k.rowName] >>= fun _ => pure ()) >>= fun _ => _) = _
  rw [hchecked]
  simp [Criterion.bound]

namespace Store

variable {s : Store} {k : Kind} {t : FilterExpr} {c : CompiledFilter} {n : Int}
  {rows : List (ListedRow k)}

/-- A query with one filter that has room for all rows and selects some has evaluated the filter
on all of them. -/
theorem exists_holdsOn_of_selectLatest (hroom : ((s.latestRows k).length : Int) ≤ n)
    (h : s.selectLatest k [.properties c] n = .ok rows) :
    ∀ row ∈ s.latestRows k, ∃ b, c.holdsOn row.properties = .ok b := by
  have harranged : (Lookup.ofCriteria ([.properties c] : List (Criterion k))).arranged
      ([.properties c] : List (Criterion k)) = [.properties c] := by
    cases k <;> rfl
  intro row hrow
  obtain ⟨b, hb⟩ := exists_allHold_of_selectLatest hroom h row hrow
  rw [harranged, Criterion.allHold, bind_eq_ok_iff] at hb
  obtain ⟨keep, hkeep, _⟩ := hb
  exact ⟨keep, hkeep⟩

/-- Rows that meet a compiled filter are those that the expression holds on. -/
theorem Ranks.of_compilesTo (h : s.Ranks k (Criterion.AllMet [.properties c]) rows)
    (hcompiles : FilterExpr.CompilesTo k t c.condition?)
    (hchecked : ∀ row ∈ s.latestRows k, ∃ b, c.holdsOn row.properties = .ok b) :
    s.Ranks k (t.HoldsOn k) rows := by
  refine h.congr_latest fun row hrow => ?_
  obtain ⟨b, hb⟩ := hchecked row hrow
  rw [← hcompiles.eq_true_iff hb, Criterion.AllMet, List.forall_mem_singleton]
  change c.holdsOn row.properties = .ok true ↔ _
  rw [hb, Except.ok.injEq]

def noting (x y : Json) : List (Operation × Stamp) :=
  [(.create (k := .entity)
      { typeId := .str "note", ends := (), properties := .obj [("x", x)] }, ⟨"a", 1⟩),
    (.create (k := .entity)
      { typeId := .str "note", ends := (), properties := .obj [("x", y)] }, ⟨"b", 2⟩)]

def oldNote (properties : String) : Row .entity :=
  ⟨"a", "note", (), properties, .integer 1, none, .integer 1, none, false, true, none⟩

def newNote (properties : String) : Row .entity :=
  ⟨"b", "note", (), properties, .integer 1, none, .integer 2, none, false, true, none⟩

/-- What is stored then. -/
def noted (p q : String) : Store := { entities := [oldNote p, newNote q] }

def isOne : FilterExpr :=
  .leaf ⟨.str "x", .eq, .int 1⟩

/-- Of this expression only an alternative of two leaves is left. -/
def oneOrMany : FilterExpr :=
  .all [.any [], .any [isOne, .all [.any []], .leaf ⟨.str "x", .gt, .int 5⟩]]

theorem after_noting : empty.after (noting (.int 1) (.int 2)) =
    noted "\x7b\"x\": 1\x7d" "\x7b\"x\": 2\x7d" := by
  decide +kernel

theorem after_noting_infinite : empty.after (noting (.int 1) (.float (.infinity false))) =
    noted "\x7b\"x\": 1\x7d" "\x7b\"x\": Infinity\x7d" := by
  decide +kernel

end Store

end VersionedGraph
