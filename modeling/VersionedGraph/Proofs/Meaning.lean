import VersionedGraph.Proofs.Grouping

/-!
# What compiled filters mean

A filter on its own means what the text that it compiles to is read as. An expression means the
conjunctions and disjunctions of its groups over the children that constrain anything
(`FilterExpr.truth`), and compiling keeps this meaning: the text of the whole expression, with its
values in one list, is read as a clause that is true, false or unknown just as the expression is.
-/

namespace VersionedGraph

namespace Truth

theorem conj_singleton (t : Truth) : conj [t] = t := by
  rcases t with _ | _ | _ <;> rfl

theorem disj_singleton (t : Truth) : disj [t] = t := by
  rcases t with _ | _ | _ <;> rfl

end Truth

namespace Clause

variable (row : Row)

theorem truth_gather_all (cs : List Clause) :
    (gather .all cs).truth row = Truth.conj (cs.map (truth row)) := by
  rcases cs with _ | ⟨c, _ | ⟨d, cs⟩⟩
  · rfl
  · exact (Truth.conj_singleton _).symm
  · rw [gather_cons_cons, truth, truths_eq_map]

theorem truth_gather_any (cs : List Clause) :
    (gather .any cs).truth row = Truth.disj (cs.map (truth row)) := by
  rcases cs with _ | ⟨c, _ | ⟨d, cs⟩⟩
  · rfl
  · exact (Truth.disj_singleton _).symm
  · rw [gather_cons_cons, truth, truths_eq_map]

theorem Operand.patternText?_fold (folding : Condition.Folding) (operand : Operand) :
    ((fold folding operand).value row).patternText? =
      (operand.value row).patternText?.map folding.fold := by
  rw [Operand.value]
  cases (operand.value row).patternText? with
  | none => rfl
  | some s => exact congrArg some (LooseText.replaced_ofString _)

theorem truth_like {row : Row} {operand pattern : Operand} {p : String}
    (h : (pattern.value row).patternText? = some p) :
    (like operand pattern).truth row =
      (operand.value row).patternText?.map fun s => Text.isLike p s := by
  rw [truth, h]
  cases (operand.value row).patternText? <;> rfl

end Clause

namespace Condition

variable (row : Clause.Row)

theorem Reading.value_operand (path : Path) (reading : Reading) :
    (reading.operand path).value row = reading.read (row.document.scalarAt path) := by
  cases reading <;> rfl

/-- The clause that a test is read as is true of what the test is true of. -/
theorem Test.truth_clause (path : Path) (test : Test) :
    (test.clause path).truth row = test.truth (row.document.scalarAt path) := by
  cases test with
  | compare reading comparison operand =>
    rw [Test.clause, Clause.truth, Reading.value_operand]
    rfl
  | like folding pattern =>
    have hpattern : ((Clause.Operand.scalar (.text pattern)).value row).patternText? =
        some pattern.replaced := rfl
    have hfolded (folding : Folding) : Clause.truth row
        (.like (.fold folding (.extract path)) (.fold folding (.scalar (.text pattern)))) =
          (Test.like folding pattern).truth (row.document.scalarAt path) := by
      rw [Clause.truth_like (by rw [Clause.Operand.patternText?_fold, hpattern]; rfl),
        Clause.Operand.patternText?_fold, Option.map_map]
      rfl
    cases folding with
    | unchanged => exact Clause.truth_like hpattern
    | lower => exact hfolded .lower
    | upper => exact hfolded .upper
  | member reading negated operands =>
    rw [Test.clause, Clause.truth, Reading.value_operand, List.map_map]
    rfl
  | isNull negated => rfl

mutual

theorem truth_clause : (c : Condition) → c.clause.truth row = c.truth row.document
  | leaf path test => test.truth_clause row path
  | all children => by
    rw [clause, Clause.truth_gather_all, ← Clause.truths_eq_map, truths_clauses children, truth]
  | any children => by
    rw [clause, Clause.truth_gather_any, ← Clause.truths_eq_map, truths_clauses children, truth]

theorem truths_clauses : (cs : List Condition) →
    Clause.truths row (clauses cs) = truths row.document cs
  | [] => rfl
  | c :: cs => by rw [clauses, Clause.truths, truths, truth_clause c, truths_clauses cs]

end

/-! What evaluation finds. -/

theorem holds_leaf {test : Test} (path : Path) (h : test.fault? = none) (d : Json.Document) :
    (leaf path test).holds (some d) = .ok (decide (test.truth (d.scalarAt path) = some true)) := by
  rw [holds]
  unfold Test.holds
  rw [h]

mutual

/-- Where a condition can be evaluated it is found to hold just when it is true. -/
theorem eq_truth_of_holds {d : Json.Document} {b : Bool} :
    (c : Condition) → c.holds (some d) = .ok b → b = decide (c.truth d = some true)
  | leaf path test, h => by
    cases hfault : test.fault? with
    | none =>
      rw [holds_leaf path hfault] at h
      cases h
      rfl
    | some fault =>
      rw [holds] at h
      unfold Test.holds at h
      rw [hfault] at h
      cases h
  | all children, h => eq_conj_of_allHold children h
  | any children, h => eq_disj_of_anyHolds children h

theorem eq_conj_of_allHold {d : Json.Document} {b : Bool} : (cs : List Condition) →
    allHold (some d) cs = .ok b → b = decide (Truth.conj (truths d cs) = some true)
  | [], h => by
    cases h
    rfl
  | c :: cs, h => by
    rw [allHold, bind_eq_ok_iff] at h
    obtain ⟨first, hfirst, h⟩ := h
    have htruth := eq_truth_of_holds c hfirst
    rw [truths, Truth.conj_cons]
    simp only [Truth.and_eq_true]
    cases first with
    | false =>
      cases h
      exact (decide_eq_false fun hboth => of_decide_eq_false htruth.symm hboth.1).symm
    | true =>
      have hrest := eq_conj_of_allHold cs h
      simpa [← htruth] using hrest

theorem eq_disj_of_anyHolds {d : Json.Document} {b : Bool} : (cs : List Condition) →
    anyHolds (some d) cs = .ok b → b = decide (Truth.disj (truths d cs) = some true)
  | [], h => by
    cases h
    rfl
  | c :: cs, h => by
    rw [anyHolds, bind_eq_ok_iff] at h
    obtain ⟨first, hfirst, h⟩ := h
    have htruth := eq_truth_of_holds c hfirst
    rw [truths, Truth.disj_cons]
    simp only [Truth.or_eq_true]
    cases first with
    | true =>
      cases h
      exact (decide_eq_true (.inl (of_decide_eq_true htruth.symm))).symm
    | false =>
      have hrest := eq_disj_of_anyHolds cs h
      simpa [← htruth] using hrest

end

variable {d : Option Json.Document} {cs : List Condition}

theorem exists_allHold (h : ∀ c ∈ cs, ∃ b, c.holds d = .ok b) : ∃ b, allHold d cs = .ok b := by
  induction cs with
  | nil => exact ⟨true, rfl⟩
  | cons c cs ih =>
    obtain ⟨b, hb⟩ := h c List.mem_cons_self
    cases b with
    | true =>
      obtain ⟨b, hrest⟩ := ih fun d hd => h d (List.mem_cons_of_mem c hd)
      exact ⟨b, bind_eq_ok_iff.2 ⟨true, hb, hrest⟩⟩
    | false => exact ⟨false, bind_eq_ok_iff.2 ⟨false, hb, rfl⟩⟩

theorem exists_anyHolds (h : ∀ c ∈ cs, ∃ b, c.holds d = .ok b) : ∃ b, anyHolds d cs = .ok b := by
  induction cs with
  | nil => exact ⟨false, rfl⟩
  | cons c cs ih =>
    obtain ⟨b, hb⟩ := h c List.mem_cons_self
    cases b with
    | true => exact ⟨true, bind_eq_ok_iff.2 ⟨true, hb, rfl⟩⟩
    | false =>
      obtain ⟨b, hrest⟩ := ih fun d hd => h d (List.mem_cons_of_mem c hd)
      exact ⟨b, bind_eq_ok_iff.2 ⟨false, hb, hrest⟩⟩

/-- No condition can be evaluated where there is no document. -/
theorem Written.holds_none {c : Condition} (h : c.Written) :
    c.holds none = .error .malformedDocument := by
  induction h with
  | leaf => rfl
  | @all children hne _ ih =>
    obtain ⟨c, cs, rfl⟩ := List.exists_cons_of_ne_nil hne
    rw [holds, allHold, ih c List.mem_cons_self]
    rfl
  | @any children hne _ ih =>
    obtain ⟨c, cs, rfl⟩ := List.exists_cons_of_ne_nil hne
    rw [holds, anyHolds, ih c List.mem_cons_self]
    rfl

end Condition

namespace PropertyFilter

variable {k : Kind} {f : PropertyFilter} {c : Condition}

/-- What a filter on its own means: what the text that it compiles to is read as, with the values
that are bound for it. -/
def truth (k : Kind) (row : Clause.Row) (f : PropertyFilter) : Truth :=
  match f.compile (.str k.rowName) with
  | .ok c => (Clause.read k.rowName c.predicate c.parameters).bind (·.truth row)
  | .error _ => none

/-- What a filter on its own compiles to can be evaluated on a document. -/
def Evaluates (k : Kind) (d : Option Json.Document) (f : PropertyFilter) : Prop :=
  ∀ c, Filter.leaf (.str k.rowName) f = .ok c → ∃ b, c.holds d = .ok b

section

variable {op : Filter.Operator} {value : Json} {test : Condition.Test}

theorem written_of_equality {comparison : Condition.Comparison}
    (h : Filter.equality op comparison value = .ok test) : test.Written := by
  unfold Filter.equality at h
  split at h <;> cases h
  trivial

theorem written_of_ordering {comparison : Condition.Comparison}
    (h : Filter.ordering op comparison value = .ok test) : test.Written := by
  unfold Filter.ordering at h
  split at h <;> cases h
  trivial

theorem written_of_pattern {folding : Condition.Folding} {wrap : LooseText → LooseText}
    (h : Filter.pattern op folding wrap value = .ok test) : test.Written := by
  unfold Filter.pattern at h
  split at h <;> cases h
  trivial

theorem written_of_membership {negated : Bool}
    (h : Filter.membership op negated value = .ok test) : test.Written := by
  unfold Filter.membership at h
  split at h
  · dsimp only at h
    split at h
    · cases h
    · split at h <;> cases h
      exact List.cons_ne_nil _ _
  · cases h

theorem written_of_test (h : Filter.test op value = .ok test) : test.Written := by
  cases op with
  | eq =>
    cases value with
    | null =>
      cases h
      trivial
    | _ =>
      rw [Filter.test] at h
      · exact written_of_equality h
      · exact nofun
  | ne =>
    cases value with
    | null =>
      cases h
      trivial
    | _ =>
      rw [Filter.test] at h
      · exact written_of_equality h
      · exact nofun
  | gt | lt | gte | lte => exact written_of_ordering h
  | like | ilike | startsWith | endsWith | contains => exact written_of_pattern h
  | oneOf | noneOf => exact written_of_membership h
  | present | absent =>
    cases h
    trivial

end

theorem written_of_leaf (h : Filter.leaf (.str k.rowName) f = .ok c) : c.Written := by
  simp only [Filter.leaf, bind_eq_ok_iff, pure_eq_ok_iff] at h
  obtain ⟨_, _, path, hpath, test, htest, rfl⟩ := h
  rw [Filter.path, mapError_eq_ok_iff] at hpath
  exact .leaf (Path.named_of_ofJson hpath) (written_of_test htest)

theorem compile_of_leaf (h : Filter.leaf (.str k.rowName) f = .ok c) :
    f.compile (.str k.rowName) = .ok ⟨k.rowName, some c⟩ := by
  rw [compile, h]
  simp

theorem truth_of_leaf (h : Filter.leaf (.str k.rowName) f = .ok c) (row : Clause.Row) :
    f.truth k row = c.clause.truth row := by
  rw [truth, compile_of_leaf h]
  change (Clause.read k.rowName (c.predicate k.rowName) c.parameters).bind _ = _
  rw [Clause.read_predicate k (written_of_leaf h)]
  rfl

end PropertyFilter

namespace FilterExpr

mutual

/-- Whether an expression constrains nothing: a group all of whose children constrain nothing. -/
def isVoid : FilterExpr → Bool
  | leaf _ => false
  | all children => areVoid children
  | any children => areVoid children
  | stray => false

def areVoid : List FilterExpr → Bool
  | [] => true
  | t :: ts => isVoid t && areVoid ts

end

mutual

/-- What an expression means: conjunctions and disjunctions over the children that constrain
anything. -/
def truth (k : Kind) (row : Clause.Row) : FilterExpr → Truth
  | leaf f => f.truth k row
  | all children => Truth.conj (truths k row children)
  | any children => Truth.disj (truths k row children)
  | stray => none

def truths (k : Kind) (row : Clause.Row) : List FilterExpr → List Truth
  | [] => []
  | t :: ts => if isVoid t then truths k row ts else truth k row t :: truths k row ts

end

mutual

def leaves : FilterExpr → List PropertyFilter
  | leaf f => [f]
  | all children => childLeaves children
  | any children => childLeaves children
  | stray => []

def childLeaves : List FilterExpr → List PropertyFilter
  | [] => []
  | t :: ts => leaves t ++ childLeaves ts

end

variable {k : Kind} {t : FilterExpr} {ts : List FilterExpr} {cs : List Condition}

/-- What is compiled from an expression means what the expression does, and can be evaluated where
its leaves can. -/
structure CompilesTo (k : Kind) (t : FilterExpr) (c? : Option Condition) : Prop where
  isNone : c?.isNone = t.isVoid
  written : ∀ c ∈ c?, c.Written
  truth : ∀ c ∈ c?, ∀ row, c.clause.truth row = t.truth k row
  holds : ∀ c ∈ c?, ∀ d, (∀ f ∈ t.leaves, f.Evaluates k d) → ∃ b, c.holds d = .ok b

/-- The same of the children of a group and of what is left of them. -/
structure AllCompileTo (k : Kind) (ts : List FilterExpr) (cs : List Condition) : Prop where
  isEmpty : cs.isEmpty = areVoid ts
  written : ∀ c ∈ cs, c.Written
  truths : ∀ row, cs.map (fun c => c.clause.truth row) = truths k row ts
  holds : ∀ c ∈ cs, ∀ d, (∀ f ∈ childLeaves ts, f.Evaluates k d) → ∃ b, c.holds d = .ok b

theorem compilesTo_leaf {f : PropertyFilter} {c : Condition}
    (h : Filter.leaf (.str k.rowName) f = .ok c) : CompilesTo k (.leaf f) (some c) := by
  constructor
  · rfl
  · rintro _ ⟨⟩
    exact PropertyFilter.written_of_leaf h
  · rintro _ ⟨⟩ row
    exact (PropertyFilter.truth_of_leaf h row).symm
  · rintro _ ⟨⟩ d hleaves
    exact hleaves f (List.mem_singleton.2 rfl) c h

theorem AllCompileTo.of_children {compiled : List (Option Condition)}
    (h : List.Forall₂ (CompilesTo k) ts compiled) : AllCompileTo k ts (compiled.filterMap id) := by
  induction h with
  | nil => exact ⟨rfl, nofun, fun _ => rfl, nofun⟩
  | @cons t c? ts compiled ht _ ih =>
    have hvoid := ht.isNone
    cases c? with
    | none =>
      rw [List.filterMap_cons_none rfl]
      rw [Option.isNone_none] at hvoid
      constructor
      · rw [ih.isEmpty, areVoid, ← hvoid, Bool.true_and]
      · exact ih.written
      · intro row
        rw [ih.truths, FilterExpr.truths, if_pos hvoid.symm]
      · intro c hc d hleaves
        exact ih.holds c hc d fun f hf => hleaves f (List.mem_append_right _ hf)
    | some c =>
      have hkept : (some c :: compiled).filterMap id = c :: compiled.filterMap id := rfl
      rw [hkept]
      rw [Option.isNone_some] at hvoid
      constructor
      · rw [areVoid, ← hvoid]
        rfl
      · exact List.forall_mem_cons.2 ⟨ht.written c rfl, ih.written⟩
      · intro row
        rw [List.map_cons, ih.truths, ht.truth c rfl, FilterExpr.truths,
          if_neg (by rw [← hvoid]; exact Bool.false_ne_true)]
      · refine List.forall_mem_cons.2 ⟨fun d hleaves => ?_, fun c hc d hleaves => ?_⟩
        · exact ht.holds c rfl d fun f hf => hleaves f (List.mem_append_left _ hf)
        · exact ih.holds c hc d fun f hf => hleaves f (List.mem_append_right _ hf)

/-- How the truth of a group comes of that of its parts. -/
structure Joins (join : List Condition → Condition) (fold : List Truth → Truth) : Prop where
  single : ∀ t, fold [t] = t
  written : ∀ {cs}, cs ≠ [] → (∀ c ∈ cs, c.Written) → (join cs).Written
  truth : ∀ cs row, (join cs).clause.truth row = fold (cs.map fun c => c.clause.truth row)
  holds : ∀ {cs d}, (∀ c ∈ cs, ∃ b, c.holds d = .ok b) → ∃ b, (join cs).holds d = .ok b

theorem joins_all : Joins .all Truth.conj where
  single := Truth.conj_singleton
  written hne h := .all hne h
  truth cs row := by
    rw [Condition.clause, Clause.truth_gather_all, Condition.clauses_eq_map, List.map_map]
    rfl
  holds h := Condition.exists_allHold h

theorem joins_any : Joins .any Truth.disj where
  single := Truth.disj_singleton
  written hne h := .any hne h
  truth cs row := by
    rw [Condition.clause, Clause.truth_gather_any, Condition.clauses_eq_map, List.map_map]
    rfl
  holds h := Condition.exists_anyHolds h

/-- A group of one part that is left is that part, and means the same. -/
theorem AllCompileTo.group {join : List Condition → Condition} {fold : List Truth → Truth}
    (h : AllCompileTo k ts cs) (hjoins : Joins join fold) (hvoid : t.isVoid = areVoid ts)
    (htruth : ∀ row, t.truth k row = fold (FilterExpr.truths k row ts))
    (hleaves : t.leaves = childLeaves ts) : CompilesTo k t (Filter.group join cs) := by
  have hempty := h.isEmpty
  have hmeans := h.truths
  rw [← hvoid] at hempty
  rcases cs with _ | ⟨c, _ | ⟨c', cs⟩⟩
  · exact ⟨hempty, nofun, nofun, nofun⟩
  · refine ⟨hempty, ?_, ?_, ?_⟩
    · rintro _ ⟨⟩
      exact h.written c (List.mem_singleton.2 rfl)
    · rintro _ ⟨⟩ row
      rw [htruth, ← hmeans, List.map_singleton, hjoins.single]
    · rintro _ ⟨⟩ d hd
      exact h.holds c (List.mem_singleton.2 rfl) d (hleaves ▸ hd)
  · refine ⟨hempty, ?_, ?_, ?_⟩
    · rintro _ ⟨⟩
      exact hjoins.written (List.cons_ne_nil _ _) h.written
    · rintro _ ⟨⟩ row
      rw [htruth, ← hmeans, hjoins.truth]
    · rintro _ ⟨⟩ d hd
      exact hjoins.holds fun c hc => h.holds c hc d (hleaves ▸ hd)

theorem compilesTo_of_compileLevels {levels : Nat} {c? : Option Condition}
    (h : Filter.compileLevels (.str k.rowName) levels t = .ok c?) : CompilesTo k t c? := by
  -- Children are compiled with one level less, whatever they are.
  induction levels generalizing t c? with
  | zero => cases h
  | succ levels ih =>
    have hchildren {children : List FilterExpr} {compiled : List (Option Condition)}
        (hcompiled : children.mapM (Filter.compileLevels (.str k.rowName) levels) = .ok compiled) :
        AllCompileTo k children (compiled.filterMap id) :=
      .of_children ((mapM_eq_ok_iff.1 hcompiled).imp fun _ _ => ih)
    cases t with
    | leaf f =>
      simp only [Filter.compileLevels, bind_eq_ok_iff, pure_eq_ok_iff] at h
      obtain ⟨c, hc, rfl⟩ := h
      exact compilesTo_leaf hc
    | all children =>
      rw [Filter.compileLevels] at h
      split at h
      · cases h
      · simp only [bind_eq_ok_iff, pure_eq_ok_iff] at h
        obtain ⟨compiled, hcompiled, rfl⟩ := h
        exact (hchildren hcompiled).group joins_all rfl (fun _ => rfl) rfl
    | any children =>
      rw [Filter.compileLevels] at h
      split at h
      · cases h
      · simp only [bind_eq_ok_iff, pure_eq_ok_iff] at h
        obtain ⟨compiled, hcompiled, rfl⟩ := h
        exact (hchildren hcompiled).group joins_any rfl (fun _ => rfl) rfl
    | stray => cases h

theorem compilesTo_of_compile {depth : Json} {c : CompiledFilter}
    (h : t.compile (.str k.rowName) depth = .ok c) :
    c.rowName = k.rowName ∧ CompilesTo k t c.condition? := by
  simp only [compile, bind_eq_ok_iff, pure_eq_ok_iff, CompiledFilter.ofJson_str] at h
  obtain ⟨levels, _, c?, hc, rfl⟩ := h
  exact ⟨rfl, compilesTo_of_compileLevels hc⟩

end FilterExpr

end VersionedGraph
