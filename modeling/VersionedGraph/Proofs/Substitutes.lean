import VersionedGraph.Proofs.FilteredQuery
import VersionedGraph.Proofs.Finding
import VersionedGraph.Proofs.Limits

/-!
# Filters that stand for each other

A list of filters can be compiled as it is or as a group, and membership in a list can be asked for
as it is or by a group of comparisons with the single values. What these are compiled to differs in
parentheses and in how often a path is bound, but agrees in what matters to a query
(`CompiledFilter.Agrees`): the same values can be handed over, and the same stored properties are
found. So a query answers the same with the one as with the other (`Store.queryLatest_of_agrees`).
-/

namespace VersionedGraph

namespace CompiledFilter

/-- Two compiled filters speak of the same rows, have values that are handed over or refused alike,
and hold of the same stored properties. -/
structure Agrees (c c' : CompiledFilter) : Prop where
  rowName : c.rowName = c'.rowName
  isEmpty : c.isEmpty = c'.isEmpty
  handOver : ∀ place, Json.handOver (c.parameters.map Scalar.toJson) place =
    Json.handOver (c'.parameters.map Scalar.toJson) place
  holdsOn : ∀ properties, c.holdsOn properties = c'.holdsOn properties

end CompiledFilter

/-! Queries with filters that agree. -/

section

variable {k : Kind} {c c' : CompiledFilter} {before after : List (Criterion k)}

theorem Lookup.ofCriteria_properties (c c' : CompiledFilter) :
    ofCriteria (before ++ .properties c :: after) =
      ofCriteria (before ++ .properties c' :: after) := by
  have hserves (way : Lookup) (c : CompiledFilter) :
      way.serves (.properties c : Criterion k) = false := by
    cases way <;> rfl
  unfold ofCriteria leavesDeletedOut
  simp only [List.any_append, List.any_cons, hserves]

namespace Criterion

theorem allHold_congr {row : ListedRow k}
    (h : ∀ properties, c.holdsOn properties = c'.holdsOn properties) :
    allHold row (before ++ .properties c :: after) =
      allHold row (before ++ .properties c' :: after) := by
  induction before with
  | nil =>
    change (c.holdsOn row.properties >>= fun b => if b then allHold row after else pure false) = _
    rw [h]
    rfl
  | cons d before ih => rw [List.cons_append, List.cons_append, allHold, allHold, ih]

theorem allHold_arranged_congr (way : Lookup) {row : ListedRow k}
    (h : ∀ properties, c.holdsOn properties = c'.holdsOn properties) :
    allHold row (way.arranged (before ++ .properties c :: after)) =
      allHold row (way.arranged (before ++ .properties c' :: after)) := by
  unfold Lookup.arranged
  split
  · simp only [List.filter_append, List.filter_cons, isOnProperties, Bool.not_true,
      Bool.false_eq_true, if_false, if_true]
    rw [← List.append_assoc, ← List.append_assoc]
    exact allHold_congr h
  · exact allHold_congr h

end Criterion

namespace Store

theorem selectLatest_congr (s : Store)
    (h : ∀ properties, c.holdsOn properties = c'.holdsOn properties) (limit : Int) :
    s.selectLatest k (before ++ .properties c :: after) limit =
      s.selectLatest k (before ++ .properties c' :: after) limit := by
  unfold selectLatest
  simp only [Lookup.ofCriteria_properties c c', Criterion.allHold_arranged_congr _ h]

theorem queryLatest_congr (s : Store) {limit : Json} (hrow : c.rowName = c'.rowName)
    (hempty : c.isEmpty = c'.isEmpty)
    (h : ∀ properties, c.holdsOn properties = c'.holdsOn properties)
    (hhanded : Json.handOver ((before ++ .properties c :: after).flatMap Criterion.bound ++
        [limit]) =
      Json.handOver ((before ++ .properties c' :: after).flatMap Criterion.bound ++ [limit])) :
    s.queryLatest k (before ++ .properties c :: after) limit =
      s.queryLatest k (before ++ .properties c' :: after) limit := by
  have hchecked : c.checkRowName [k.rowName] = c'.checkRowName [k.rowName] := by
    unfold CompiledFilter.checkRowName
    rw [hempty, hrow]
  have hnames : (before ++ .properties c :: after).forM Criterion.checkRowName =
      (before ++ .properties c' :: after).forM Criterion.checkRowName := by
    simp only [List.forM_eq_forM, List.forM_append, List.forM_cons, Criterion.checkRowName,
      hchecked]
  unfold queryLatest
  simp only [hnames, hhanded, selectLatest_congr s h]

/-- A query answers the same with filters that agree. -/
theorem queryLatest_of_agrees (s : Store) (h : c.Agrees c') (before : List (Criterion k))
    (n : Int) :
    s.queryLatest k (before ++ [.properties c]) (.int n) =
      s.queryLatest k (before ++ [.properties c']) (.int n) := by
  refine queryLatest_congr s h.rowName h.isEmpty h.holdsOn ?_
  have hlimit (place place' : Nat) : Json.handOver [.int n] place = Json.handOver [.int n] place' :=
    rfl
  -- Only the places of what comes after the filter differ, and a limit is no value with parts.
  simp only [List.flatMap_append, List.flatMap_singleton, Criterion.bound, List.append_assoc,
    Json.handOver_append_eq_bind _ (_ ++ _), Json.handOver_append_eq_bind (List.map _ _),
    h.handOver, hlimit _ 1]

end Store

end

/-! What groups of conditions come to. -/

namespace CompiledFilter

variable (rowName : Json) (cs : List Condition) (properties : String)

theorem holdsOn_group_all : (ofJson rowName (Filter.group .all cs)).holdsOn properties =
    (Condition.allHold (queryDocument? properties) cs).mapError .evaluation := by
  rcases cs with _ | ⟨c, _ | ⟨c', cs⟩⟩
  · rfl
  · change (c.holds _).mapError _ = (c.holds _ >>= fun b => if b then pure true else _).mapError _
    rcases c.holds (queryDocument? properties) with e | _ | _ <;> rfl
  · rfl

theorem parameters_group {join : List Condition → Condition}
    (hjoin : ∀ cs, (join cs).parameters = Condition.childParameters cs) :
    (ofJson rowName (Filter.group join cs)).parameters = cs.flatMap Condition.parameters := by
  rcases cs with _ | ⟨c, _ | ⟨c', cs⟩⟩
  · rfl
  · exact (List.append_nil c.parameters).symm
  · exact (hjoin _).trans (Condition.childParameters_eq_flatMap _)

theorem exists_group {join : List Condition → Condition} (hne : cs ≠ []) :
    ∃ c, Filter.group join cs = some c := by
  rcases cs with _ | ⟨c, _ | ⟨c', cs⟩⟩
  · exact absurd rfl hne
  · exact ⟨c, rfl⟩
  · exact ⟨_, rfl⟩

theorem isEmpty_group {join : List Condition → Condition} (hne : cs ≠ []) :
    (ofJson rowName (Filter.group join cs)).isEmpty = false := by
  obtain ⟨c, hc⟩ := exists_group cs hne
  rw [hc]
  rfl

end CompiledFilter

namespace FilterExpr

variable {rowName : Json} {fs : List PropertyFilter}

theorem compile_leaves {group : List FilterExpr → FilterExpr}
    {join : List Condition → Condition}
    (hgroup : ∀ levels children, Filter.compileLevels rowName (levels + 1) (group children) =
      Filter.compileGroup rowName levels join children)
    (h : fs.length ≤ maxChildren) :
    (group (fs.map .leaf)).compile rowName = fs.mapM (Filter.leaf rowName) >>= fun cs =>
      pure (.ofJson rowName (Filter.group join cs)) := by
  have hlevels : levelsFrom (.int 0) = .ok 6 := rfl
  rw [compile_of_levels hlevels, hgroup, Filter.compileGroup_leaves h, bind_assoc]
  rfl

end FilterExpr

/-! A list of filters and the group of them. -/

namespace PropertyFilter

/-- A list of filters that is not too long is compiled like a group of them, but for the
parentheses around a single one: it fails for the same reason, or has the same values, holds of the
same stored properties and selects the same rows of every store. -/
theorem compileAll_like_group (rowName : Json) {fs : List PropertyFilter} (h : fs.length ≤ 50) :
    (∀ fault, compileAll fs rowName = .error fault ↔
      (FilterExpr.all (fs.map .leaf)).compile rowName = .error fault) ∧
    ∀ c, compileAll fs rowName = .ok c → ∃ c',
      (FilterExpr.all (fs.map .leaf)).compile rowName = .ok c' ∧ c.parameters = c'.parameters ∧
        (∀ properties, c.holdsOn properties = c'.holdsOn properties) ∧
        (∀ (s : Store) (k : Kind) (before after : List (Criterion k)) (limit : Json),
          s.queryLatest k (before ++ .properties c :: after) limit =
            s.queryLatest k (before ++ .properties c' :: after) limit) ∧
        (fs.length ≠ 1 → c.predicate = c'.predicate) := by
  cases fs with
  | nil =>
    exact ⟨fun _ => Iff.rfl,
      fun c hc => ⟨c, hc, rfl, fun _ => rfl, fun _ _ _ _ _ => rfl, fun _ => rfl⟩⟩
  | cons f fs =>
    have hlist : compileAll (f :: fs) rowName = (f :: fs).mapM (Filter.leaf rowName) >>= fun cs =>
      pure (.ofJson rowName (some (.all cs))) := rfl
    rw [hlist, FilterExpr.compile_leaves (fun _ => Filter.compileLevels_all) h]
    cases hleaves : (f :: fs).mapM (Filter.leaf rowName) with
    | error e => exact ⟨fun _ => Iff.rfl, nofun⟩
    | ok cs =>
      refine ⟨fun _ => iff_of_false nofun nofun, ?_⟩
      rintro _ ⟨⟩
      have hlength := (mapM_eq_ok_iff.1 hleaves).length_eq
      have hne : cs ≠ [] := by
        rintro rfl
        cases hlength
      have hparameters : (CompiledFilter.ofJson rowName (some (.all cs))).parameters =
          (CompiledFilter.ofJson rowName (Filter.group .all cs)).parameters :=
        (Condition.childParameters_eq_flatMap cs).trans
          (CompiledFilter.parameters_group rowName cs fun _ => rfl).symm
      have hholds := CompiledFilter.holdsOn_group_all rowName cs
      refine ⟨_, rfl, hparameters, fun properties => (hholds properties).symm,
        fun s k before after limit => ?_, fun hmany => ?_⟩
      · refine s.queryLatest_congr rfl (CompiledFilter.isEmpty_group rowName cs hne).symm
          (fun properties => (hholds properties).symm) ?_
        simp only [List.flatMap_append, List.flatMap_cons, Criterion.bound, hparameters]
      · rcases cs with _ | ⟨c, _ | ⟨c', cs⟩⟩
        · exact absurd rfl hne
        · exact absurd hlength hmany
        · rfl

/-- A single filter has parentheses only in a list, and a filter that is refused is refused in
both. -/
theorem compileAll_of_one_like_group :
    (∃ c c', compileAll [⟨.str "x", .gt, .int 3⟩] = .ok c ∧
      (FilterExpr.all [.leaf ⟨.str "x", .gt, .int 3⟩]).compile = .ok c' ∧
        c.predicate ≠ c'.predicate ∧ c.parameters = c'.parameters ∧
          ∀ properties, c.holdsOn properties = c'.holdsOn properties) ∧
    (FilterExpr.all [.leaf ⟨.str "x", .gt, .int 3⟩, .leaf ⟨.str "x", .gt, .str "a"⟩]).compile =
      .error (.needsNumber .gt .text) := by
  obtain ⟨-, hcompiles⟩ :=
    @compileAll_like_group (.str "e") [⟨.str "x", .gt, .int 3⟩] (by decide)
  obtain ⟨hfails, -⟩ := @compileAll_like_group (.str "e")
    [⟨.str "x", .gt, .int 3⟩, ⟨.str "x", .gt, .str "a"⟩] (by decide)
  obtain ⟨c', hc', hparameters, hholds, -⟩ := hcompiles _ rfl
  refine ⟨⟨_, c', rfl, hc', ?_, hparameters, hholds⟩, (hfails _).1 rfl⟩
  cases hc'
  decide +kernel

end PropertyFilter

/-! Membership in a list and comparisons with its items. -/

/-- The negation of a disjunction is the conjunction of the negations. -/
theorem Truth.map_not_disj (ts : List Truth) :
    (disj ts).map (true ^^ ·) = conj (ts.map fun t => t.map (true ^^ ·)) := by
  induction ts with
  | nil => rfl
  | cons t ts ih =>
    rw [disj_cons, List.map_cons, conj_cons, ← ih]
    rcases t with _ | _ | _ <;> rcases disj ts with _ | _ | _ <;> rfl

namespace Condition

namespace Test

variable (reading : Reading) (operands : List Scalar) (v : Scalar)

theorem truth_member : (member reading false operands).truth v =
    Truth.disj ((operands.map (compare reading .equal)).map fun test => test.truth v) := by
  have hid (t : Truth) : t.map (false ^^ ·) = t := by
    rcases t with _ | _ | _ <;> rfl
  rw [truth, hid, memberTruth, List.map_map, List.map_map]
  rfl

theorem truth_nonmember : (member reading true operands).truth v =
    Truth.conj ((operands.map (compare reading .unequal)).map fun test => test.truth v) := by
  have hunequal (o : Option Ordering) :
      (o.map Comparison.equal.allows).map (true ^^ ·) = o.map Comparison.unequal.allows := by
    rcases o with _ | _ | _ | _ <;> rfl
  rw [truth, memberTruth, Truth.map_not_disj, List.map_map, List.map_map, List.map_map]
  exact congrArg Truth.conj (List.map_congr_left fun operand _ => hunequal _)

end Test

variable {path : Path} {test : Test} {tests : List Test}

/-- A way of joining conditions, and how what is joined comes out of its parts: in their order, and
failing if already the first does. -/
structure Folds (join : List Condition → Condition) (fold : List Truth → Truth) : Prop where
  single : ∀ t, fold [t] = t
  parameters : ∀ cs, (join cs).parameters = childParameters cs
  truth : ∀ d cs, (join cs).truth d = fold (truths d cs)
  holds : ∀ {d cs}, (∀ c ∈ cs, ∃ b, c.holds d = .ok b) → ∃ b, (join cs).holds d = .ok b
  fails : ∀ {d c cs e}, c.holds d = .error e → (join (c :: cs)).holds d = .error e

theorem folds_all : Folds .all Truth.conj where
  single := Truth.conj_singleton
  parameters _ := rfl
  truth _ _ := rfl
  holds h := exists_allHold h
  fails h := by rw [Condition.holds, allHold, h]; rfl

theorem folds_any : Folds .any Truth.disj where
  single := Truth.disj_singleton
  parameters _ := rfl
  truth _ _ := rfl
  holds h := exists_anyHolds h
  fails h := by rw [Condition.holds, anyHolds, h]; rfl

/-- A group of tests at one path is evaluated like the single test that means what they do. -/
theorem Folds.holds_group {join : List Condition → Condition} {fold : List Truth → Truth}
    (hfolds : Folds join fold) (hfault : test.fault? = none)
    (hfaults : ∀ t ∈ tests, t.fault? = none)
    (htruth : ∀ v, test.truth v = fold (tests.map fun t => t.truth v)) {c : Condition}
    (hc : Filter.group join (tests.map (leaf path)) = some c) (d : Option Json.Document) :
    c.holds d = (leaf path test).holds d := by
  rcases tests with _ | ⟨t, _ | ⟨t', rest⟩⟩
  · cases hc
  · cases hc
    cases d with
    | none => rfl
    | some d =>
      rw [holds_leaf path (hfaults t List.mem_cons_self), holds_leaf path hfault, htruth,
        List.map_singleton, hfolds.single]
  · cases hc
    cases d with
    | none => exact hfolds.fails rfl
    | some d =>
      obtain ⟨b, hb⟩ := hfolds.holds (List.forall_mem_map.2 fun t ht =>
        ⟨_, holds_leaf path (hfaults t ht) d⟩)
      refine hb.trans ?_
      rw [eq_truth_of_holds _ hb, hfolds.truth,
        truths_eq_map, List.map_map, holds_leaf path hfault, htruth]
      rfl

end Condition

/-- Whether scalars can be handed over, and why not, does not depend on their places. -/
theorem Json.firstBindFault?_scalars (values : List Scalar) (place : Nat) :
    firstBindFault? place (values.map Scalar.toJson) =
      values.findSome? fun v => v.toJson.bindFault? 1 := by
  induction values generalizing place with
  | nil => rfl
  | cons v rest ih =>
    have hplace : v.toJson.bindFault? place = v.toJson.bindFault? 1 := by cases v <;> rfl
    rw [List.map_cons, firstBindFault?, hplace, ih, List.findSome?_cons]
    cases v.toJson.bindFault? 1 <;> rfl

/-- A text that is handed over once or before each of some scalars makes no difference. -/
theorem Json.handOver_interspersed (text : String) (values : List Scalar) (place : Nat) :
    handOver ((.text text :: values).map Scalar.toJson) place =
      handOver ((values.flatMap fun v => [.text text, v]).map Scalar.toJson) place := by
  have htext : (Scalar.text text).toJson.bindFault? 1 = none := bindFault?_str text 1
  have hfirst : (Scalar.text text :: values).findSome? (fun v => v.toJson.bindFault? 1) =
      (values.flatMap fun v => [.text text, v]).findSome? fun v => v.toJson.bindFault? 1 := by
    rw [List.findSome?_cons, htext]
    induction values with
    | nil => rfl
    | cons v rest ih => simp only [List.flatMap_cons, List.cons_append, List.nil_append,
        List.findSome?_cons, htext, ih]
  unfold handOver
  rw [firstBindFault?_scalars, firstBindFault?_scalars, hfirst]

section

variable {rowName p : Json} {path : Path} {items : List Json} {reading : Condition.Reading}
  {negated : Bool} {comparison : Condition.Comparison} {join : List Condition → Condition}
  {fold : List Truth → Truth}

/-- A test of membership agrees with the group of comparisons with the single operands, if these
mean together what it does. -/
theorem CompiledFilter.agrees_group {operands : List Scalar} (hne : operands ≠ [])
    (hfolds : Condition.Folds join fold)
    (htruth : ∀ v, (Condition.Test.member reading negated operands).truth v =
      fold ((operands.map (Condition.Test.compare reading comparison)).map fun t => t.truth v)) :
    (ofJson rowName (some (.leaf path (.member reading negated operands)))).Agrees
      (ofJson rowName (Filter.group join
        ((operands.map (Condition.Test.compare reading comparison)).map (.leaf path)))) := by
  have hne' : (operands.map (Condition.Test.compare reading comparison)).map
      (Condition.leaf path) ≠ [] := by simpa using hne
  constructor
  · rfl
  · exact (isEmpty_group rowName _ hne').symm
  · intro place
    rw [parameters_group rowName _ hfolds.parameters, List.map_map, List.flatMap_map]
    exact Json.handOver_interspersed path.canonical operands place
  · intro properties
    obtain ⟨c, hc⟩ := exists_group _ hne'
    have hfaults : ∀ t ∈ operands.map (Condition.Test.compare reading comparison),
        t.fault? = none := List.forall_mem_map.2 fun _ _ => rfl
    have hholds := hfolds.holds_group rfl hfaults htruth hc (queryDocument? properties)
    rw [hc]
    exact (congrArg (Except.mapError Fault.evaluation) hholds).symm

/-- A filter for membership agrees with the group of filters for the single items. -/
theorem PropertyFilter.exists_agrees {op single : Filter.Operator}
    {group : List FilterExpr → FilterExpr} (hrow : Filter.checkRowName rowName = .ok ())
    (hpath : Path.ofJson p = .ok path) (hne : items ≠ [])
    (hcount : items.length ≤ FilterExpr.maxChildren)
    (hgroup : ∀ levels children, Filter.compileLevels rowName (levels + 1) (group children) =
      Filter.compileGroup rowName levels join children)
    (hfolds : Condition.Folds join fold)
    (htest : Filter.test op (.arr items) =
      .ok (.member reading negated (items.map Filter.operand)))
    (hsingle : ∀ v ∈ items,
      Filter.test single v = .ok (.compare reading comparison (Filter.operand v)))
    (htruth : ∀ operands v, (Condition.Test.member reading negated operands).truth v =
      fold ((operands.map (Condition.Test.compare reading comparison)).map fun t => t.truth v)) :
    ∃ c c', compile ⟨p, op, .arr items⟩ rowName = .ok c ∧
      (group (items.map fun v => .leaf ⟨p, single, v⟩)).compile rowName = .ok c' ∧
        c.Agrees c' := by
  have hleaves : (items.map fun v => ⟨p, single, v⟩).mapM (Filter.leaf rowName) = .ok
      (((items.map Filter.operand).map (Condition.Test.compare reading comparison)).map
        (.leaf path)) := by
    rw [mapM_eq_ok_iff]
    simp only [List.forall₂_map_left_iff, List.forall₂_map_right_iff, List.forall₂_same]
    exact fun v hv => Filter.leaf_eq hrow hpath (hsingle v hv)
  have hcompiled := FilterExpr.compile_leaves hgroup
    ((List.length_map (fun v => (⟨p, single, v⟩ : PropertyFilter))).trans_le hcount)
  rw [hleaves, List.map_map] at hcompiled
  refine ⟨_, _, ?_, hcompiled, CompiledFilter.agrees_group (by simpa using hne) hfolds (htruth _)⟩
  rw [compile, Filter.leaf_eq hrow hpath htest]
  rfl

end

namespace PropertyFilter

variable {rowName p : Json} {path : Path} {items : List Json} {kind : ValueKind}

/-- To be in a list of texts, of numbers or of booleans is to be equal to one of the items, and not
to be in it is to be unequal to all of them: the filter finds the same stored properties as the
group of comparisons does, whatever these hold. -/
theorem membership_like_comparisons (hrow : Filter.checkRowName rowName = .ok ())
    (hpath : Path.ofJson p = .ok path) (hkind : kind ∈ [.text, .number, .boolean])
    (hitems : ∀ v ∈ items, ValueKind.of v = kind) (hne : items ≠ []) (hcount : items.length ≤ 50) :
    (∃ c c', compile ⟨p, .oneOf, .arr items⟩ rowName = .ok c ∧
      (FilterExpr.any (items.map fun v => .leaf ⟨p, .eq, v⟩)).compile rowName = .ok c' ∧
        c.Agrees c') ∧
    ∃ c c', compile ⟨p, .noneOf, .arr items⟩ rowName = .ok c ∧
      (FilterExpr.all (items.map fun v => .leaf ⟨p, .ne, v⟩)).compile rowName = .ok c' ∧
        c.Agrees c' := by
  obtain ⟨reading, hreading⟩ : ∃ reading, Filter.readingFor? kind = some reading := by
    simp only [List.mem_cons, List.not_mem_nil, or_false] at hkind
    rcases hkind with rfl | rfl | rfl <;> exact ⟨_, rfl⟩
  have htests (v : Json) (hv : v ∈ items) := Filter.test_eq (hitems v hv ▸ hreading)
  constructor
  · exact exists_agrees hrow hpath hne hcount (fun _ => Filter.compileLevels_any)
      Condition.folds_any (Filter.membership_eq hne hitems hreading)
      (fun v hv => (htests v hv).1) (Condition.Test.truth_member reading)
  · exact exists_agrees hrow hpath hne hcount (fun _ => Filter.compileLevels_all)
      Condition.folds_all (Filter.membership_eq hne hitems hreading)
      (fun v hv => (htests v hv).2) (Condition.Test.truth_nonmember reading)

theorem one_or_two_like_comparisons :
    CompiledFilter.Agrees
        ⟨"e", some (.leaf [.property "x"] (.member .real false [.integer 1, .integer 2]))⟩
        ⟨"e", some (.any [.leaf [.property "x"] (.compare .real .equal (.integer 1)),
          .leaf [.property "x"] (.compare .real .equal (.integer 2))])⟩ ∧
      CompiledFilter.Agrees
        ⟨"e", some (.leaf [.property "x"] (.member .asIs true [.text "a"]))⟩
        ⟨"e", some (.leaf [.property "x"] (.compare .asIs .unequal (.text "a")))⟩ := by
  have htwo := @membership_like_comparisons (.str "e") (.str "x") [.property "x"]
    [.int 1, .int 2] .number rfl rfl (by decide) (by decide) (by simp) (by decide)
  have hone := @membership_like_comparisons (.str "e") (.str "x") [.property "x"]
    [.str "a"] .text rfl rfl (by decide) (by decide) (by simp) (by decide)
  obtain ⟨⟨c, c', hc, hc', hagrees⟩, -⟩ := htwo
  obtain ⟨-, d, d', hd, hd', hagrees'⟩ := hone
  cases hc
  cases hc'
  cases hd
  cases hd'
  exact ⟨hagrees, hagrees'⟩

end PropertyFilter

end VersionedGraph
