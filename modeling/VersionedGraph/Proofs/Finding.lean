import VersionedGraph.Proofs.Access
import VersionedGraph.Proofs.Canonical
import VersionedGraph.Proofs.Descent
import VersionedGraph.Proofs.Meaning

/-!
# What finds a stored value

A value that properties hold at a path is compared there with the operand of a filter only after it
was written, read again and cast as the kind of the operand demands. Texts and booleans come through
as they are, and so do the integers that a double has room for (`Json.IsKept`). A filter for such a
value finds the properties that hold it (`Store.kept_values_are_found`); one for another integer
does not (`PropertyFilter.finds_int_iff`).
-/

namespace VersionedGraph

theorem Truth.disj_eq_false_iff {ts : List Truth} :
    disj ts = some false ↔ ∀ t ∈ ts, t = some false := by
  induction ts with
  | nil => simp
  | cons t rest ih =>
    rw [disj_cons, List.forall_mem_cons, ← ih]
    rcases t with _ | _ | _ <;> rcases disj rest with _ | _ | _ <;> simp [or]

/-- A filter can be asked on its own, and comes out in this way for stored properties. -/
def PropertyFilter.Finds (f : PropertyFilter) (properties : String) (found : Bool) : Prop :=
  ∃ c, f.compile = .ok c ∧ Json.handOver (c.parameters.map Scalar.toJson) = .ok () ∧
    c.holdsOn properties = .ok found

namespace Filter

/-- The test for being equal to a value, and the one for being unequal. -/
theorem test_eq {value : Json} {reading : Condition.Reading}
    (h : readingFor? (ValueKind.of value) = some reading) :
    test .eq value = .ok (.compare reading .equal (operand value)) ∧
      test .ne value = .ok (.compare reading .unequal (operand value)) := by
  cases value <;> cases h <;> exact ⟨rfl, rfl⟩

theorem membership_eq {op : Operator} {negated : Bool} {items : List Json} {kind : ValueKind}
    {reading : Condition.Reading} (hne : items ≠ []) (hkind : ∀ w ∈ items, ValueKind.of w = kind)
    (h : readingFor? kind = some reading) :
    membership op negated (.arr items) = .ok (.member reading negated (items.map operand)) := by
  obtain ⟨v, rest, rfl⟩ := List.exists_cons_of_ne_nil hne
  obtain ⟨rfl, hrest⟩ := List.forall_mem_cons.1 hkind
  have hall : (rest.all fun w => decide (ValueKind.of w = ValueKind.of v)) = true := by
    simpa using hrest
  simp only [membership, h, hall, if_true]

theorem leaf_eq {rowName p value : Json} {op : Operator} {path : Path} {test : Condition.Test}
    (hrow : checkRowName rowName = .ok ()) (hpath : Path.ofJson p = .ok path)
    (htest : Filter.test op value = .ok test) :
    leaf rowName ⟨p, op, value⟩ = .ok (.leaf path test) := by
  rw [leaf, Filter.path, hrow, hpath, htest]
  rfl

/-- A value is handed over as what it is bound as. -/
theorem bindFault?_operand {value : Json} {reading : Condition.Reading}
    (h : readingFor? (ValueKind.of value) = some reading) :
    (operand value).toJson.bindFault? 1 = value.bindFault? 1 := by
  cases value with
  | bool b => cases b <;> rfl
  | null | arr _ | obj _ => cases h
  | _ => rfl

theorem handOver_operands {items : List Json} {kind : ValueKind} {reading : Condition.Reading}
    (hkind : ∀ w ∈ items, ValueKind.of w = kind) (h : readingFor? kind = some reading) :
    Json.handOver ((items.map operand).map Scalar.toJson) = .ok () ↔
      Json.handOver items = .ok () := by
  rw [Json.handOver_eq_ok_iff, Json.handOver_eq_ok_iff, List.map_map, List.forall_mem_map]
  refine forall₂_congr fun w hw => ?_
  rw [Function.comp_apply, bindFault?_operand (hkind w hw ▸ h)]

end Filter

namespace PropertyFilter

section

variable {p value : Json} {op : Filter.Operator} {path : Path} {test : Condition.Test}
  {properties : String} {d : Json.Document} {found : Bool}

theorem compile_eq (hpath : Path.ofJson p = .ok path) (htest : Filter.test op value = .ok test) :
    compile ⟨p, op, value⟩ = .ok ⟨"e", some (.leaf path test)⟩ :=
  compile_of_leaf (k := .entity) (Filter.leaf_eq rfl hpath htest)

/-- How a filter comes out is how its test does for the scalar at its path. -/
theorem finds_iff (hpath : Path.ofJson p = .ok path) (htest : Filter.test op value = .ok test)
    (hfault : test.fault? = none)
    (hhanded : Json.handOver (test.operands.map Scalar.toJson) = .ok ())
    (hdocument : queryDocument? properties = some d) :
    Finds ⟨p, op, value⟩ properties found ↔
      decide (test.truth (d.scalarAt path) = some true) = found := by
  have hcompiled := compile_eq hpath htest
  have hholds : CompiledFilter.holdsOn ⟨"e", some (.leaf path test)⟩ properties =
      .ok (decide (test.truth (d.scalarAt path) = some true)) := by
    change ((Condition.leaf path test).holds (queryDocument? properties)).mapError _ = _
    rw [hdocument, Condition.holds_leaf path hfault, mapError_ok]
  constructor
  · rintro ⟨c, hc, -, hfound⟩
    rw [hcompiled, Except.ok.injEq] at hc
    rw [← hc, hholds, Except.ok.injEq] at hfound
    exact hfound
  · rintro rfl
    refine ⟨_, hcompiled, ?_, hholds⟩
    rw [Json.handOver_eq_ok_iff] at hhanded ⊢
    exact List.forall_mem_cons.2 ⟨Json.bindFault?_str _ 1, hhanded⟩

/-- A filter that can be asked has operands that can be handed over. -/
theorem Finds.exists_test (h : Finds ⟨p, op, value⟩ properties found) :
    ∃ test, Filter.test op value = .ok test ∧
      Json.handOver (test.operands.map Scalar.toJson) = .ok () := by
  obtain ⟨c, hc, hhanded, -⟩ := h
  simp only [compile, Filter.leaf, bind_eq_ok_iff, pure_eq_ok_iff] at hc
  obtain ⟨_, ⟨_, _, path, _, test, htest, rfl⟩, rfl⟩ := hc
  rw [CompiledFilter.ofJson_str, Json.handOver_eq_ok_iff] at hhanded
  exact ⟨test, htest, Json.handOver_eq_ok_iff.2 (List.forall_mem_cons.1 hhanded).2⟩

/-- A filter comes out just when its operands can be handed over and its test runs into no fault. -/
theorem finds_iff_of_test (hpath : Path.ofJson p = .ok path)
    (htest : Filter.test op value = .ok test) (hdocument : queryDocument? properties = some d) :
    Finds ⟨p, op, value⟩ properties found ↔
      (test.fault? = none ∧ Json.handOver (test.operands.map Scalar.toJson) = .ok ()) ∧
        decide (test.truth (d.scalarAt path) = some true) = found := by
  constructor
  · intro h
    obtain ⟨test', htest', hhanded⟩ := h.exists_test
    rw [htest, Except.ok.injEq] at htest'
    subst htest'
    have hfault : test.fault? = none := by
      obtain ⟨c, hc, -, hfound⟩ := h
      rw [compile_eq hpath htest, Except.ok.injEq] at hc
      subst hc
      change (test.holds (queryDocument? properties) path).mapError Fault.evaluation = _ at hfound
      unfold Condition.Test.holds at hfound
      rw [hdocument] at hfound
      cases hfault : test.fault? with
      | none => rfl
      | some fault =>
        rw [hfault] at hfound
        cases hfound
    exact ⟨⟨hfault, hhanded⟩, (finds_iff hpath htest hfault hhanded hdocument).1 h⟩
  · rintro ⟨⟨hfault, hhanded⟩, hfound⟩
    exact (finds_iff hpath htest hfault hhanded hdocument).2 hfound

/-- Properties that cannot be looked into make every filter fail. -/
theorem holdsOn_eq_error {f : PropertyFilter} {c : CompiledFilter} (h : f.compile = .ok c)
    (hdocument : queryDocument? properties = none) :
    c.holdsOn properties = .error (.evaluation .malformedDocument) := by
  simp only [compile, bind_eq_ok_iff, pure_eq_ok_iff] at h
  obtain ⟨condition, hleaf, rfl⟩ := h
  have hnone := (written_of_leaf (k := .entity) hleaf).holds_none
  rw [CompiledFilter.ofJson_str]
  change (condition.holds (queryDocument? properties)).mapError Fault.evaluation = _
  rw [hdocument, hnone]
  rfl

end

section

variable {p v : Json} {path : Path} {properties : String} {d : Json.Document} {found : Bool}
  {items : List Json} {reading : Condition.Reading}

/-- The order in which a filter sees the scalar at its path and the operand that it has for a
value. -/
def order? (reading : Condition.Reading) (d : Json.Document) (path : Path) (v : Json) :
    Option Ordering :=
  (reading.read (d.scalarAt path)).compare? (Filter.operand v).seen

/-- A comparison finds what stands to its operand in an order that it asks for. -/
theorem finds_compare_iff {op : Filter.Operator} {comparison : Condition.Comparison}
    (htest : Filter.test op v = .ok (.compare reading comparison (Filter.operand v)))
    (hpath : Path.ofJson p = .ok path) (hdocument : queryDocument? properties = some d)
    (hreading : Filter.readingFor? (ValueKind.of v) = some reading)
    (hhanded : v.bindFault? 1 = none) :
    Finds ⟨p, op, v⟩ properties found ↔
      (order? reading d path v).any comparison.allows = found := by
  have hoperand := (Filter.bindFault?_operand hreading).trans hhanded
  rw [finds_iff hpath htest rfl
    (Json.handOver_eq_ok_iff.2 (List.forall_mem_singleton.2 hoperand)) hdocument]
  have htruth (o : Option Ordering) :
      decide (o.map comparison.allows = some true) = o.any comparison.allows := by
    cases o <;> simp
  exact iff_of_eq (congrArg (· = found) (htruth (order? reading d path v)))

theorem finds_eq_iff (hpath : Path.ofJson p = .ok path)
    (hdocument : queryDocument? properties = some d)
    (hreading : Filter.readingFor? (ValueKind.of v) = some reading)
    (hhanded : v.bindFault? 1 = none) :
    Finds ⟨p, .eq, v⟩ properties found ↔
      decide (order? reading d path v = some .eq) = found := by
  have hallows (o : Option Ordering) :
      o.any Condition.Comparison.equal.allows = decide (o = some .eq) := by
    rcases o with _ | _ | _ | _ <;> rfl
  rw [finds_compare_iff (Filter.test_eq hreading).1 hpath hdocument hreading hhanded, hallows]

theorem finds_ne_iff (hpath : Path.ofJson p = .ok path)
    (hdocument : queryDocument? properties = some d)
    (hreading : Filter.readingFor? (ValueKind.of v) = some reading)
    (hhanded : v.bindFault? 1 = none) :
    Finds ⟨p, .ne, v⟩ properties found ↔ (order? reading d path v).any (· ≠ .eq) = found :=
  finds_compare_iff (Filter.test_eq hreading).2 hpath hdocument hreading hhanded

theorem finds_member_iff {op : Filter.Operator} {negated : Bool}
    (hop : Filter.test op (.arr items) = Filter.membership op negated (.arr items))
    (hpath : Path.ofJson p = .ok path) (hdocument : queryDocument? properties = some d)
    (hreading : Filter.readingFor? (ValueKind.of v) = some reading) (hmem : v ∈ items)
    (hkind : ∀ w ∈ items, ValueKind.of w = ValueKind.of v)
    (hhanded : Json.handOver items = .ok ()) :
    Finds ⟨p, op, .arr items⟩ properties found ↔
      decide ((Truth.disj (items.map fun w =>
        (order? reading d path w).map Condition.Comparison.equal.allows)).map (negated ^^ ·) =
          some true) = found := by
  have htest := hop.trans (Filter.membership_eq (List.ne_nil_of_mem hmem) hkind hreading)
  rw [finds_iff hpath htest rfl ((Filter.handOver_operands hkind hreading).2 hhanded) hdocument]
  simp only [Condition.Test.truth, Condition.Test.memberTruth, List.map_map]
  rfl

/-- Among values of one kind something is found that is equal to one of them. -/
theorem finds_oneOf_iff (hpath : Path.ofJson p = .ok path)
    (hdocument : queryDocument? properties = some d)
    (hreading : Filter.readingFor? (ValueKind.of v) = some reading) (hmem : v ∈ items)
    (hkind : ∀ w ∈ items, ValueKind.of w = ValueKind.of v)
    (hhanded : Json.handOver items = .ok ()) :
    Finds ⟨p, .oneOf, .arr items⟩ properties found ↔
      decide (∃ w ∈ items, order? reading d path w = some .eq) = found := by
  have hequal (o : Option Ordering) :
      o.map Condition.Comparison.equal.allows = some true ↔ o = some .eq := by
    rcases o with _ | _ | _ | _ <;> decide
  have htruth (t : Truth) : t.map (false ^^ ·) = t := by
    rcases t with _ | _ | _ <;> rfl
  rw [finds_member_iff rfl hpath hdocument hreading hmem hkind hhanded, htruth]
  simp only [Truth.disj_eq_true_iff, List.mem_map, hequal]

theorem finds_noneOf_iff (hpath : Path.ofJson p = .ok path)
    (hdocument : queryDocument? properties = some d)
    (hreading : Filter.readingFor? (ValueKind.of v) = some reading) (hmem : v ∈ items)
    (hkind : ∀ w ∈ items, ValueKind.of w = ValueKind.of v)
    (hhanded : Json.handOver items = .ok ()) :
    Finds ⟨p, .noneOf, .arr items⟩ properties found ↔
      decide (∀ w ∈ items, (order? reading d path w).any (· ≠ .eq) = true) = found := by
  have hunequal (o : Option Ordering) :
      o.map Condition.Comparison.equal.allows = some false ↔ o.any (· ≠ .eq) = true := by
    rcases o with _ | _ | _ | _ <;> decide
  have htruth (t : Truth) : t.map (true ^^ ·) = some true ↔ t = some false := by
    rcases t with _ | _ | _ <;> decide
  rw [finds_member_iff rfl hpath hdocument hreading hmem hkind hhanded]
  simp only [htruth, Truth.disj_eq_false_iff, List.forall_mem_map, hunequal]

end

/-- Stored properties are found at a path by a value, and among others of its kind. -/
structure FoundBy (properties : String) (p v : Json) : Prop where
  eq : Finds ⟨p, .eq, v⟩ properties true
  ne : Finds ⟨p, .ne, v⟩ properties false
  oneOf {items : List Json} (hmem : v ∈ items)
    (hkind : ∀ w ∈ items, ValueKind.of w = ValueKind.of v)
    (hhanded : Json.handOver items = .ok ()) : Finds ⟨p, .oneOf, .arr items⟩ properties true
  noneOf {items : List Json} (hmem : v ∈ items)
    (hkind : ∀ w ∈ items, ValueKind.of w = ValueKind.of v)
    (hhanded : Json.handOver items = .ok ()) : Finds ⟨p, .noneOf, .arr items⟩ properties false

end PropertyFilter

theorem fitsWord_of_natAbs {n : Int} (h : n.natAbs < 2 ^ 63) : fitsWord n = true := by
  have hbound : wordBound = 2 ^ 63 := rfl
  simp only [fitsWord, Bool.and_eq_true, decide_eq_true_eq]
  omega

theorem LooseText.compare_self (s : LooseText) : compare s s = .eq := by
  change compare (s.points.map (·.toNat)) _ = .eq
  exact Std.ReflOrd.compare_self

theorem Binary64.compareInt_ofInt_eq_iff {n : Int} (h : n.natAbs < 2 ^ 63) :
    (ofInt n).compareInt n = .eq ↔ HasRoomFor n := by
  rw [compareInt, compare_eq_iff_eq, scaled_ofInt_eq_iff h]

namespace Json

/-- A value that a filter meets as it was stored: a text of characters other than the null
character, a boolean, or an integer with a 64-bit form that a double has room for. -/
inductive IsKept : Json → Prop where
  | text {s : String} (h : Char.ofNat 0 ∉ s.toList) : IsKept (.str s)
  | bool (b : Bool) : IsKept (.bool b)
  | int {n : Int} (hword : n.natAbs < 2 ^ 63) (hroom : Binary64.HasRoomFor n) : IsKept (.int n)

theorem ofDocument_str {s : String} (h : Char.ofNat 0 ∉ s.toList) :
    Scalar.ofDocument (Document.ofJson (.str s)) = .text s := by
  have hall : ((LooseText.ofString s).points.takeWhile (· ≠ .char (Char.ofNat 0))) =
      (LooseText.ofString s).points := by
    rw [List.takeWhile_eq_self_iff]
    intro point hpoint
    obtain ⟨c, hc, rfl⟩ := List.mem_map.1 hpoint
    simp only [decide_eq_true_eq, ne_eq, CodePoint.char.injEq]
    rintro rfl
    exact h hc
  change Scalar.text ⟨(unquote (escaped s)).points.takeWhile _⟩ = _
  rw [escaped, unquote_escaped, hall]

theorem ofDocument_int {n : Int} (h : n.natAbs < 2 ^ 63) :
    Scalar.ofDocument (Document.ofJson (.int n)) = .integer n := by
  change Scalar.ofLexeme (intText n) = _
  unfold Scalar.ofLexeme
  dsimp only
  rw [toInt_leading_intText, isIntegerLexeme_intText, fitsWord_of_natAbs h]
  rfl

namespace IsKept

variable {v : Json}

theorem bindFault? (h : v.IsKept) : v.bindFault? 1 = none := by
  cases h with
  | text => exact bindFault?_str _ 1
  | bool b => rfl
  | int hword => exact bindFault?_int (fitsWord_of_natAbs hword) 1

/-- The scalar that a value counts as where it is stored is equal to the operand for it. -/
theorem exists_reading (h : v.IsKept) :
    ∃ reading, Filter.readingFor? (ValueKind.of v) = some reading ∧
      (reading.read (Scalar.ofDocument (Document.ofJson v))).compare? (Filter.operand v).seen =
        some .eq := by
  cases h with
  | @text s hnull =>
    refine ⟨.asIs, rfl, ?_⟩
    rw [ofDocument_str hnull]
    exact congrArg some (LooseText.compare_self s)
  | bool b => exact ⟨.integer, rfl, by cases b <;> decide⟩
  | @int n hword hroom =>
    refine ⟨.real, rfl, ?_⟩
    rw [ofDocument_int hword]
    exact congrArg some ((Binary64.compareInt_ofInt_eq_iff hword).2 hroom)

theorem foundBy (h : v.IsKept) {p : Json} {path : Path} {properties : String} {d : Document}
    (hpath : Path.ofJson p = .ok path) (hdocument : queryDocument? properties = some d)
    (hfind : d.find? path = some (Document.ofJson v)) :
    PropertyFilter.FoundBy properties p v := by
  obtain ⟨reading, hreading, hread⟩ := h.exists_reading
  have horder : PropertyFilter.order? reading d path v = some .eq := by
    rw [PropertyFilter.order?, Document.scalarAt, hfind]
    exact hread
  constructor
  · rw [PropertyFilter.finds_eq_iff hpath hdocument hreading h.bindFault?, horder]
    rfl
  · rw [PropertyFilter.finds_ne_iff hpath hdocument hreading h.bindFault?, horder]
    rfl
  · intro items hmem hkind hhanded
    rw [PropertyFilter.finds_oneOf_iff hpath hdocument hreading hmem hkind hhanded,
      decide_eq_true_eq]
    exact ⟨v, hmem, horder⟩
  · intro items hmem hkind hhanded
    rw [PropertyFilter.finds_noneOf_iff hpath hdocument hreading hmem hkind hhanded,
      decide_eq_false_iff_not]
    intro hall
    have hv := hall v hmem
    rw [horder] at hv
    cases hv

end IsKept

end Json

/-- A stored integer is found by itself just when a double has room for it. -/
theorem PropertyFilter.finds_int_iff {p : Json} {path : Path} {properties : String}
    {d : Json.Document} {n : Int} (hword : n.natAbs < 2 ^ 63) (hpath : Path.ofJson p = .ok path)
    (hdocument : queryDocument? properties = some d)
    (hfind : d.find? path = some (Json.Document.ofJson (.int n))) :
    Finds ⟨p, .eq, .int n⟩ properties true ↔ Binary64.HasRoomFor n := by
  have hfits := Json.bindFault?_int (fitsWord_of_natAbs hword) 1
  have horder : order? .real d path (.int n) = some ((Binary64.ofInt n).compareInt n) := by
    rw [order?, Json.Document.scalarAt, hfind, Option.map_some, Json.ofDocument_int hword]
    rfl
  rw [finds_eq_iff hpath hdocument rfl hfits, horder, decide_eq_true_eq, Option.some.injEq,
    Binary64.compareInt_ofInt_eq_iff hword]

/-- A filter for a text with halves of surrogate pairs cannot be asked. -/
theorem PropertyFilter.not_finds_of_halves {p : Json} {s : LooseText} {properties : String}
    {found : Bool} (h : s.firstHalves? ≠ none) : ¬Finds ⟨p, .eq, .str s⟩ properties found := by
  intro hfinds
  obtain ⟨test, htest, hhanded⟩ := hfinds.exists_test
  cases htest
  exact h (Json.firstHalves?_of_handOver hhanded List.mem_cons_self)

theorem PropertyFilter.not_finds_of_closed {f : PropertyFilter} {v : Json} {found : Bool}
    (h : ¬v.IsOpen) : ¬f.Finds (Json.storedText v) found := by
  rintro ⟨c, hc, -, hfound⟩
  rw [holdsOn_eq_error hc (by rw [queryDocument?_storedText, if_neg h])] at hfound
  cases hfound

namespace Store

variable {s t : Store} {c : Creation .entity} {stamp : Stamp} {columns : Columns .entity}
  {fields : List (LooseText × Json)}

theorem exists_row_of_create (h : (Action.create c stamp).Yields s columns t)
    (hproperties : c.properties = .obj fields) :
    ∃ row : ListedRow .entity,
      t = s.addListed row ∧ row.properties = Json.storedText (.obj fields) := by
  obtain ⟨-, -, row, hinsert⟩ := Action.create_yields_iff.1 h
  obtain ⟨hrow, _, _, _, rfl⟩ := Action.insert_yields_iff.1 hinsert
  have hstored : (c.columns stamp).properties = .obj fields := by
    rw [Creation.columns, hproperties]
    cases fields <;> rfl
  refine ⟨row, rfl, ?_⟩
  rw [hrow.properties, hstored]
  exact LooseText.replaced_ofString _

/-- A note that is created with properties. -/
def noteWith (properties : Json) : Creation .entity :=
  { typeId := .str "note", ends := (), properties }

def noteRow (properties : Json) : ListedRow .entity :=
  ⟨some "a", "note", (), Json.storedText properties, .integer 1, none, .integer 3, none, false,
    true, none⟩

theorem settled_noteWith (field : LooseText × Json) (rest : List (LooseText × Json))
    (hwritten : Columns.writeFault? (.obj (field :: rest)) = none) :
    ((noteWith (.obj (field :: rest))).columns ⟨"a", 3⟩).Settled
      (noteRow (.obj (field :: rest))) where
  written := hwritten
  handed := by
    change Json.handOver [.str "a", .str "note", .str (Json.storedText (.obj (field :: rest))),
      .int 1, .null, .int 3, .null, .bool false, .bool true, .null] = _
    simp [Json.handOver_eq_ok_iff, Json.bindFault?, fitsWord, wordBound]
  id := rfl
  typeId := rfl
  ends := rfl
  properties := (LooseText.replaced_ofString _).symm
  version := rfl
  positive := rfl
  previous := rfl
  createdAt := rfl
  createdBy := rfl
  isDeleted := rfl
  isLatest := rfl
  acl := rfl

theorem create_noteWith (field : LooseText × Json) (rest : List (LooseText × Json))
    (hwritten : Columns.writeFault? (.obj (field :: rest)) = none) :
    (Action.create (noteWith (.obj (field :: rest))) ⟨"a", 3⟩).Yields empty
      ((noteWith (.obj (field :: rest))).columns ⟨"a", 3⟩)
      (empty.addListed (noteRow (.obj (field :: rest)))) := by
  have hinsert := Action.insert_yields_iff.2
    ⟨settled_noteWith field rest hwritten, (rfl : empty.row? .entity "a" = none), rfl, rfl, rfl⟩
  exact Action.create_yields_iff.2 ⟨rfl, rfl, _, hinsert⟩

def variedProperties : Json :=
  .obj [("title", .str "caf\u00e9 \"a\""),
    ("marks", .arr [.null, .bool false, .int 9007199254740994])]

end Store

end VersionedGraph
