import VersionedGraph.Proofs.Finding

/-!
# Opposite comparisons

Each operator but those for patterns has an opposite. Where a path leads to a value, a filter finds
it just when the opposite filter does not, and one of the filters for what is less, equal or greater
does; where it leads to nothing, none of them finds anything, and only the filters that ask for
nothing tell (`PropertyFilter.one_of_opposites_finds`). How the kind of the value and that of the
operand are brought together does not matter for this, since something remains something however it
is read.
-/

namespace VersionedGraph

namespace Condition

theorem Reading.read_eq_null_iff {reading : Reading} {v : Scalar} :
    reading.read v = .null ↔ v = .null := by
  cases reading <;> cases v <;> simp [read, Scalar.toInteger, Scalar.toReal]

end Condition

theorem Scalar.compare?_eq_none_iff {v w : Scalar} :
    v.compare? w = none ↔ v = .null ∨ w = .null := by
  cases v <;> cases w <;> simp [compare?]

/-- Queries see a value as what it is: an integer has a 64-bit form, a double is a number, and a
text holds no half of a surrogate pair. -/
def Json.IsSeen : Json → Prop
  | .int n => fitsWord n = true
  | .float x => x.isNaN = false
  | .str s => s.firstHalves? = none
  | _ => True

namespace Json.IsSeen

variable {v : Json} {reading : Condition.Reading}

theorem bindFault? (h : v.IsSeen) (hreading : Filter.readingFor? (ValueKind.of v) = some reading) :
    v.bindFault? 1 = none := by
  cases v with
  | int n => exact bindFault?_int h 1
  | str s => exact Option.map_eq_none_iff.2 h
  | bool _ | float _ => rfl
  | null | arr _ | obj _ => cases hreading

theorem seen_operand_ne_null (h : v.IsSeen)
    (hreading : Filter.readingFor? (ValueKind.of v) = some reading) :
    (Filter.operand v).seen ≠ .null := by
  cases v with
  | float x =>
    rw [IsSeen] at h
    simp [Filter.operand, Scalar.seen, h]
  | bool _ | int _ | str _ => simp [Filter.operand, Scalar.seen]
  | null | arr _ | obj _ => cases hreading

end Json.IsSeen

/-- An operator takes a value. -/
def Filter.Operator.Accepts (op : Operator) (value : Json) : Prop :=
  ∃ test, Filter.test op value = .ok test

namespace PropertyFilter

/-- Each filter of a list comes out for stored properties, and this many of them find them. -/
def Find (fs : List PropertyFilter) (properties : String) (count : Nat) : Prop :=
  ∃ outcomes, List.Forall₂ (fun f found => f.Finds properties found) fs outcomes ∧
    outcomes.count true = count

end PropertyFilter

/-- One if a path leads to something in a document, zero if it leads to nothing. -/
def Json.Document.held (d : Document) (path : Path) : Nat :=
  if d.scalarAt path = .null then 0 else 1

namespace PropertyFilter

variable {p v : Json} {path : Path} {properties : String} {d : Json.Document} {found : Bool}
  {reading : Condition.Reading}

theorem order?_eq_none_iff (hseen : v.IsSeen)
    (hreading : Filter.readingFor? (ValueKind.of v) = some reading) :
    order? reading d path v = none ↔ d.scalarAt path = .null := by
  rw [order?, Scalar.compare?_eq_none_iff, Condition.Reading.read_eq_null_iff,
    or_iff_left (hseen.seen_operand_ne_null hreading)]

theorem held_of_order? {o : Ordering} (hseen : v.IsSeen)
    (hreading : Filter.readingFor? (ValueKind.of v) = some reading)
    (horder : order? reading d path v = some o) : d.scalarAt path ≠ .null := by
  intro hnull
  rw [(order?_eq_none_iff hseen hreading).2 hnull] at horder
  cases horder

/-- Comparisons with one operand find as many as there are among them that allow the order in which
it stands to what is held. -/
theorem find_comparisons (comparisons : List (Filter.Operator × Condition.Comparison))
    (hpath : Path.ofJson p = .ok path) (hdocument : queryDocument? properties = some d)
    (htest : ∀ q ∈ comparisons,
      Filter.test q.1 v = .ok (.compare reading q.2 (Filter.operand v)))
    (hseen : v.IsSeen) (hreading : Filter.readingFor? (ValueKind.of v) = some reading)
    (hcount : ∀ o : Ordering, (comparisons.map fun q => q.2.allows o).count true = 1) :
    Find (comparisons.map fun q => ⟨p, q.1, v⟩) properties (d.held path) := by
  refine ⟨comparisons.map fun q => (order? reading d path v).any q.2.allows, ?_, ?_⟩
  · rw [List.forall₂_map_left_iff, List.forall₂_map_right_iff, List.forall₂_same]
    intro q hq
    have hhanded := hseen.bindFault? hreading
    exact (finds_compare_iff (htest q hq) hpath hdocument hreading hhanded).2 rfl
  · rw [Json.Document.held]
    cases horder : order? reading d path v with
    | none =>
      rw [if_pos ((order?_eq_none_iff hseen hreading).1 horder)]
      simp [List.count_replicate]
    | some o =>
      rw [if_neg (held_of_order? hseen hreading horder)]
      exact hcount o

/-- Of the two filters for membership one finds what is held, and none finds nothing. -/
theorem find_memberships {items : List Json} (hpath : Path.ofJson p = .ok path)
    (hdocument : queryDocument? properties = some d) (hmem : v ∈ items)
    (hkind : ∀ w ∈ items, ValueKind.of w = ValueKind.of v)
    (hreading : Filter.readingFor? (ValueKind.of v) = some reading)
    (hseen : ∀ w ∈ items, w.IsSeen) :
    Find [⟨p, .oneOf, .arr items⟩, ⟨p, .noneOf, .arr items⟩] properties (d.held path) := by
  have hreadings (w : Json) (hw : w ∈ items) : Filter.readingFor? (ValueKind.of w) = some reading :=
    hkind w hw ▸ hreading
  have hhanded : Json.handOver items = .ok () :=
    Json.handOver_eq_ok_iff.2 fun w hw => (hseen w hw).bindFault? (hreadings w hw)
  have horder (w : Json) (hw : w ∈ items) :
      order? reading d path w = none ↔ d.scalarAt path = .null :=
    order?_eq_none_iff (hseen w hw) (hreadings w hw)
  have hone {found : Bool} (h : decide (∃ w ∈ items, order? reading d path w = some .eq) = found) :
      Finds ⟨p, .oneOf, .arr items⟩ properties found :=
    (finds_oneOf_iff hpath hdocument hreading hmem hkind hhanded).2 h
  have hnone {found : Bool}
      (h : decide (∀ w ∈ items, (order? reading d path w).any (· ≠ .eq) = true) = found) :
      Finds ⟨p, .noneOf, .arr items⟩ properties found :=
    (finds_noneOf_iff hpath hdocument hreading hmem hkind hhanded).2 h
  rw [Json.Document.held]
  by_cases hnull : d.scalarAt path = .null
  · rw [if_pos hnull]
    refine ⟨[false, false], .cons (hone (decide_eq_false ?_)) (.cons (hnone
      (decide_eq_false ?_)) .nil), rfl⟩
    · rintro ⟨w, hw, heq⟩
      rw [(horder w hw).2 hnull] at heq
      cases heq
    · intro hall
      have hv := hall v hmem
      rw [(horder v hmem).2 hnull] at hv
      cases hv
  · rw [if_neg hnull]
    by_cases hequal : ∃ w ∈ items, order? reading d path w = some .eq
    · refine ⟨[true, false], .cons (hone (decide_eq_true hequal)) (.cons (hnone
        (decide_eq_false fun hall => ?_)) .nil), rfl⟩
      obtain ⟨w, hw, heq⟩ := hequal
      have hw' := hall w hw
      rw [heq] at hw'
      cases hw'
    · refine ⟨[false, true], .cons (hone (decide_eq_false hequal)) (.cons (hnone
        (decide_eq_true fun w hw => ?_)) .nil), rfl⟩
      obtain ⟨o, ho⟩ := Option.ne_none_iff_exists'.1 ((horder w hw).not.2 hnull)
      have hne : o ≠ .eq := by
        rintro rfl
        exact hequal ⟨w, hw, ho⟩
      rw [ho]
      exact decide_eq_true hne

theorem finds_isNull_iff {op : Filter.Operator} {negated : Bool}
    (hpath : Path.ofJson p = .ok path) (hdocument : queryDocument? properties = some d)
    (htest : Filter.test op v = .ok (.isNull negated)) :
    Finds ⟨p, op, v⟩ properties found ↔ (negated ^^ decide (d.scalarAt path = .null)) = found := by
  rw [finds_iff hpath htest rfl rfl hdocument]
  change decide (some (negated ^^ decide (d.scalarAt path = .null)) = some true) = found ↔ _
  simp only [Option.some_inj, Bool.decide_eq_true]

/-- Whatever a path leads to, it is either nothing or something. -/
theorem find_isNulls {op op' : Filter.Operator} {w : Json} (hpath : Path.ofJson p = .ok path)
    (hdocument : queryDocument? properties = some d) (htest : Filter.test op v = .ok (.isNull true))
    (htest' : Filter.test op' w = .ok (.isNull false)) :
    Find [⟨p, op, v⟩, ⟨p, op', w⟩] properties 1 := by
  refine ⟨_, .cons ((finds_isNull_iff hpath hdocument htest).2 rfl)
    (.cons ((finds_isNull_iff hpath hdocument htest').2 rfl) .nil), ?_⟩
  by_cases hnull : d.scalarAt path = .null <;> simp [hnull]

end PropertyFilter

namespace Filter.Operator

variable {value : Json} {items : List Json}

theorem exists_reading_of_accepts (h : eq.Accepts value) (hne : value ≠ .null) :
    ∃ reading, readingFor? (ValueKind.of value) = some reading := by
  obtain ⟨test, htest⟩ := h
  cases value with
  | null => exact absurd rfl hne
  | arr _ | obj _ => cases htest
  | _ => exact ⟨_, rfl⟩

theorem number_of_accepts (h : gt.Accepts value) : ValueKind.of value = .number := by
  obtain ⟨test, htest⟩ := h
  by_contra hkind
  rw [Filter.test, ordering, if_neg hkind] at htest
  cases htest

/-- A list that is accepted has items of one kind that can be compared. -/
theorem exists_item_of_accepts (h : oneOf.Accepts (.arr items)) :
    ∃ v ∈ items, (∀ w ∈ items, ValueKind.of w = ValueKind.of v) ∧
      ∃ reading, readingFor? (ValueKind.of v) = some reading := by
  obtain ⟨test, htest⟩ := h
  cases items with
  | nil => cases htest
  | cons v rest =>
    rw [Filter.test, membership] at htest
    split at htest
    · cases htest
    next reading hreading =>
      split at htest
      next hall =>
        have hrest : ∀ w ∈ rest, ValueKind.of w = ValueKind.of v := by simpa using hall
        exact ⟨v, List.mem_cons_self, List.forall_mem_cons.2 ⟨rfl, hrest⟩, reading, hreading⟩
      next => cases htest

end Filter.Operator

namespace PropertyFilter

variable {p : Json} {path : Path} {properties : String} {d : Json.Document}

/-- Of opposite filters with an operand, and of those for what is less, equal and greater, one finds
something and none finds nothing; of those that ask for nothing and for something, one finds
whatever is there. -/
theorem one_of_opposites_finds (hpath : Path.ofJson p = .ok path)
    (hdocument : queryDocument? properties = some d) :
    (∀ v : Json, v ≠ .null → Filter.Operator.eq.Accepts v → v.IsSeen →
      Find [⟨p, .eq, v⟩, ⟨p, .ne, v⟩] properties (d.held path)) ∧
    (∀ items : List Json, Filter.Operator.oneOf.Accepts (.arr items) → (∀ v ∈ items, v.IsSeen) →
      Find [⟨p, .oneOf, .arr items⟩, ⟨p, .noneOf, .arr items⟩] properties (d.held path)) ∧
    (∀ x : Json, Filter.Operator.gt.Accepts x → x.IsSeen →
      Find [⟨p, .gt, x⟩, ⟨p, .lte, x⟩] properties (d.held path) ∧
      Find [⟨p, .lt, x⟩, ⟨p, .gte, x⟩] properties (d.held path) ∧
      Find [⟨p, .lt, x⟩, ⟨p, .eq, x⟩, ⟨p, .gt, x⟩] properties (d.held path)) ∧
    (∀ v w : Json, Find [⟨p, .present, v⟩, ⟨p, .absent, w⟩] properties 1) ∧
    Find [⟨p, .ne, .null⟩, ⟨p, .eq, .null⟩] properties 1 ∧
    ∀ (v : Json) (found : Bool),
      Finds ⟨p, .present, v⟩ properties found ↔ Finds ⟨p, .ne, .null⟩ properties found := by
  refine ⟨fun v hne haccepts hseen => ?_, fun items haccepts hseen => ?_,
    fun x haccepts hseen => ?_, fun v w => find_isNulls hpath hdocument rfl rfl,
    find_isNulls hpath hdocument rfl rfl, fun v found => ?_⟩
  · obtain ⟨reading, hreading⟩ := Filter.Operator.exists_reading_of_accepts haccepts hne
    obtain ⟨heq, hne⟩ := Filter.test_eq hreading
    refine find_comparisons [(.eq, .equal), (.ne, .unequal)] hpath hdocument ?_ hseen hreading ?_
    · simp [heq, hne]
    · decide
  · obtain ⟨v, hmem, hkind, reading, hreading⟩ :=
      Filter.Operator.exists_item_of_accepts haccepts
    exact find_memberships hpath hdocument hmem hkind hreading hseen
  · have hkind := Filter.Operator.number_of_accepts haccepts
    have hreading : Filter.readingFor? (ValueKind.of x) = some .real := by rw [hkind]; rfl
    have hordering (op : Filter.Operator) (comparison : Condition.Comparison) :
        Filter.ordering op comparison x = .ok (.compare .real comparison (Filter.operand x)) :=
      if_pos hkind
    have heq := (Filter.test_eq hreading).1
    have hfind (comparisons : List (Filter.Operator × Condition.Comparison)) :=
      @find_comparisons p x path properties d .real comparisons hpath hdocument
    refine ⟨?_, ?_, ?_⟩
    · refine hfind [(.gt, .greater), (.lte, .atMost)] ?_ hseen hreading (by decide)
      simp [Filter.test, hordering]
    · refine hfind [(.lt, .less), (.gte, .atLeast)] ?_ hseen hreading (by decide)
      simp [Filter.test, hordering]
    · refine hfind [(.lt, .less), (.eq, .equal), (.gt, .greater)] ?_ hseen hreading (by decide)
      exact List.forall_mem_cons.2 ⟨hordering .lt .less, List.forall_mem_cons.2 ⟨heq,
        List.forall_mem_singleton.2 (hordering .gt .greater)⟩⟩
  · rw [finds_isNull_iff hpath hdocument rfl, finds_isNull_iff hpath hdocument rfl]

/-! Opposites for a text that begins like a number, and for nothing. -/

def apples : Json :=
  .obj [("x", .str "12 apples"), ("y", .null)]

theorem queryDocument?_apples :
    queryDocument? (Json.storedText apples) = some (.ofJson apples) := by
  rw [queryDocument?_storedText, if_pos (by decide +kernel)]

theorem opposites_of_apples :
    Find [⟨.str "x", .gt, .int 12⟩, ⟨.str "x", .lte, .int 12⟩] (Json.storedText apples) 1 ∧
      Find [⟨.str "x", .eq, .bool true⟩, ⟨.str "x", .ne, .bool true⟩] (Json.storedText apples) 1 ∧
      Find [⟨.str "x", .oneOf, .arr [.str "a", .str "b"]⟩,
        ⟨.str "x", .noneOf, .arr [.str "a", .str "b"]⟩] (Json.storedText apples) 1 ∧
      Find [⟨.str "y", .lt, .int 0⟩, ⟨.str "y", .eq, .int 0⟩, ⟨.str "y", .gt, .int 0⟩]
        (Json.storedText apples) 0 := by
  have hheld : (Json.Document.ofJson apples).held [.property "x"] = 1 := by decide +kernel
  have hmissing : (Json.Document.ofJson apples).held [.property "y"] = 0 := by decide +kernel
  have hx := @one_of_opposites_finds (.str "x") [.property "x"] _ _ rfl queryDocument?_apples
  have hy := @one_of_opposites_finds (.str "y") [.property "y"] _ _ rfl queryDocument?_apples
  rw [hheld] at hx
  rw [hmissing] at hy
  obtain ⟨hequal, hmember, horder, -⟩ := hx
  exact ⟨(horder (.int 12) ⟨_, rfl⟩ rfl).1, hequal (.bool true) nofun ⟨_, rfl⟩ trivial,
    hmember _ ⟨_, rfl⟩ (by simp [Json.IsSeen]), (hy.2.2.1 (.int 0) ⟨_, rfl⟩ rfl).2.2⟩

/-- A text with half a surrogate pair is accepted, but neither equal nor unequal to anything. -/
theorem half_neither_equal_nor_unequal :
    Path.ofJson (.str "x") = .ok [.property "x"] ∧
      queryDocument? (Json.storedText apples) = some (.ofJson apples) ∧
      (Json.Document.ofJson apples).scalarAt [.property "x"] ≠ .null ∧
      Filter.Operator.eq.Accepts (.str ⟨[.half 0]⟩) ∧
      ¬Find [⟨.str "x", .eq, .str ⟨[.half 0]⟩⟩, ⟨.str "x", .ne, .str ⟨[.half 0]⟩⟩]
        (Json.storedText apples) 1 := by
  refine ⟨rfl, queryDocument?_apples, by decide +kernel, ⟨_, rfl⟩, ?_⟩
  rintro ⟨outcomes, hfinds, -⟩
  cases hfinds with
  | cons hequal _ => exact not_finds_of_halves (by decide) hequal

end PropertyFilter

end VersionedGraph
