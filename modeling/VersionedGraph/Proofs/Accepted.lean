import VersionedGraph.Proofs.Demands
import VersionedGraph.Proofs.Marks

/-!
# What was read compiles

Reading and compiling both count levels and children, and count them alike: what was read stands
within the limits of the compiler, down to the last node. So it compiles unless one of its filters
does not, for its path or its value. As no group that was read is empty, there is a filter, and what
is compiled constrains something (`FilterExpr.read_compiles_unless_leaf_fails`).
-/

namespace VersionedGraph

namespace Filter

variable {op : Operator} {value : Json} {fault : FilterFault}

theorem checkRowName_of_isRowName {rowName : String} (h : isRowName rowName = true) :
    checkRowName (.str rowName) = .ok () := by
  simp [checkRowName, h]

theorem field_of_equality {comparison : Condition.Comparison}
    (h : equality op comparison value = .error fault) : fault.field? = some "value" := by
  unfold equality at h
  split at h <;> cases h
  rfl

theorem field_of_ordering {comparison : Condition.Comparison}
    (h : ordering op comparison value = .error fault) : fault.field? = some "value" := by
  unfold ordering at h
  split at h <;> cases h
  rfl

theorem field_of_pattern {folding : Condition.Folding} {wrap : LooseText → LooseText}
    (h : pattern op folding wrap value = .error fault) : fault.field? = some "value" := by
  unfold pattern at h
  split at h <;> cases h
  rfl

theorem field_of_membership {negated : Bool}
    (h : membership op negated value = .error fault) : fault.field? = some "value" := by
  unfold membership at h
  split at h
  · dsimp only at h
    split at h
    · cases h
      rfl
    · split at h <;> cases h
      rfl
  · cases h
    rfl

/-- An operator that does not take a value blames the value. -/
theorem field_of_test (h : test op value = .error fault) : fault.field? = some "value" := by
  cases op with
  | eq | ne =>
    cases value with
    | null => cases h
    | _ =>
      simp only [test] at h
      exact field_of_equality h
  | gt | lt | gte | lte => exact field_of_ordering h
  | like | ilike | startsWith | endsWith | contains => exact field_of_pattern h
  | oneOf | noneOf => exact field_of_membership h
  | present | absent => cases h

end Filter

namespace PropertyFilter

/-- What is wrong with a filter by itself: its path, or a value that its operator does not take. -/
inductive Fails (f : PropertyFilter) : FilterFault → Prop
  | path {fault : PathFault} (h : Path.ofJson f.path = .error fault) : Fails f (.badPath fault)
  | value {fault : FilterFault} (h : Filter.test f.op f.value = .error fault)
      (hfield : fault.field? = some "value") : Fails f fault

theorem fails_of_compile_eq_error {f : PropertyFilter} {rowName : String} {fault : FilterFault}
    (hname : Filter.isRowName rowName = true) (h : f.compile (.str rowName) = .error fault) :
    f.Fails fault := by
  rw [compile_eq_error_iff, Filter.leaf, Filter.checkRowName_of_isRowName hname, ok_bind] at h
  rcases bind_eq_error_iff.1 h with hpath | ⟨path, _, h⟩
  · cases hfault : Path.ofJson f.path with
    | ok path =>
      rw [Filter.path, hfault] at hpath
      cases hpath
    | error pathFault =>
      rw [Filter.path, hfault] at hpath
      cases hpath
      exact .path hfault
  · rcases bind_eq_error_iff.1 h with htest | ⟨_, _, h⟩
    · exact .value htest (Filter.field_of_test htest)
    · cases h

end PropertyFilter

namespace FilterExpr

variable {levels n : Nat} {data depth : Json} {t u : FilterExpr} {f : PropertyFilter}

/-- A node as it can be read: a filter with a path, whose operator is one that there is by its type,
or a group with neither too few children nor too many. -/
def Readable : FilterExpr → Prop
  | leaf f => ∃ path : LooseText, f.path = .str path ∧ path.isEmpty = false
  | all children => 1 ≤ children.length ∧ children.length ≤ maxChildren
  | any children => 1 ≤ children.length ∧ children.length ≤ maxChildren
  | stray => False

theorem ReadsBy.readable {child : FilterExpr → Json → Prop} (h : t.ReadsBy child data) :
    t.Readable := by
  cases h with
  | all _ hsome hcount hts =>
    rw [hts.length_eq] at hsome hcount
    exact ⟨hsome, hcount⟩
  | any _ hsome hcount hts =>
    rw [hts.length_eq] at hsome hcount
    exact ⟨hsome, hcount⟩
  | leaf _ hpath => exact ⟨_, rfl, hpath⟩

theorem ReadsBy.exists_of_mem_children {child : FilterExpr → Json → Prop}
    (h : t.ReadsBy child data) (hu : u ∈ t.children) : ∃ d, child u d := by
  cases h with
  | all _ _ _ hts =>
    obtain ⟨d, _, hd⟩ := exists_mem_of_forall₂ hts.flip hu
    exact ⟨d, hd⟩
  | any _ _ _ hts =>
    obtain ⟨d, _, hd⟩ := exists_mem_of_forall₂ hts.flip hu
    exact ⟨d, hd⟩
  | leaf => cases hu

/-- What was read stands within limits. -/
theorem readable_of_ofLevels (h : ofLevels levels data = .ok t) :
    ∀ n u, t.HasNode n u → n < levels ∧ u.Readable := by
  induction levels generalizing data t with
  | zero => cases h
  | succ levels ih =>
    have hreads := readsBy_of_ofLevels h
    rw [forall_hasNode_iff]
    refine ⟨⟨Nat.succ_pos levels, hreads.readable⟩, fun u hu n v hv => ?_⟩
    obtain ⟨d, hd⟩ := hreads.exists_of_mem_children hu
    obtain ⟨hn, hv⟩ := ih hd n v hv
    exact ⟨Nat.succ_lt_succ hn, hv⟩

theorem mem_childLeaves_iff {ts : List FilterExpr} :
    f ∈ childLeaves ts ↔ ∃ t ∈ ts, f ∈ t.leaves := by
  induction ts with
  | nil => simp [childLeaves]
  | cons t ts ih => simp [childLeaves, ih]

theorem mem_leaves_of_mem_children (hu : u ∈ t.children) (hf : f ∈ u.leaves) : f ∈ t.leaves := by
  cases t with
  | all => exact mem_childLeaves_iff.2 ⟨u, hu, hf⟩
  | any => exact mem_childLeaves_iff.2 ⟨u, hu, hf⟩
  | leaf => cases hu
  | stray => cases hu

theorem HasNode.mem_leaves (h : t.HasNode n (.leaf f)) : f ∈ t.leaves := by
  generalize hv : leaf f = v at h
  induction h with
  | root =>
    subst hv
    exact List.mem_cons_self
  | child hchild _ ih => exact mem_leaves_of_mem_children hchild (ih hv)

theorem Readable.cases_children (h : t.Readable) : (∃ f, t = .leaf f) ∨ ∃ u, u ∈ t.children := by
  cases t with
  | leaf f => exact .inl ⟨f, rfl⟩
  | all children => exact .inr (List.exists_mem_of_length_pos h.1)
  | any children => exact .inr (List.exists_mem_of_length_pos h.1)
  | stray => exact h.elim

/-- Groups are not empty, and levels run out. -/
theorem leaves_ne_nil_of_ofLevels (h : ofLevels levels data = .ok t) : t.leaves ≠ [] := by
  induction levels generalizing data t with
  | zero => cases h
  | succ levels ih =>
    have hreads := readsBy_of_ofLevels h
    rcases hreads.readable.cases_children with ⟨f, rfl⟩ | ⟨u, hu⟩
    · exact List.cons_ne_nil f []
    · obtain ⟨d, hd⟩ := hreads.exists_of_mem_children hu
      obtain ⟨f, hf⟩ := List.exists_mem_of_ne_nil _ (ih hd)
      exact List.ne_nil_of_mem (mem_leaves_of_mem_children hu hf)

theorem Readable.children_length_le (h : t.Readable) : t.children.length ≤ maxChildren := by
  cases t with
  | all => exact h.2
  | any => exact h.2
  | leaf | stray => exact Nat.zero_le _

/-- The limits of the reader are those of the compiler. -/
theorem exists_leaf_of_compile_eq_error {rowName : Json} {fault : FilterFault}
    (hread : ofJson data depth = .ok t) (h : t.compile rowName depth = .error fault) :
    ∃ f ∈ t.leaves, f.compile rowName = .error fault := by
  obtain ⟨levels, hlevels, hread⟩ := bind_eq_ok_iff.1 hread
  obtain ⟨n, u, hu, hoffends⟩ := exists_offends_of_compile_eq_error hlevels h
  obtain ⟨hn, hreadable⟩ := readable_of_ofLevels hread n u hu
  cases hoffends with
  | deep hdeep => exact absurd hn (Nat.not_lt_of_le hdeep)
  | crowded hcrowded => exact absurd hreadable.children_length_le (Nat.not_le_of_lt hcrowded)
  | stray => exact hreadable.elim
  | leaf hleaf => exact ⟨_, hu.mem_leaves, hleaf⟩

/-- What was read has within it filters with a path and groups of one to fifty children only. It
compiles for a table that is named as it should be unless one of its filters does not, and then it
fails as such a filter does, for its path or its value and for nothing else. What it compiles to is
not without a text. -/
theorem read_compiles_unless_leaf_fails {rowName : String} (h : ofJson data depth = .ok t)
    (hname : Filter.isRowName rowName = true) :
    (∀ n u, t.HasNode n u → u.Readable) ∧
    ((∃ fault, t.compile (.str rowName) depth = .error fault) ↔
      ∃ f ∈ t.leaves, ∃ fault, f.compile (.str rowName) = .error fault) ∧
    (∀ fault, t.compile (.str rowName) depth = .error fault →
      ∃ f ∈ t.leaves, f.compile (.str rowName) = .error fault ∧ f.Fails fault) ∧
    ∀ c, t.compile (.str rowName) depth = .ok c → c.predicate ≠ "" ∧ c.isEmpty = false := by
  obtain ⟨levels, _, hread⟩ := bind_eq_ok_iff.1 h
  refine ⟨fun n u hu => (readable_of_ofLevels hread n u hu).2, ⟨?_, ?_⟩, ?_, ?_⟩
  · rintro ⟨fault, hfails⟩
    obtain ⟨f, hf, hfails⟩ := exists_leaf_of_compile_eq_error h hfails
    exact ⟨f, hf, fault, hfails⟩
  · rintro ⟨f, hf, fault, hfails⟩
    cases hcompile : t.compile (.str rowName) depth with
    | error fault => exact ⟨fault, rfl⟩
    | ok c =>
      obtain ⟨c?, hkeeps, rfl⟩ := keepsLeaves_of_compile hcompile
      obtain ⟨ds, hds, _⟩ := exists_compiled_leaves hkeeps
      obtain ⟨d, _, hd, _⟩ := exists_mem_of_forall₂ hds hf
      cases hfails.symm.trans hd
  · intro fault hfails
    obtain ⟨f, hf, hfails⟩ := exists_leaf_of_compile_eq_error h hfails
    exact ⟨f, hf, hfails, PropertyFilter.fails_of_compile_eq_error hname hfails⟩
  · intro c hc
    obtain ⟨c?, hkeeps, rfl⟩ := keepsLeaves_of_compile hc
    have hleaves := leaves_ne_nil_of_ofLevels hread
    have hsome := hkeeps.isNone
    rw [List.isEmpty_eq_false_iff.2 hleaves] at hsome
    exact ⟨fun hempty => parameters_ne_nil hkeeps hleaves
      (parameters_eq_nil_of_predicate hkeeps hempty), hsome⟩

/-- A filter on the last level, below lists and groups of either kind, compiles if it does by
itself. -/
theorem read_compiles_on_last_level :
    let nested (value : Json) : Json := .arr [.obj [("or", .arr [.arr [.arr [.obj [("and", .arr
      [.obj [("path", .str "a[0]"), ("operator", .str "gt"), ("value", value)]])]]]])]]
    (∃ t, ofJson (nested (.int 1)) = .ok t ∧ ∃ c, t.compile (.str "l") = .ok c ∧
      c.predicate ≠ "") ∧
    ∃ t, ofJson (nested (.str "x")) = .ok t ∧ ∃ fault, t.compile (.str "l") = .error fault ∧
      ∃ f ∈ t.leaves, f.Fails fault := by
  intro nested
  have hname : Filter.isRowName "l" = true := by decide
  obtain ⟨t, ht⟩ : ∃ t, ofJson (nested (.int 1)) = .ok t := ⟨_, rfl⟩
  obtain ⟨t', ht'⟩ : ∃ t, ofJson (nested (.str "x")) = .ok t := ⟨_, rfl⟩
  obtain ⟨_, _, _, hcompiled⟩ := read_compiles_unless_leaf_fails ht hname
  obtain ⟨_, _, hfails, _⟩ := read_compiles_unless_leaf_fails ht' hname
  obtain ⟨c, hc⟩ : ∃ c, t.compile (.str "l") = .ok c := by
    cases ht
    exact ⟨_, rfl⟩
  obtain ⟨fault, hfault⟩ : ∃ fault, t'.compile (.str "l") = .error fault := by
    cases ht'
    exact ⟨_, rfl⟩
  obtain ⟨f, hf, _, hfault'⟩ := hfails fault hfault
  exact ⟨⟨t, ht, c, hc, (hcompiled c hc).1⟩, t', ht', fault, hfault, f, hf, hfault'⟩

end FilterExpr

end VersionedGraph
