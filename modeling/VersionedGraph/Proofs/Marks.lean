import VersionedGraph.Proofs.Limits
import VersionedGraph.Proofs.Meaning

/-!
# Which values the question marks take

A query takes its values by position alone. The text that an expression compiles to holds the texts
of its filters one after another, in the order in which they stand in the expression, and no
question mark stands outside of them (`MarksLieIn`). Its parameters are those of the filters in the
same order: for each its path and the values that it compares with, just as many as its text has
question marks (`FilterExpr.marks_take_parameters`).
-/

namespace VersionedGraph

/-- The question marks of a text are those of some pieces that stand in it one after another. -/
inductive MarksLieIn : List (List Char) → List Char → Prop
  | plain {text : List Char} (h : '?' ∉ text) : MarksLieIn [] text
  | piece {before piece rest : List Char} {pieces : List (List Char)} (hbefore : '?' ∉ before)
    (h : MarksLieIn pieces rest) : MarksLieIn (piece :: pieces) (before ++ (piece ++ rest))

namespace MarksLieIn

variable {pieces pieces' : List (List Char)} {text text' : List Char}

theorem single (text : List Char) : MarksLieIn [text] text := by
  have h : MarksLieIn [text] ([] ++ (text ++ [])) := .piece nofun (.plain nofun)
  rwa [List.nil_append, List.append_nil] at h

theorem plain_append (hbefore : '?' ∉ text) (h : MarksLieIn pieces text') :
    MarksLieIn pieces (text ++ text') := by
  cases h with
  | plain hplain => exact .plain (by simp [hbefore, hplain])
  | @piece before piece rest _ hpiece hrest =>
    rw [← List.append_assoc]
    exact .piece (by simp [hbefore, hpiece]) hrest

theorem append (h : MarksLieIn pieces text) (h' : MarksLieIn pieces' text') :
    MarksLieIn (pieces ++ pieces') (text ++ text') := by
  induction h with
  | plain hplain => exact h'.plain_append hplain
  | piece hbefore _ ih =>
    rw [List.append_assoc, List.append_assoc]
    exact .piece hbefore ih

theorem count_eq (h : MarksLieIn pieces text) : text.count '?' = pieces.flatten.count '?' := by
  induction h with
  | plain hplain => exact List.count_eq_zero.2 hplain
  | piece hbefore _ ih =>
    rw [List.count_append, List.count_append, List.count_eq_zero.2 hbefore, ih, Nat.zero_add,
      List.flatten_cons, List.count_append]

variable {α : Type} {items : List α} {parts : α → List (List Char)} {texts : α → String}

/-- What continues a group has question marks in its parts only. -/
theorem continuation (w : Clause.Keyword)
    (h : ∀ a ∈ items, MarksLieIn (parts a) (texts a).toList) :
    MarksLieIn (items.flatMap parts) (Clause.continuation w (items.map texts)) := by
  induction items with
  | nil => exact .plain nofun
  | cons a items ih =>
    have hword : '?' ∉ ' ' :: (w.text.toList ++ [' ', '(']) := by
      cases w <;> decide
    have hrest := ih fun b hb => h b (List.mem_cons_of_mem a hb)
    have htext := Clause.continuation_cons w (texts a) (items.map texts) []
    rw [List.append_nil, List.append_nil] at htext
    rw [List.flatMap_cons, List.map_cons, htext]
    have hclosing : '?' ∉ [')'] := by decide
    have hpart := (h a List.mem_cons_self).append (hrest.plain_append hclosing)
    simpa using hpart.plain_append hword

theorem joinClauses {w : Clause.Keyword} {connective : String}
    (hconnective : connective.toList = ' ' :: (w.text.toList ++ [' ']))
    (h : ∀ a ∈ items, MarksLieIn (parts a) (texts a).toList) :
    MarksLieIn (items.flatMap parts)
      (Condition.joinClauses connective (items.map texts)).toList := by
  cases items with
  | nil => exact .plain nofun
  | cons a items =>
    have hrest := continuation w fun b hb => h b (List.mem_cons_of_mem a hb)
    rw [List.flatMap_cons, List.map_cons, Clause.toList_joinClauses hconnective]
    have hopening : '?' ∉ ['('] := by decide
    have hclosing : '?' ∉ [')'] := by decide
    have hpart := (h a List.mem_cons_self).append (hrest.plain_append hclosing)
    exact hpart.plain_append hopening

end MarksLieIn

namespace Condition

variable {rowName : String}

mutual

/-- The tests in a condition, each as a condition of its own. -/
def leaves : Condition → List Condition
  | leaf path test => [leaf path test]
  | all children => childLeaves children
  | any children => childLeaves children

def childLeaves : List Condition → List Condition
  | [] => []
  | c :: rest => leaves c ++ childLeaves rest

end

theorem childLeaves_eq_flatMap (cs : List Condition) : childLeaves cs = cs.flatMap leaves := by
  induction cs with
  | nil => rfl
  | cons c cs ih => rw [childLeaves, ih, List.flatMap_cons]

mutual

theorem parameters_eq_flatMap_leaves :
    (c : Condition) → c.parameters = c.leaves.flatMap parameters
  | leaf path test => by rw [leaves, List.flatMap_singleton]
  | all children => childParameters_eq_flatMap_childLeaves children
  | any children => childParameters_eq_flatMap_childLeaves children

theorem childParameters_eq_flatMap_childLeaves :
    (cs : List Condition) → childParameters cs = (childLeaves cs).flatMap parameters
  | [] => rfl
  | c :: cs => by
    rw [childParameters, childLeaves, List.flatMap_append, parameters_eq_flatMap_leaves c,
      childParameters_eq_flatMap_childLeaves cs]

end

mutual

theorem marksLieIn_leaves (rowName : String) : (c : Condition) →
    MarksLieIn (c.leaves.map fun d => (d.predicate rowName).toList) (c.predicate rowName).toList
  | leaf path test => .single _
  | all children => by
    rw [leaves, predicate, predicates_eq_map, childLeaves_eq_flatMap, List.map_flatMap]
    exact .joinClauses Clause.connective_and (marksLieIn_childLeaves rowName children)
  | any children => by
    rw [leaves, predicate, predicates_eq_map, childLeaves_eq_flatMap, List.map_flatMap]
    exact .joinClauses Clause.connective_or (marksLieIn_childLeaves rowName children)

theorem marksLieIn_childLeaves (rowName : String) : (cs : List Condition) → ∀ c ∈ cs,
    MarksLieIn (c.leaves.map fun d => (d.predicate rowName).toList) (c.predicate rowName).toList
  | [] => nofun
  | c :: cs =>
    List.forall_mem_cons.2 ⟨marksLieIn_leaves rowName c, marksLieIn_childLeaves rowName cs⟩

end

theorem count_marks (operands : List Scalar) :
    (Clause.marks operands).count '?' = operands.length := by
  induction operands with
  | nil => rfl
  | cons v operands ih =>
    cases operands with
    | nil =>
      have hmark : Clause.marks [v] = ['?'] := by simp [Clause.marks]
      rw [hmark]
      rfl
    | cons w operands =>
      rw [Clause.marks_cons_cons, List.count_cons_self, List.count_cons_of_ne (by decide),
        List.count_cons_of_ne (by decide), ih]
      rfl

theorem Reading.count_predicate (hname : '?' ∉ rowName.toList) (reading : Reading) :
    (reading.predicate rowName).toList.count '?' = 1 := by
  have hplain : rowName.toList.count '?' = 0 := List.count_eq_zero.2 hname
  cases reading with
  | asIs =>
    change ("json_extract(" ++ rowName ++ ".properties, ?)").toList.count '?' = 1
    simp [hplain]
  | integer =>
    change ("CAST(json_extract(" ++ rowName ++ ".properties, ?) AS INTEGER)").toList.count '?' = 1
    simp [hplain]
  | real =>
    change ("CAST(json_extract(" ++ rowName ++ ".properties, ?) AS REAL)").toList.count '?' = 1
    simp [hplain]

/-- The text of a test has a question mark for its path and one for each of its operands. -/
theorem Test.count_predicate (hname : '?' ∉ rowName.toList) (test : Test) :
    (test.predicate rowName).toList.count '?' = test.operands.length + 1 := by
  have hreading (reading : Reading) : (reading.predicate rowName).toList.count '?' = 1 :=
    reading.count_predicate hname
  cases test with
  | compare reading comparison operand =>
    have hsign : comparison.sign.toList.count '?' = 0 := by cases comparison <;> rfl
    change (reading.predicate rowName ++ " " ++ comparison.sign ++ " ?").toList.count '?' = 2
    simp [hreading, hsign]
  | like folding pattern =>
    cases folding with
    | unchanged =>
      change (Reading.asIs.predicate rowName ++ " LIKE ?").toList.count '?' = 2
      simp [hreading]
    | lower =>
      change ("LOWER(" ++ Reading.asIs.predicate rowName ++ ") LIKE LOWER(?)").toList.count '?' = 2
      simp [hreading]
    | upper =>
      change ("UPPER(" ++ Reading.asIs.predicate rowName ++ ") LIKE UPPER(?)").toList.count '?' = 2
      simp [hreading]
  | member reading negated operands =>
    have hkeyword : (if negated then "NOT IN" else "IN").toList.count '?' = 0 := by
      cases negated <;> rfl
    have htext : ((Test.member reading negated operands).predicate rowName).toList =
        (reading.predicate rowName).toList ++ (' ' :: (if negated then "NOT IN" else "IN").toList ++
          (' ' :: '(' :: Clause.marks operands ++ [')'])) := by
      change (reading.predicate rowName ++ " " ++ (if negated then "NOT IN" else "IN") ++ " (" ++
        String.intercalate ", " (operands.map fun _ => "?") ++ ")").toList = _
      simp [Clause.marks]
    rw [htext]
    simp [hreading, hkeyword, count_marks, Test.operands, Nat.add_comm]
  | isNull negated =>
    have hkeyword : (if negated then "IS NOT NULL" else "IS NULL").toList.count '?' = 0 := by
      cases negated <;> rfl
    change (Reading.asIs.predicate rowName ++ " " ++
      (if negated then "IS NOT NULL" else "IS NULL")).toList.count '?' = 1
    simp [hreading, hkeyword]

theorem leaves_group {join : List Condition → Condition} (hjoin : ∀ cs, (join cs).leaves =
    cs.flatMap leaves) (cs : List Condition) :
    (Filter.group join cs).elim [] leaves = cs.flatMap leaves := by
  rcases cs with _ | ⟨c, _ | ⟨d, cs⟩⟩
  · rfl
  · exact (List.flatMap_singleton _ _).symm
  · exact hjoin (c :: d :: cs)

theorem isNone_group (join : List Condition → Condition) (cs : List Condition) :
    (Filter.group join cs).isNone = cs.isEmpty := by
  rcases cs with _ | ⟨c, _ | ⟨d, cs⟩⟩ <;> rfl

end Condition

namespace Filter

/-- What may stand for a table is a text without question marks. -/
theorem exists_text_of_checkRowName {rowName : Json} (h : checkRowName rowName = .ok ()) :
    ∃ name : String, rowName = .str name ∧ '?' ∉ name.toList := by
  cases rowName with
  | str s =>
    rw [checkRowName] at h
    split at h
    · next hname =>
      obtain ⟨name, htext, hname⟩ := (Option.any_eq_true _ _).1 hname
      refine ⟨name, congrArg Json.str (LooseText.eq_ofString_of_toString? htext), fun hmark => ?_⟩
      have hword := Path.isWordChar_of_isName hname '?' hmark
      revert hword
      decide
    · cases h
  | _ => cases h

end Filter

namespace PropertyFilter

/-- The values that a filter compares with, as they are bound: those of a list one by one, none
where it only asks whether there is a value. -/
def boundValues (f : PropertyFilter) : List Scalar :=
  match f.op, f.value with
  | .present, _ | .absent, _ => []
  | .eq, .null | .ne, .null => []
  | .startsWith, .str s => [.text (s ++ "%")]
  | .endsWith, .str s => [.text ("%" ++ s)]
  | .contains, .str s => [.text ("%" ++ s ++ "%")]
  | .oneOf, .arr items | .noneOf, .arr items => items.map Filter.operand
  | _, value => [Filter.operand value]

/-- What a filter by itself compiles to: its path and the values that it compares with are bound,
and for each of them there is a question mark. -/
structure Binds (f : PropertyFilter) (d : CompiledFilter) : Prop where
  parameters : ∃ path, Path.ofJson f.path = .ok path ∧
    d.parameters = .text path.canonical :: f.boundValues
  marks : d.predicate.toList.count '?' = d.parameters.length

section

variable {op : Filter.Operator} {value : Json} {test : Condition.Test}

theorem operands_of_equality {comparison : Condition.Comparison}
    (h : Filter.equality op comparison value = .ok test) :
    test.operands = [Filter.operand value] := by
  unfold Filter.equality at h
  split at h <;> cases h
  rfl

theorem operands_of_ordering {comparison : Condition.Comparison}
    (h : Filter.ordering op comparison value = .ok test) :
    test.operands = [Filter.operand value] := by
  unfold Filter.ordering at h
  split at h <;> cases h
  rfl

theorem operands_of_pattern {folding : Condition.Folding} {wrap : LooseText → LooseText}
    (h : Filter.pattern op folding wrap value = .ok test) :
    ∃ s, value = .str s ∧ test.operands = [.text (wrap s)] := by
  unfold Filter.pattern at h
  split at h <;> cases h
  exact ⟨_, rfl, rfl⟩

theorem operands_of_membership {negated : Bool}
    (h : Filter.membership op negated value = .ok test) :
    ∃ items, value = .arr items ∧ test.operands = items.map Filter.operand := by
  unfold Filter.membership at h
  split at h
  · dsimp only at h
    split at h
    · cases h
    · split at h <;> cases h
      exact ⟨_, rfl, rfl⟩
  · cases h

end

theorem operands_of_test {f : PropertyFilter} {test : Condition.Test}
    (h : Filter.test f.op f.value = .ok test) : test.operands = f.boundValues := by
  obtain ⟨path, op, value⟩ := f
  cases op with
  | eq =>
    cases value with
    | null =>
      cases h
      rfl
    | _ =>
      simp only [Filter.test] at h
      exact operands_of_equality h
  | ne =>
    cases value with
    | null =>
      cases h
      rfl
    | _ =>
      simp only [Filter.test] at h
      exact operands_of_equality h
  | gt | lt | gte | lte => exact operands_of_ordering h
  | like | ilike | startsWith | endsWith | contains =>
    obtain ⟨s, rfl, hoperands⟩ := operands_of_pattern h
    exact hoperands
  | oneOf | noneOf =>
    obtain ⟨items, rfl, hoperands⟩ := operands_of_membership h
    exact hoperands
  | present | absent =>
    cases h
    rfl

theorem binds_of_leaf {rowName : Json} {f : PropertyFilter} {c : Condition}
    (h : Filter.leaf rowName f = .ok c) :
    f.compile rowName = .ok (.ofJson rowName (some c)) ∧ f.Binds (.ofJson rowName (some c)) ∧
      c.leaves = [c] := by
  have hcompile : f.compile rowName = .ok (.ofJson rowName (some c)) := by
    rw [compile, h]
    rfl
  simp only [Filter.leaf, bind_eq_ok_iff, pure_eq_ok_iff] at h
  obtain ⟨_, hname, path, hpath, test, htest, rfl⟩ := h
  obtain ⟨name, rfl, hplain⟩ := Filter.exists_text_of_checkRowName hname
  rw [Filter.path, mapError_eq_ok_iff] at hpath
  refine ⟨hcompile, ⟨⟨path, hpath, ?_⟩, ?_⟩, rfl⟩
  · rw [CompiledFilter.ofJson_str]
    exact congrArg _ (operands_of_test htest)
  · rw [CompiledFilter.ofJson_str]
    exact test.count_predicate hplain

end PropertyFilter

namespace FilterExpr

variable {rowName : Json} {levels : Nat} {t : FilterExpr} {ts : List FilterExpr}
  {c? : Option Condition} {compiled : List (Option Condition)}

/-- What is compiled from an expression holds what is compiled from its filters, in their order. -/
structure KeepsLeaves (rowName : Json) (t : FilterExpr) (c? : Option Condition) : Prop where
  leaves : List.Forall₂ (fun f c => Filter.leaf rowName f = .ok c) t.leaves
    (c?.elim [] Condition.leaves)
  isNone : c?.isNone = t.leaves.isEmpty

theorem keepsLeaves_children (h : List.Forall₂ (KeepsLeaves rowName) ts compiled) :
    List.Forall₂ (fun f c => Filter.leaf rowName f = .ok c) (childLeaves ts)
        ((compiled.filterMap id).flatMap Condition.leaves) ∧
      (compiled.filterMap id).isEmpty = (childLeaves ts).isEmpty := by
  induction h with
  | nil => exact ⟨.nil, rfl⟩
  | @cons t c? ts compiled ht _ ih =>
    have hnone := ht.isNone
    have hleaves := ht.leaves
    cases c? with
    | none =>
      rw [childLeaves, List.isEmpty_iff.1 hnone.symm, List.filterMap_cons_none rfl]
      exact ih
    | some c =>
      have hkept : (some c :: compiled).filterMap id = c :: compiled.filterMap id := rfl
      rw [hkept, childLeaves, List.flatMap_cons]
      refine ⟨List.rel_append hleaves ih.1, ?_⟩
      cases hchild : t.leaves with
      | nil =>
        rw [hchild] at hnone
        cases hnone
      | cons f fs => rfl

theorem keepsLeaves_group {join : List Condition → Condition}
    (hjoin : ∀ cs, (join cs).leaves = cs.flatMap Condition.leaves)
    (hleaves : t.leaves = childLeaves ts)
    (h : List.Forall₂ (KeepsLeaves rowName) ts compiled) :
    KeepsLeaves rowName t (Filter.group join (compiled.filterMap id)) := by
  obtain ⟨hkept, hempty⟩ := keepsLeaves_children h
  constructor
  · rw [Condition.leaves_group hjoin, hleaves]
    exact hkept
  · rw [Condition.isNone_group, hempty, hleaves]

theorem keepsLeaves_of_compileLevels (h : Filter.compileLevels rowName levels t = .ok c?) :
    KeepsLeaves rowName t c? := by
  induction levels generalizing t c? with
  | zero => cases h
  | succ levels ih =>
    have hgroup (join : List Condition → Condition) {children : List FilterExpr}
        (hjoin : ∀ cs, (join cs).leaves = cs.flatMap Condition.leaves)
        (hleaves : t.leaves = childLeaves children)
        (h : Filter.compileGroup rowName levels join children = .ok c?) :
        KeepsLeaves rowName t c? := by
      obtain ⟨_, compiled, hcompiled, rfl⟩ := Filter.compileGroup_eq_ok_iff.1 h
      exact keepsLeaves_group hjoin hleaves ((mapM_eq_ok_iff.1 hcompiled).imp fun _ _ => ih)
    cases t with
    | leaf f =>
      obtain ⟨c, hc, rfl⟩ := Filter.compileLevels_leaf_eq_ok_iff.1 h
      obtain ⟨_, _, hleaves⟩ := PropertyFilter.binds_of_leaf hc
      refine ⟨?_, rfl⟩
      rw [Option.elim_some, hleaves]
      exact .cons hc .nil
    | all children =>
      rw [Filter.compileLevels_all] at h
      exact hgroup .all Condition.childLeaves_eq_flatMap rfl h
    | any children =>
      rw [Filter.compileLevels_any] at h
      exact hgroup .any Condition.childLeaves_eq_flatMap rfl h
    | stray => cases h

/-- What the filters of an expression compile to by themselves, in their order. -/
theorem exists_compiled_leaves (h : KeepsLeaves rowName t c?) : ∃ ds : List CompiledFilter,
    List.Forall₂ (fun f d => f.compile rowName = .ok d ∧ f.Binds d) t.leaves ds ∧
      (CompiledFilter.ofJson rowName c?).parameters = ds.flatMap (·.parameters) ∧
        MarksLieIn (ds.map (·.predicate.toList))
          (CompiledFilter.ofJson rowName c?).predicate.toList := by
  refine ⟨(c?.elim [] Condition.leaves).map fun d => .ofJson rowName (some d), ?_, ?_, ?_⟩
  · rw [List.forall₂_map_right_iff]
    refine h.leaves.imp fun f d hd => ?_
    obtain ⟨hcompile, hbinds, _⟩ := PropertyFilter.binds_of_leaf hd
    exact ⟨hcompile, hbinds⟩
  · cases c? with
    | none => rfl
    | some c =>
      rw [List.flatMap_map]
      exact c.parameters_eq_flatMap_leaves
  · cases c? with
    | none => exact .plain nofun
    | some c =>
      rw [List.map_map]
      exact c.marksLieIn_leaves _

theorem count_marks_of_binds {fs : List PropertyFilter} {ds : List CompiledFilter}
    (h : List.Forall₂ (fun f d => f.compile rowName = .ok d ∧ f.Binds d) fs ds) :
    (ds.map (·.predicate.toList)).flatten.count '?' = (ds.flatMap (·.parameters)).length := by
  induction h with
  | nil => rfl
  | cons hd _ ih =>
    rw [List.map_cons, List.flatten_cons, List.count_append, List.flatMap_cons,
      List.length_append, ih, hd.2.marks]

theorem count_marks_eq_length (h : KeepsLeaves rowName t c?) :
    (CompiledFilter.ofJson rowName c?).predicate.toList.count '?' =
      (CompiledFilter.ofJson rowName c?).parameters.length := by
  obtain ⟨ds, hds, hparameters, hmarks⟩ := exists_compiled_leaves h
  rw [hmarks.count_eq, hparameters, count_marks_of_binds hds]

theorem parameters_eq_nil_of_predicate (h : KeepsLeaves rowName t c?)
    (hempty : (CompiledFilter.ofJson rowName c?).predicate = "") :
    (CompiledFilter.ofJson rowName c?).parameters = [] := by
  have hcount := count_marks_eq_length h
  rw [hempty] at hcount
  exact List.eq_nil_of_length_eq_zero hcount.symm

/-- Every filter binds its path. -/
theorem parameters_ne_nil (h : KeepsLeaves rowName t c?) (hleaves : t.leaves ≠ []) :
    (CompiledFilter.ofJson rowName c?).parameters ≠ [] := by
  obtain ⟨ds, hds, hparameters, _⟩ := exists_compiled_leaves h
  obtain ⟨f, fs, hfs⟩ := List.exists_cons_of_ne_nil hleaves
  rw [hfs, List.forall₂_cons_left_iff] at hds
  obtain ⟨d, ds, ⟨_, hbinds⟩, _, rfl⟩ := hds
  obtain ⟨path, _, hfirst⟩ := hbinds.parameters
  rw [hparameters, List.flatMap_cons, hfirst]
  exact nofun

theorem keepsLeaves_of_compile {depth : Json} {c : CompiledFilter}
    (h : t.compile rowName depth = .ok c) :
    ∃ c?, KeepsLeaves rowName t c? ∧ .ofJson rowName c? = c := by
  simp only [compile, bind_eq_ok_iff, pure_eq_ok_iff] at h
  obtain ⟨levels, _, c?, hc, rfl⟩ := h
  exact ⟨c?, keepsLeaves_of_compileLevels hc, rfl⟩

/-- The parameters are those of the filters from left to right, and so are the question marks of the
text, which has none outside of the texts of the filters. There are no parameters just when there is
no text. -/
theorem marks_take_parameters {depth : Json} {c : CompiledFilter}
    (h : t.compile rowName depth = .ok c) :
    c.predicate.toList.count '?' = c.parameters.length ∧ (c.parameters = [] ↔ c.predicate = "") ∧
      ∃ ds, List.Forall₂ (fun f d => f.compile rowName = .ok d ∧ f.Binds d) t.leaves ds ∧
        c.parameters = ds.flatMap (·.parameters) ∧
        MarksLieIn (ds.map (·.predicate.toList)) c.predicate.toList := by
  obtain ⟨c?, hkeeps, rfl⟩ := keepsLeaves_of_compile h
  refine ⟨count_marks_eq_length hkeeps, ⟨fun hnone => ?_, parameters_eq_nil_of_predicate hkeeps⟩,
    exists_compiled_leaves hkeeps⟩
  have hleaves : t.leaves = [] := of_not_not fun hne => parameters_ne_nil hkeeps hne hnone
  have hvoid := hkeeps.isNone
  rw [hleaves] at hvoid
  rw [Option.isNone_iff_eq_none.1 hvoid]
  rfl

/-- A list of choices has a mark for each of them, a test of presence only that of its path, and a
group that is empty has none. -/
theorem marks_of_nested_groups :
    let t : FilterExpr := .all [.leaf ⟨.str "a", .startsWith, .str "A"⟩, .any [],
      .any [.leaf ⟨.str "b.0", .oneOf, .arr [.int 1, .int 2]⟩,
        .all [.leaf ⟨.str "x", .absent, .int 3⟩]]]
    ∃ c, t.compile = .ok c ∧ c.predicate = "(json_extract(e.properties, ?) LIKE ?) AND " ++
        "((CAST(json_extract(e.properties, ?) AS REAL) IN (?, ?)) OR " ++
          "(json_extract(e.properties, ?) IS NULL))" ∧
      c.parameters = [.text "$.a", .text "A%", .text "$.b[0]", .integer 1, .integer 2,
        .text "$.x"] ∧ c.predicate.toList.count '?' = 6 := by
  intro t
  obtain ⟨c, hc⟩ : ∃ c, t.compile = .ok c := ⟨_, rfl⟩
  have hparameters : c.parameters = [.text "$.a", .text "A%", .text "$.b[0]", .integer 1,
      .integer 2, .text "$.x"] := by
    cases hc
    rfl
  have hmarks := (marks_take_parameters hc).1
  rw [hparameters] at hmarks
  refine ⟨c, hc, ?_, hparameters, hmarks⟩
  cases hc
  decide +kernel

end FilterExpr

end VersionedGraph
