import VersionedGraph.Filter.Compile
import VersionedGraph.Proofs.Outcome

/-!
# Which expressions compile

The root of an expression stands on level zero, and the children of a group stand one level below
it. An expression compiles just when none of its nodes stands too deep, none has too many children,
none is anything but a filter or a group, and every filter compiles by itself
(`FilterExpr.compiles_iff_nodes_fit`). Else it fails for what is wrong with one of its nodes. Groups
without children, or with a single one, are nodes like all others.
-/

namespace VersionedGraph

namespace Filter

variable {rowName : Json} {levels : Nat} {join : List Condition → Condition}
  {children : List FilterExpr} {c? : Option Condition} {fault : FilterFault}

/-- What a group is compiled to, with a count of levels left for its children. -/
def compileGroup (rowName : Json) (levels : Nat) (join : List Condition → Condition)
    (children : List FilterExpr) : Except FilterFault (Option Condition) :=
  if FilterExpr.maxChildren < children.length then .error .tooManyChildren
  else do return group join ((← children.mapM (compileLevels rowName levels)).filterMap id)

theorem compileLevels_leaf_eq_ok_iff {f : PropertyFilter} :
    compileLevels rowName (levels + 1) (.leaf f) = .ok c? ↔
      ∃ c, leaf rowName f = .ok c ∧ some c = c? := by
  simp only [compileLevels, bind_eq_ok_iff, pure_eq_ok_iff]

theorem compileLevels_leaf_eq_error_iff {f : PropertyFilter} :
    compileLevels rowName (levels + 1) (.leaf f) = .error fault ↔
      leaf rowName f = .error fault := by
  rw [compileLevels, bind_eq_error_iff]
  exact or_iff_left fun ⟨_, _, h⟩ => nomatch h

theorem compileLevels_all (children : List FilterExpr) :
    compileLevels rowName (levels + 1) (.all children) =
      compileGroup rowName levels .all children := rfl

theorem compileLevels_any (children : List FilterExpr) :
    compileLevels rowName (levels + 1) (.any children) =
      compileGroup rowName levels .any children := rfl

theorem compileGroup_eq_ok_iff :
    compileGroup rowName levels join children = .ok c? ↔
      children.length ≤ FilterExpr.maxChildren ∧ ∃ compiled,
        children.mapM (compileLevels rowName levels) = .ok compiled ∧
          group join (compiled.filterMap id) = c? := by
  unfold compileGroup
  by_cases hcount : FilterExpr.maxChildren < children.length
  · rw [if_pos hcount]
    exact ⟨nofun, fun h => absurd h.1 (Nat.not_le_of_lt hcount)⟩
  · rw [if_neg hcount]
    simp only [bind_eq_ok_iff, pure_eq_ok_iff, Nat.le_of_not_lt hcount, true_and]

/-- A group of filters that is not too large is compiled filter by filter. -/
theorem compileGroup_leaves {fs : List PropertyFilter} (h : fs.length ≤ FilterExpr.maxChildren) :
    compileGroup rowName (levels + 1) join (fs.map .leaf) =
      fs.mapM (leaf rowName) >>= fun cs => pure (group join cs) := by
  have hleaves : (fs.map .leaf).mapM (compileLevels rowName (levels + 1)) =
      fs.mapM (leaf rowName) >>= fun cs => pure (cs.map some) := by
    rw [List.mapM_map]
    exact mapM_bind_pure fs
  rw [compileGroup, if_neg (by rw [List.length_map]; omega), hleaves, bind_assoc]
  simp [List.filterMap_map]

theorem exists_compileGroup_eq_ok_iff :
    (∃ c?, compileGroup rowName levels join children = .ok c?) ↔
      children.length ≤ FilterExpr.maxChildren ∧
        ∀ u ∈ children, ∃ c?, compileLevels rowName levels u = .ok c? := by
  constructor
  · rintro ⟨c?, h⟩
    obtain ⟨hcount, compiled, hcompiled, _⟩ := compileGroup_eq_ok_iff.1 h
    refine ⟨hcount, fun u hu => ?_⟩
    obtain ⟨d?, _, hd⟩ := exists_of_mem_of_mapM_eq_ok hcompiled hu
    exact ⟨d?, hd⟩
  · rintro ⟨hcount, hchildren⟩
    obtain ⟨compiled, hcompiled⟩ := exists_mapM_eq_ok hchildren
    exact ⟨_, compileGroup_eq_ok_iff.2 ⟨hcount, compiled, hcompiled, rfl⟩⟩

theorem cases_of_compileGroup_eq_error
    (h : compileGroup rowName levels join children = .error fault) :
    FilterExpr.maxChildren < children.length ∧ fault = .tooManyChildren ∨
      ∃ u ∈ children, compileLevels rowName levels u = .error fault := by
  unfold compileGroup at h
  split at h
  · next hcount =>
    cases h
    exact .inl ⟨hcount, rfl⟩
  · rcases bind_eq_error_iff.1 h with h | ⟨_, _, h⟩
    · exact .inr (exists_mem_of_mapM_eq_error h)
    · cases h

end Filter

namespace PropertyFilter

variable {rowName : Json} {f : PropertyFilter} {fault : FilterFault}

theorem exists_compile_eq_ok_iff :
    (∃ c, f.compile rowName = .ok c) ↔ ∃ c, Filter.leaf rowName f = .ok c := by
  simp only [compile, bind_eq_ok_iff, pure_eq_ok_iff]
  constructor
  · rintro ⟨_, c, hc, _⟩
    exact ⟨c, hc⟩
  · rintro ⟨c, hc⟩
    exact ⟨_, c, hc, rfl⟩

theorem compile_eq_error_iff :
    f.compile rowName = .error fault ↔ Filter.leaf rowName f = .error fault := by
  rw [compile, bind_eq_error_iff]
  exact or_iff_left fun ⟨_, _, h⟩ => nomatch h

end PropertyFilter

namespace FilterExpr

def children : FilterExpr → List FilterExpr
  | leaf _ => []
  | all children => children
  | any children => children
  | stray => []

/-- The nodes of an expression, each with the number of groups that it stands in. -/
inductive HasNode : FilterExpr → Nat → FilterExpr → Prop
  | root {t : FilterExpr} : HasNode t 0 t
  | child {t u v : FilterExpr} {n : Nat} (hchild : u ∈ t.children) (h : HasNode u n v) :
    HasNode t (n + 1) v

variable {rowName : Json} {levels : Nat} {t : FilterExpr} {fault : FilterFault}

theorem forall_hasNode_iff {P : Nat → FilterExpr → Prop} :
    (∀ n u, t.HasNode n u → P n u) ↔
      P 0 t ∧ ∀ u ∈ t.children, ∀ n v, u.HasNode n v → P (n + 1) v := by
  constructor
  · exact fun h => ⟨h 0 t .root, fun u hu n v hv => h (n + 1) v (.child hu hv)⟩
  · rintro ⟨hroot, hbelow⟩ n u hu
    cases hu with
    | root => exact hroot
    | child hchild hv => exact hbelow _ hchild _ _ hv

/-- A node that compiles where there are levels left for it and its children compile. -/
def Fits (rowName : Json) : FilterExpr → Prop
  | leaf f => ∃ c, f.compile rowName = .ok c
  | all children => children.length ≤ maxChildren
  | any children => children.length ≤ maxChildren
  | stray => False

theorem fits_iff : t.Fits rowName ↔ t.children.length ≤ maxChildren ∧ t ≠ .stray ∧
    ∀ f, t = .leaf f → ∃ c, f.compile rowName = .ok c := by
  cases t <;> simp [Fits, children]

/-- What is wrong with a node that stands on a level. -/
inductive Offends (rowName : Json) (levels : Nat) : Nat → FilterExpr → FilterFault → Prop
  | deep {n : Nat} {u : FilterExpr} (h : levels ≤ n) : Offends rowName levels n u .tooDeep
  | crowded {n : Nat} {u : FilterExpr} (h : maxChildren < u.children.length) :
    Offends rowName levels n u .tooManyChildren
  | stray {n : Nat} : Offends rowName levels n .stray .notAFilter
  | leaf {n : Nat} {f : PropertyFilter} {fault : FilterFault}
      (h : f.compile rowName = .error fault) : Offends rowName levels n (.leaf f) fault

theorem Offends.succ {n : Nat} {u : FilterExpr} (h : Offends rowName levels n u fault) :
    Offends rowName (levels + 1) (n + 1) u fault := by
  cases h with
  | deep h => exact .deep (Nat.succ_le_succ h)
  | crowded h => exact .crowded h
  | stray => exact .stray
  | leaf h => exact .leaf h

theorem exists_compileLevels_eq_ok_iff :
    (∃ c?, Filter.compileLevels rowName levels t = .ok c?) ↔
      ∀ n u, t.HasNode n u → n < levels ∧ u.Fits rowName := by
  -- Below the root there is one level less for every node.
  induction levels generalizing t with
  | zero => exact ⟨nofun, fun h => absurd (h 0 t .root).1 (Nat.lt_irrefl 0)⟩
  | succ levels ih =>
    rw [forall_hasNode_iff]
    simp only [Nat.succ_pos, Nat.succ_lt_succ_iff, true_and, ← ih]
    cases t with
    | leaf f =>
      simp only [Filter.compileLevels_leaf_eq_ok_iff, Fits, children,
        PropertyFilter.exists_compile_eq_ok_iff, List.not_mem_nil, false_imp_iff, implies_true,
        and_true]
      constructor
      · rintro ⟨_, c, hc, _⟩
        exact ⟨c, hc⟩
      · rintro ⟨c, hc⟩
        exact ⟨some c, c, hc, rfl⟩
    | all children =>
      simp only [Filter.compileLevels_all]
      exact Filter.exists_compileGroup_eq_ok_iff
    | any children =>
      simp only [Filter.compileLevels_any]
      exact Filter.exists_compileGroup_eq_ok_iff
    | stray => exact ⟨nofun, fun h => h.1.elim⟩

theorem exists_offends_of_compileLevels_eq_error
    (h : Filter.compileLevels rowName levels t = .error fault) :
    ∃ n u, t.HasNode n u ∧ u.Offends rowName levels n fault := by
  induction levels generalizing t with
  | zero =>
    cases h
    exact ⟨0, t, .root, .deep (Nat.le_refl 0)⟩
  | succ levels ih =>
    have hgroup (join : List Condition → Condition)
        (h : Filter.compileGroup rowName levels join t.children = .error fault) :
        ∃ n u, t.HasNode n u ∧ u.Offends rowName (levels + 1) n fault := by
      rcases Filter.cases_of_compileGroup_eq_error h with ⟨hcount, rfl⟩ | ⟨u, hu, hfails⟩
      · exact ⟨0, t, .root, .crowded hcount⟩
      · obtain ⟨n, v, hv, hoffends⟩ := ih hfails
        exact ⟨n + 1, v, .child hu hv, hoffends.succ⟩
    cases t with
    | leaf f =>
      have hfails := Filter.compileLevels_leaf_eq_error_iff.1 h
      exact ⟨0, .leaf f, .root, .leaf (PropertyFilter.compile_eq_error_iff.2 hfails)⟩
    | all children =>
      rw [Filter.compileLevels_all] at h
      exact hgroup .all h
    | any children =>
      rw [Filter.compileLevels_any] at h
      exact hgroup .any h
    | stray =>
      cases h
      exact ⟨0, .stray, .root, .stray⟩

section

variable {depth : Json}

theorem compile_of_levels (hlevels : levelsFrom depth = .ok levels) :
    t.compile rowName depth = Filter.compileLevels rowName levels t >>= fun c? =>
      pure (.ofJson rowName c?) := by
  rw [compile, hlevels]
  rfl

theorem exists_compile_eq_ok_iff (hlevels : levelsFrom depth = .ok levels) :
    (∃ c, t.compile rowName depth = .ok c) ↔
      ∀ n u, t.HasNode n u → n < levels ∧ u.Fits rowName := by
  rw [← exists_compileLevels_eq_ok_iff]
  simp only [compile_of_levels hlevels, bind_eq_ok_iff, pure_eq_ok_iff]
  constructor
  · rintro ⟨_, c?, hc, _⟩
    exact ⟨c?, hc⟩
  · rintro ⟨c?, hc⟩
    exact ⟨_, c?, hc, rfl⟩

theorem exists_offends_of_compile_eq_error (hlevels : levelsFrom depth = .ok levels)
    (h : t.compile rowName depth = .error fault) :
    ∃ n u, t.HasNode n u ∧ u.Offends rowName levels n fault := by
  rw [compile_of_levels hlevels, bind_eq_error_iff] at h
  exact exists_offends_of_compileLevels_eq_error (h.resolve_right fun ⟨_, _, h⟩ => nomatch h)

end

/-- An expression compiles just when no node stands deeper than on level five, none has more than
fifty children, each is a filter or a group, and all filters compile by themselves; groups that are
empty or have one child count like all others. Else it fails with what is wrong with one of its
nodes. -/
theorem compiles_iff_nodes_fit (rowName : Json) (t : FilterExpr) :
    ((∃ c, t.compile rowName = .ok c) ↔ ∀ n u, t.HasNode n u →
      n ≤ 5 ∧ u.children.length ≤ 50 ∧ u ≠ .stray ∧
        ∀ f, u = .leaf f → ∃ c, f.compile rowName = .ok c) ∧
    ∀ fault, t.compile rowName = .error fault → ∃ n u, t.HasNode n u ∧
      (5 < n ∧ fault = .tooDeep ∨ 50 < u.children.length ∧ fault = .tooManyChildren ∨
        u = .stray ∧ fault = .notAFilter ∨
          ∃ f, u = .leaf f ∧ f.compile rowName = .error fault) := by
  have hlevels : levelsFrom (.int 0) = .ok 6 := rfl
  constructor
  · rw [exists_compile_eq_ok_iff hlevels]
    simp only [fits_iff, Nat.lt_succ_iff]
    exact Iff.rfl
  · intro fault h
    obtain ⟨n, u, hu, hoffends⟩ := exists_offends_of_compile_eq_error hlevels h
    refine ⟨n, u, hu, ?_⟩
    cases hoffends with
    | deep hdeep => exact .inl ⟨hdeep, rfl⟩
    | crowded hcrowded => exact .inr (.inl ⟨hcrowded, rfl⟩)
    | stray => exact .inr (.inr (.inl ⟨rfl, rfl⟩))
    | leaf hleaf => exact .inr (.inr (.inr ⟨_, rfl, hleaf⟩))

/-- An empty group constrains nothing, but it stands on a level all the same. -/
example : (all [any [all [any [all [any []]]]]]).compile = .ok ⟨"e", none⟩ ∧
    (all [any [all [any [all [any [all []]]]]]]).compile = .error .tooDeep :=
  ⟨rfl, rfl⟩

end FilterExpr

end VersionedGraph
