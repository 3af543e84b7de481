import VersionedGraph.Filter.Compile
import VersionedGraph.Proofs.Outcome

/-!
# What the text of a filter depends on

Expressions have the same shape when they are the same tree of groups with the same operators at the
leaves, and when the values that leaves compare with are of the same kinds. Expressions of one shape
compile to one text (`FilterExpr.predicate_eq_of_sameShape`): the paths and values that are handed
in get into the bound values only, whatever characters they hold.
-/

namespace VersionedGraph

namespace Filter

/-- Whether an operator takes two values for values of the same kind. It looks at the items of lists
of choices one by one, and tests of presence look at no value at all. -/
def SameKind (op : Operator) (v w : Json) : Prop :=
  match op with
  | .present | .absent => True
  | .oneOf | .noneOf =>
    ∃ vs ws, v = .arr vs ∧ w = .arr ws ∧
      List.Forall₂ (fun a b => ValueKind.of a = ValueKind.of b) vs ws
  | _ => ValueKind.of v = ValueKind.of w

end Filter

/-- Expressions are the same but for the paths of their leaves and the values, of the same kinds,
that these compare with. -/
inductive FilterExpr.SameShape : FilterExpr → FilterExpr → Prop
  | leaf {f g : PropertyFilter} (op : f.op = g.op) (kind : Filter.SameKind f.op f.value g.value) :
    SameShape (.leaf f) (.leaf g)
  | all {ts us : List FilterExpr} (children : List.Forall₂ SameShape ts us) :
    SameShape (.all ts) (.all us)
  | any {ts us : List FilterExpr} (children : List.Forall₂ SameShape ts us) :
    SameShape (.any ts) (.any us)

namespace Filter

variable {op : Operator} {v w : Json} {test test' : Condition.Test} {rowName : String}

theorem predicate_equality {comparison : Condition.Comparison}
    (hkind : ValueKind.of v = ValueKind.of w) (hv : equality op comparison v = .ok test)
    (hw : equality op comparison w = .ok test') :
    test.predicate rowName = test'.predicate rowName := by
  unfold equality at hv hw
  rw [← hkind] at hw
  cases hreading : readingFor? (ValueKind.of v) with
  | none =>
    rw [hreading] at hv
    cases hv
  | some reading =>
    rw [hreading] at hv hw
    cases hv
    cases hw
    rfl

theorem predicate_ordering {comparison : Condition.Comparison}
    (hv : ordering op comparison v = .ok test) (hw : ordering op comparison w = .ok test') :
    test.predicate rowName = test'.predicate rowName := by
  unfold ordering at hv hw
  split at hv <;> cases hv
  split at hw <;> cases hw
  rfl

theorem predicate_pattern {folding : Condition.Folding} {wrap : LooseText → LooseText}
    (hv : pattern op folding wrap v = .ok test) (hw : pattern op folding wrap w = .ok test') :
    test.predicate rowName = test'.predicate rowName := by
  unfold pattern at hv hw
  split at hv <;> cases hv
  split at hw <;> cases hw
  cases folding <;> rfl

/-- A list of choices shows in the text by the kind of its first item and by its length. -/
theorem predicate_membership {negated : Bool} {vs ws : List Json}
    (hkinds : List.Forall₂ (fun a b => ValueKind.of a = ValueKind.of b) vs ws)
    (hv : membership op negated (.arr vs) = .ok test)
    (hw : membership op negated (.arr ws) = .ok test') :
    test.predicate rowName = test'.predicate rowName := by
  cases hkinds with
  | nil => cases hv
  | @cons a b rest rest' hkind hrest =>
    simp only [membership] at hv hw
    rw [← hkind] at hw
    cases hreading : readingFor? (ValueKind.of a) with
    | none =>
      rw [hreading] at hv
      cases hv
    | some reading =>
      rw [hreading] at hv hw
      dsimp only at hv hw
      split at hv <;> cases hv
      split at hw <;> cases hw
      have hmarks : ((a :: rest).map operand).map (fun _ => "?") =
          ((b :: rest').map operand).map (fun _ => "?") := by
        rw [List.map_const', List.map_const', List.length_map, List.length_map, List.length_cons,
          List.length_cons, hrest.length_eq]
      simp only [Condition.Test.predicate, hmarks]

theorem of_eq_null_iff : ValueKind.of v = .null ↔ v = .null := by
  cases v <;> simp [ValueKind.of]

/-- A comparison with a value, null or not. -/
theorem predicate_comparison (op : Operator) (comparison : Condition.Comparison) {negated : Bool}
    {compile : Json → Except FilterFault Condition.Test}
    (hnull : compile .null = .ok (.isNull negated))
    (hvalue : ∀ v, v ≠ .null → compile v = equality op comparison v)
    (hkind : ValueKind.of v = ValueKind.of w) (hv : compile v = .ok test)
    (hw : compile w = .ok test') : test.predicate rowName = test'.predicate rowName := by
  by_cases h : v = .null
  · have hw' : w = .null := of_eq_null_iff.1 (hkind ▸ of_eq_null_iff.2 h)
    rw [h, hnull] at hv
    rw [hw', hnull] at hw
    cases hv
    cases hw
    rfl
  · have hw' : w ≠ .null := fun hw' => h (of_eq_null_iff.1 (hkind.trans (of_eq_null_iff.2 hw')))
    rw [hvalue v h] at hv
    rw [hvalue w hw'] at hw
    exact predicate_equality hkind hv hw

/-- The text of a test depends on its operator and on the kind of its value. -/
theorem predicate_eq_of_sameKind (hkind : SameKind op v w) (hv : Filter.test op v = .ok test)
    (hw : Filter.test op w = .ok test') : test.predicate rowName = test'.predicate rowName := by
  cases op with
  | eq =>
    refine predicate_comparison .eq .equal rfl (fun v hne => ?_) hkind hv hw
    cases v with
    | null => exact absurd rfl hne
    | _ => rfl
  | ne =>
    refine predicate_comparison .ne .unequal rfl (fun v hne => ?_) hkind hv hw
    cases v with
    | null => exact absurd rfl hne
    | _ => rfl
  | gt | lt | gte | lte => exact predicate_ordering hv hw
  | like | ilike | startsWith | endsWith | contains => exact predicate_pattern hv hw
  | oneOf | noneOf =>
    obtain ⟨vs, ws, rfl, rfl, hkinds⟩ := hkind
    exact predicate_membership hkinds hv hw
  | present | absent =>
    cases hv
    cases hw
    rfl

end Filter

namespace FilterExpr

/-- The text of a group, from the texts of what is left of its children. -/
def groupText (connective : String) : List String → Option String
  | [] => none
  | [s] => some s
  | texts => some (Condition.joinClauses connective texts)

variable {rowName depth depth' : Json} {text : String} {t u : FilterExpr}

/-- What joins conditions joins their texts by a connective. -/
def JoinsTexts (text connective : String) (join : List Condition → Condition) : Prop :=
  ∀ cs, (join cs).predicate text =
    Condition.joinClauses connective (cs.map (Condition.predicate text))

theorem joinsTexts_all (text : String) : JoinsTexts text " AND " .all := fun cs => by
  rw [Condition.predicate, Condition.predicates_eq_map]

theorem joinsTexts_any (text : String) : JoinsTexts text " OR " .any := fun cs => by
  rw [Condition.predicate, Condition.predicates_eq_map]

theorem map_predicate_group {join : List Condition → Condition} {connective : String}
    (hjoin : JoinsTexts text connective join) (cs : List Condition) :
    (Filter.group join cs).map (Condition.predicate text) =
      groupText connective (cs.map (Condition.predicate text)) := by
  rcases cs with _ | ⟨c, _ | ⟨d, cs⟩⟩
  · rfl
  · rfl
  · exact congrArg some (hjoin (c :: d :: cs))

theorem predicate_eq_of_leaf {f g : PropertyFilter} {c d : Condition} (hop : f.op = g.op)
    (hkind : Filter.SameKind f.op f.value g.value) (hf : Filter.leaf rowName f = .ok c)
    (hg : Filter.leaf rowName g = .ok d) : c.predicate text = d.predicate text := by
  simp only [Filter.leaf, bind_eq_ok_iff, pure_eq_ok_iff] at hf hg
  obtain ⟨_, _, _, _, test, htest, rfl⟩ := hf
  obtain ⟨_, _, _, _, test', htest', rfl⟩ := hg
  rw [← hop] at htest'
  exact Filter.predicate_eq_of_sameKind hkind htest htest'

/-- Groups of children that are alike pair by pair have the same text. -/
theorem predicate_eq_of_group {join : List Condition → Condition} {connective : String}
    (hjoin : JoinsTexts text connective join) {levels levels' : Nat} {ts us : List FilterExpr}
    (hchildren : List.Forall₂ SameShape ts us) {c? d? : Option Condition}
    (ht : (ts.mapM (Filter.compileLevels rowName levels) >>= fun cs =>
      pure (Filter.group join (cs.filterMap id))) = .ok c?)
    (hu : (us.mapM (Filter.compileLevels rowName levels') >>= fun ds =>
      pure (Filter.group join (ds.filterMap id))) = .ok d?)
    (hstep : ∀ t u c? d?, SameShape t u → Filter.compileLevels rowName levels t = .ok c? →
      Filter.compileLevels rowName levels' u = .ok d? →
      c?.map (Condition.predicate text) = d?.map (Condition.predicate text)) :
    c?.map (Condition.predicate text) = d?.map (Condition.predicate text) := by
  simp only [bind_eq_ok_iff, pure_eq_ok_iff] at ht hu
  obtain ⟨cs, hcs, rfl⟩ := ht
  obtain ⟨ds, hds, rfl⟩ := hu
  have hviews := map_eq_map_of_mapM hchildren hcs hds hstep
  have hkept (cs : List (Option Condition)) : (cs.filterMap id).map (Condition.predicate text) =
      (cs.map (Option.map (Condition.predicate text))).filterMap id := by
    rw [List.map_filterMap, List.filterMap_map]
    rfl
  rw [map_predicate_group hjoin, map_predicate_group hjoin, hkept, hkept, hviews]

theorem predicate_eq_of_compileLevels {levels levels' : Nat} {c? d? : Option Condition}
    (hshape : SameShape t u) (ht : Filter.compileLevels rowName levels t = .ok c?)
    (hu : Filter.compileLevels rowName levels' u = .ok d?) :
    c?.map (Condition.predicate text) = d?.map (Condition.predicate text) := by
  -- The levels that are left need not be the same; what counts is that both suffice.
  induction levels generalizing levels' t u c? d? with
  | zero => cases ht
  | succ levels ih =>
    cases levels' with
    | zero => cases hu
    | succ levels' =>
      cases hshape with
      | leaf hop hkind =>
        simp only [Filter.compileLevels, bind_eq_ok_iff, pure_eq_ok_iff] at ht hu
        obtain ⟨c, hc, rfl⟩ := ht
        obtain ⟨d, hd, rfl⟩ := hu
        exact congrArg some (predicate_eq_of_leaf hop hkind hc hd)
      | all hchildren =>
        rw [Filter.compileLevels] at ht hu
        split at ht
        · cases ht
        · split at hu
          · cases hu
          · exact predicate_eq_of_group (joinsTexts_all text) hchildren ht hu fun _ _ _ _ => ih
      | any hchildren =>
        rw [Filter.compileLevels] at ht hu
        split at ht
        · cases ht
        · split at hu
          · cases hu
          · exact predicate_eq_of_group (joinsTexts_any text) hchildren ht hu fun _ _ _ _ => ih

/-- Expressions of the same shape compile to the same text, whatever characters their paths and
values hold: these get into nothing but the bound values. -/
theorem predicate_eq_of_sameShape {c d : CompiledFilter} (hshape : SameShape t u)
    (ht : t.compile rowName depth = .ok c) (hu : u.compile rowName depth' = .ok d) :
    c.predicate = d.predicate ∧ c.isEmpty = d.isEmpty := by
  simp only [compile, bind_eq_ok_iff, pure_eq_ok_iff] at ht hu
  obtain ⟨_, _, c?, hc, rfl⟩ := ht
  obtain ⟨_, _, d?, hd, rfl⟩ := hu
  have htext (text : String) :
      c?.map (Condition.predicate text) = d?.map (Condition.predicate text) :=
    predicate_eq_of_compileLevels hshape hc hd
  constructor
  · exact congrArg (Option.getD · "") (htext _)
  · have hnone := congrArg Option.isNone (htext "")
    rw [Option.isNone_map, Option.isNone_map] at hnone
    exact hnone

/-- What looks like a part of a query in a path or a value stays out of the text. -/
theorem predicate_of_hostile_value :
    let t : FilterExpr := .all [.leaf ⟨.str "status", .eq, .str "active"⟩,
      .any [.all [], .leaf ⟨.str "tags[0]", .oneOf, .arr [.int 1, .int 2]⟩,
        .leaf ⟨.str "vip", .present, .null⟩]]
    let u : FilterExpr := .all [.leaf ⟨.str "$.a.b", .eq, .str "x' OR 1=1; DROP TABLE links; --"⟩,
      .any [.all [], .leaf ⟨.str "c.7", .oneOf, .arr [.int (-3), .float Binary64.nan]⟩,
        .leaf ⟨.str "_", .present, .str ") OR (?"⟩]]
    ∃ c d, t.SameShape u ∧ t.compile = .ok c ∧ u.compile = .ok d ∧ c.predicate = d.predicate := by
  intro t u
  have hlist : Filter.SameKind .oneOf (.arr [.int 1, .int 2])
      (.arr [.int (-3), .float Binary64.nan]) :=
    ⟨_, _, rfl, rfl, .cons rfl (.cons rfl .nil)⟩
  have hchoice : List.Forall₂ SameShape
      [.all [], .leaf ⟨.str "tags[0]", .oneOf, .arr [.int 1, .int 2]⟩,
        .leaf ⟨.str "vip", .present, .null⟩]
      [.all [], .leaf ⟨.str "c.7", .oneOf, .arr [.int (-3), .float Binary64.nan]⟩,
        .leaf ⟨.str "_", .present, .str ") OR (?"⟩] :=
    .cons (.all .nil) (.cons (.leaf rfl hlist) (.cons (.leaf rfl trivial) .nil))
  have hshape : t.SameShape u := .all (.cons (.leaf rfl rfl) (.cons (.any hchoice) .nil))
  obtain ⟨c, hc⟩ : ∃ c, t.compile = .ok c := ⟨_, rfl⟩
  obtain ⟨d, hd⟩ : ∃ d, u.compile = .ok d := ⟨_, rfl⟩
  exact ⟨c, d, hshape, hc, hd, (predicate_eq_of_sameShape hshape hc hd).1⟩

end FilterExpr

end VersionedGraph
