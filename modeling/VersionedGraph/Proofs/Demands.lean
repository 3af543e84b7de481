import VersionedGraph.Fault
import VersionedGraph.Proofs.Limits

/-!
# What an expression keeps of the value that it is read from

A JSON value that stands for an expression makes demands: a list, or an object with an `and` list,
that all items hold; an object with an `or` list, that any of them does; an object with a path and
an operator, that the value there passes a test. The items stand for expressions in their turn.

An object may make several of these demands at once. It is not refused, but is read for the first of
them alone, in the order just given, and the others are dropped without a word. An expression that
was read keeps every demand of its value just when no object in it makes two
(`FilterExpr.reading_keeps_iff_plain`).
-/

namespace VersionedGraph

/-- What a JSON value demands where it stands for an expression. -/
inductive Demand where
  | all (items : List Json)
  | any (items : List Json)
  | test (path op value : Json)

/-- The values that stand for expressions in a demand. -/
def Demand.items : Demand → List Json
  | all items => items
  | any items => items
  | test _ _ _ => []

namespace Json

/-- The demands of a value. -/
inductive Makes : Json → Demand → Prop
  | list {items : List Json} : Makes (.arr items) (.all items)
  | all {d : Json} {items : List Json} (h : d.field? "and" = some (.arr items)) :
    Makes d (.all items)
  | any {d : Json} {items : List Json} (h : d.field? "or" = some (.arr items)) :
    Makes d (.any items)
  | test {d path op : Json} (hpath : d.field? "path" = some path)
    (hop : d.field? "operator" = some op) : Makes d (.test path op (d.fieldOrNull "value"))

/-- The demand that a value is read for, whatever others it makes. -/
inductive MakesFirst : Json → Demand → Prop
  | list {items : List Json} : MakesFirst (.arr items) (.all items)
  | all {d : Json} {items : List Json} (h : d.field? "and" = some (.arr items)) :
    MakesFirst d (.all items)
  | any {d : Json} {items : List Json} (hand : d.field? "and" = none)
    (h : d.field? "or" = some (.arr items)) : MakesFirst d (.any items)
  | test {d path op : Json} (hand : d.field? "and" = none) (hor : d.field? "or" = none)
    (hpath : d.field? "path" = some path) (hop : d.field? "operator" = some op) :
    MakesFirst d (.test path op (d.fieldOrNull "value"))

theorem MakesFirst.makes {d : Json} {k : Demand} (h : d.MakesFirst k) : d.Makes k := by
  cases h with
  | list => exact .list
  | all h => exact .all h
  | any _ h => exact .any h
  | test _ _ hpath hop => exact .test hpath hop

/-- A value is read for one demand at most. -/
theorem MakesFirst.unique {d : Json} {k k' : Demand} (h : d.MakesFirst k) (h' : d.MakesFirst k') :
    k = k' := by
  cases h with
  | list =>
    cases h' with
    | list => rfl
    | all h' => cases h'
    | any _ h' => cases h'
    | test _ _ hpath' => cases hpath'
  | all h =>
    cases h' with
    | list => cases h
    | all h' =>
      cases h.symm.trans h'
      rfl
    | any hand' => cases h.symm.trans hand'
    | test hand' => cases h.symm.trans hand'
  | any hand h =>
    cases h' with
    | list => cases h
    | all h' => cases hand.symm.trans h'
    | any _ h' =>
      cases h.symm.trans h'
      rfl
    | test _ hor' => cases h.symm.trans hor'
  | test hand hor hpath hop =>
    cases h' with
    | list => cases hpath
    | all h' => cases hand.symm.trans h'
    | any _ h' => cases hor.symm.trans h'
    | test _ _ hpath' hop' =>
      cases hpath.symm.trans hpath'
      cases hop.symm.trans hop'
      rfl

/-- A value stands for an expression inside another one: it is one of the items of demands that are
made on the way. -/
inductive Reaches (R : Json → Demand → Prop) : Json → Json → Prop
  | root {d : Json} : Reaches R d d
  | item {d e u : Json} {k : Demand} (hk : R d k) (he : e ∈ k.items) (h : Reaches R e u) :
    Reaches R d u

/-- No value that stands for an expression makes two demands. -/
def IsPlain (data : Json) : Prop :=
  ∀ d, Reaches Makes data d → ∀ k k', d.Makes k → d.Makes k' → k = k'

theorem IsPlain.item {d e : Json} {k : Demand} (h : d.IsPlain) (hk : d.Makes k)
    (he : e ∈ k.items) : e.IsPlain :=
  fun u hu => h u (.item hk he hu)

/-- A value of one shape alone, whose items are plain, is plain. -/
theorem isPlain_of_makes_only {d : Json} {k : Demand} (honly : ∀ k', d.Makes k' → k' = k)
    (hitems : ∀ e ∈ k.items, e.IsPlain) : d.IsPlain := by
  intro u hu k₁ k₂ hk₁ hk₂
  cases hu with
  | root => rw [honly k₁ hk₁, honly k₂ hk₂]
  | item hk he hu =>
    rw [honly _ hk] at he
    exact hitems _ he u hu k₁ k₂ hk₁ hk₂

/-- A list is plain, and so is an object that is a group or a test and nothing else. -/
theorem isPlain_list {items : List Json} (h : ∀ e ∈ items, e.IsPlain) :
    (arr items).IsPlain := by
  refine isPlain_of_makes_only (k := .all items) (fun k hk => ?_) h
  cases hk with
  | list => rfl
  | all h => cases h
  | any h => cases h
  | test hpath => cases hpath

theorem isPlain_any {d : Json} {items : List Json} (hor : d.field? "or" = some (.arr items))
    (hand : d.field? "and" = none) (hpath : d.field? "path" = none)
    (h : ∀ e ∈ items, e.IsPlain) : d.IsPlain := by
  refine isPlain_of_makes_only (k := .any items) (fun k hk => ?_) h
  cases hk with
  | list => cases hor
  | all hand' => cases hand.symm.trans hand'
  | any hor' =>
    cases hor.symm.trans hor'
    rfl
  | test hpath' => cases hpath.symm.trans hpath'

theorem isPlain_test {d path op : Json} (hpath : d.field? "path" = some path)
    (hop : d.field? "operator" = some op) (hand : d.field? "and" = none)
    (hor : d.field? "or" = none) : d.IsPlain := by
  refine isPlain_of_makes_only (k := .test path op (d.fieldOrNull "value")) (fun k hk => ?_) nofun
  cases hk with
  | list => cases hpath
  | all hand' => cases hand.symm.trans hand'
  | any hor' => cases hor.symm.trans hor'
  | test hpath' hop' =>
    cases hpath.symm.trans hpath'
    cases hop.symm.trans hop'
    rfl

end Json

namespace Filter.Operator

theorem ofName?_eq_some_iff {s : String} {op : Operator} : ofName? s = some op ↔ s = op.name := by
  constructor
  · intro h
    have hname := List.find?_some h
    exact (of_decide_eq_true hname).symm
  · rintro rfl
    exact ofName?_name op

end Filter.Operator

namespace PropertyFilter

theorem bind_ofName?_eq_some_iff {v : Json} {op : Filter.Operator} :
    v.text?.bind Filter.Operator.ofName? = some op ↔ v = .str op.name := by
  rw [Option.bind_eq_some_iff]
  constructor
  · rintro ⟨name, hname, hop⟩
    rw [Filter.Operator.ofName?_eq_some_iff] at hop
    cases v with
    | str s => rw [LooseText.eq_ofString_of_toString? hname, hop]
    | _ => cases hname
  · rintro rfl
    exact ⟨op.name, LooseText.toString?_ofString _, Filter.Operator.ofName?_name op⟩

theorem make_eq_ok_iff {path v value : Json} {f : PropertyFilter} :
    make path v value = .ok f ↔
      ∃ op : Filter.Operator, v = .str op.name ∧ ⟨path, op, value⟩ = f := by
  simp only [← bind_ofName?_eq_some_iff]
  unfold make
  cases v.text?.bind Filter.Operator.ofName? with
  | some op => simp
  | none => simp

theorem ofFields_eq_ok_iff {data : Json} {f : PropertyFilter} :
    ofFields data = .ok f ↔ ∃ (path : LooseText) (op : Filter.Operator),
      data.field? "path" = some (.str path) ∧ data.field? "operator" = some (.str op.name) ∧
        path.isEmpty = false ∧ ⟨.str path, op, data.fieldOrNull "value"⟩ = f := by
  unfold ofFields
  cases data.field? "path" with
  | none => simp
  | some path =>
    cases data.field? "operator" with
    | none => cases path <;> simp
    | some op =>
      cases path with
      | str path =>
        cases hempty : path.isEmpty with
        | true => simp [hempty]
        | false => simp [hempty, make_eq_ok_iff, Json.fieldOrNull]
      | _ => simp

end PropertyFilter

namespace FilterExpr

/-- An expression represents a demand: a group of its kind does whose children represent all that
the items demand, or the filter that it describes. -/
inductive Represents : FilterExpr → Demand → Prop
  | all {ts : List FilterExpr} {items : List Json}
    (h : List.Forall₂ (fun d u => ∀ k, d.Makes k → Represents u k) items ts) :
    Represents (.all ts) (.all items)
  | any {ts : List FilterExpr} {items : List Json}
    (h : List.Forall₂ (fun d u => ∀ k, d.Makes k → Represents u k) items ts) :
    Represents (.any ts) (.any items)
  | leaf {f : PropertyFilter} : Represents (.leaf f) (.test f.path (.str f.op.name) f.value)

/-- Nothing that a value demands is dropped. -/
def Keeps (t : FilterExpr) (data : Json) : Prop :=
  ∀ k, data.Makes k → t.Represents k

/-- How an expression is read from a value, given how its children are read from items. -/
inductive ReadsBy (child : FilterExpr → Json → Prop) : FilterExpr → Json → Prop
  | all {ts : List FilterExpr} {d : Json} {items : List Json} (hd : d.MakesFirst (.all items))
    (hsome : 1 ≤ items.length) (hcount : items.length ≤ maxChildren)
    (h : List.Forall₂ (fun d u => child u d) items ts) : ReadsBy child (.all ts) d
  | any {ts : List FilterExpr} {d : Json} {items : List Json} (hd : d.MakesFirst (.any items))
    (hsome : 1 ≤ items.length) (hcount : items.length ≤ maxChildren)
    (h : List.Forall₂ (fun d u => child u d) items ts) : ReadsBy child (.any ts) d
  | leaf {d : Json} {path : LooseText} {op : Filter.Operator} {value : Json}
    (hd : d.MakesFirst (.test (.str path) (.str op.name) value)) (hpath : path.isEmpty = false) :
    ReadsBy child (.leaf ⟨.str path, op, value⟩) d

theorem groupItems_eq_ok_iff {key : String} {value : Json} {items : List Json} :
    groupItems key value = .ok items ↔
      value = .arr items ∧ 1 ≤ items.length ∧ items.length ≤ maxChildren := by
  cases value with
  | arr items' =>
    rw [groupItems]
    split
    · next hcount =>
      simp only [Bool.and_eq_true, decide_eq_true_eq] at hcount
      constructor
      · rintro ⟨⟩
        exact ⟨rfl, hcount⟩
      · rintro ⟨⟨⟩, _⟩
        rfl
    · next hcount =>
      simp only [Bool.and_eq_true, decide_eq_true_eq] at hcount
      constructor
      · exact nofun
      · rintro ⟨⟨⟩, h⟩
        exact absurd h hcount
  | _ => exact ⟨nofun, nofun⟩

variable {levels : Nat} {data : Json} {t : FilterExpr}

theorem readGroup_eq_ok_iff {key : String} {value : Json} {join : List FilterExpr → FilterExpr} :
    (do return join (← (← groupItems key value).mapM (ofLevels levels))) = .ok t ↔
      ∃ items, value = .arr items ∧ 1 ≤ items.length ∧ items.length ≤ maxChildren ∧
        ∃ ts, List.Forall₂ (fun d u => ofLevels levels d = .ok u) items ts ∧ join ts = t := by
  simp only [bind_eq_ok_iff, pure_eq_ok_iff, groupItems_eq_ok_iff, mapM_eq_ok_iff, and_assoc]

/-- What is read in one step: a value is read for its first demand. -/
theorem readsBy_of_ofLevels (h : ofLevels (levels + 1) data = .ok t) :
    t.ReadsBy (fun u d => ofLevels levels d = .ok u) data := by
  cases data with
  | arr items =>
    rw [ofLevels, readGroup_eq_ok_iff] at h
    obtain ⟨_, ⟨⟩, hsome, hcount, ts, hts, rfl⟩ := h
    exact .all .list hsome hcount hts
  | obj fields =>
    rw [ofLevels] at h
    split at h
    · next hand =>
      rw [readGroup_eq_ok_iff] at h
      obtain ⟨items, rfl, hsome, hcount, ts, hts, rfl⟩ := h
      exact .all (.all hand) hsome hcount hts
    · next hand hor =>
      rw [readGroup_eq_ok_iff] at h
      obtain ⟨items, rfl, hsome, hcount, ts, hts, rfl⟩ := h
      exact .any (.any hand hor) hsome hcount hts
    · next hand hor =>
      simp only [bind_eq_ok_iff, pure_eq_ok_iff, PropertyFilter.ofFields_eq_ok_iff] at h
      obtain ⟨_, ⟨path, op, hpath, hop, hsome, rfl⟩, rfl⟩ := h
      exact .leaf (.test hand hor hpath hop) hsome
  | _ => cases h

/-- An expression is read from a value: each value in it is read for its first demand. -/
inductive Reads : FilterExpr → Json → Prop
  | step {t : FilterExpr} {d : Json} (h : ReadsBy Reads t d) : Reads t d

theorem ReadsBy.imp {child child' : FilterExpr → Json → Prop}
    (hchild : ∀ u d, child u d → child' u d) (h : t.ReadsBy child data) :
    t.ReadsBy child' data := by
  cases h with
  | all hd hsome hcount hts => exact .all hd hsome hcount (hts.imp fun d u => hchild u d)
  | any hd hsome hcount hts => exact .any hd hsome hcount (hts.imp fun d u => hchild u d)
  | leaf hd hpath => exact .leaf hd hpath

theorem reads_of_ofLevels (h : ofLevels levels data = .ok t) : t.Reads data := by
  induction levels generalizing data t with
  | zero => cases h
  | succ levels ih => exact .step ((readsBy_of_ofLevels h).imp fun _ _ => ih)

/-- Where no value makes two demands, the first one is all that it makes. -/
theorem keeps_of_ofLevels (hplain : data.IsPlain) (h : ofLevels levels data = .ok t) :
    t.Keeps data := by
  induction levels generalizing data t with
  | zero => cases h
  | succ levels ih =>
    intro k hk
    have hitems {k : Demand} {ts : List FilterExpr} (hk : data.Makes k)
        (hts : List.Forall₂ (fun d u => ofLevels levels d = .ok u) k.items ts) :
        List.Forall₂ (fun d u => Keeps u d) k.items ts :=
      ((List.forall₂_and_left _ _).2 ⟨fun _ he => hplain.item hk he, hts⟩).imp
        fun _ _ ⟨hplain, hu⟩ => ih hplain hu
    cases readsBy_of_ofLevels h with
    | all hd _ _ hts =>
      obtain rfl := hplain data .root _ _ hk hd.makes
      exact .all (hitems hk hts)
    | any hd _ _ hts =>
      obtain rfl := hplain data .root _ _ hk hd.makes
      exact .any (hitems hk hts)
    | leaf hd =>
      obtain rfl := hplain data .root _ _ hk hd.makes
      exact .leaf

/-- A node represents no two demands of one value. -/
theorem eq_of_represents {d : Json} {k k' : Demand} (hk : d.Makes k) (hk' : d.Makes k')
    (h : t.Represents k) (h' : t.Represents k') : k = k' := by
  cases h with
  | all =>
    cases h' with
    | all =>
      cases hk with
      | list =>
        cases hk' with
        | list => rfl
        | all h' => cases h'
      | all h =>
        cases hk' with
        | list => cases h
        | all h' =>
          cases h.symm.trans h'
          rfl
  | any =>
    cases h' with
    | any =>
      cases hk with
      | any h =>
        cases hk' with
        | any h' =>
          cases h.symm.trans h'
          rfl
  | leaf =>
    cases h'
    rfl

/-- At every value that is reached stands a node that keeps its demands. -/
theorem Keeps.exists_hasNode {d : Json} (h : t.Keeps data)
    (hd : Json.Reaches Json.Makes data d) : ∃ n u, t.HasNode n u ∧ u.Keeps d := by
  induction hd generalizing t with
  | root => exact ⟨0, t, .root, h⟩
  | @item data e d k hk he _ ih =>
    have hnode {ts : List FilterExpr} (hts : List.Forall₂ (fun d u => Keeps u d) k.items ts)
        (hchildren : t.children = ts) : ∃ n u, t.HasNode n u ∧ u.Keeps d := by
      obtain ⟨u, hu, hkeeps⟩ := exists_mem_of_forall₂ hts he
      obtain ⟨n, v, hv, hkeeps⟩ := ih hkeeps
      exact ⟨n + 1, v, .child (hchildren ▸ hu) hv, hkeeps⟩
    cases h k hk with
    | all hts => exact hnode hts rfl
    | any hts => exact hnode hts rfl
    | leaf => cases he

theorem Keeps.isPlain (h : t.Keeps data) : data.IsPlain := by
  intro d hd k k' hk hk'
  obtain ⟨_, u, _, hkeeps⟩ := h.exists_hasNode hd
  exact eq_of_represents hk hk' (hkeeps k hk) (hkeeps k' hk')

/-- Where the demands on the way are those that values are read for, something is read at every
value that is reached. -/
theorem Reads.exists_reads {R : Json → Demand → Prop} {d : Json} (h : t.Reads data)
    (hfirst : ∀ e, Json.Reaches R data e → ∀ k k', R e k → e.MakesFirst k' → k = k')
    (hd : Json.Reaches R data d) : ∃ u : FilterExpr, u.Reads d := by
  induction hd generalizing t with
  | root => exact ⟨t, h⟩
  | @item data e d k hk he _ ih =>
    have hread {k' : Demand} {ts : List FilterExpr} (hk' : data.MakesFirst k')
        (hts : List.Forall₂ (fun d u => Reads u d) k'.items ts) : ∃ u : FilterExpr, u.Reads d := by
      obtain rfl := hfirst data .root _ _ hk hk'
      obtain ⟨u, _, hu⟩ := exists_mem_of_forall₂ hts he
      exact ih hu fun e' he' => hfirst e' (.item hk he he')
    cases h with
    | step h =>
      cases h with
      | all hd _ _ hts => exact hread hd hts
      | any hd _ _ hts => exact hread hd hts
      | leaf hd =>
        obtain rfl := hfirst data .root _ _ hk hd
        cases he

theorem kind_of_groupItems {key : String} {value : Json} {fault : FilterFault}
    (h : groupItems key value = .error fault) : (Fault.filter fault).kind = .validation := by
  unfold groupItems at h
  split at h
  · split at h <;> cases h
    rfl
  · cases h
    rfl

theorem kind_of_ofFields {fault : FilterFault} (h : PropertyFilter.ofFields data = .error fault) :
    (Fault.filter fault).kind = .validation := by
  unfold PropertyFilter.ofFields at h
  split at h
  · split at h
    · cases h
      rfl
    · unfold PropertyFilter.make at h
      split at h <;> cases h
      rfl
  · cases h
    rfl
  · cases h
    rfl

/-- What is not read is refused as invalid. -/
theorem kind_of_ofLevels {fault : FilterFault} (h : ofLevels levels data = .error fault) :
    (Fault.filter fault).kind = .validation := by
  induction levels generalizing data fault with
  | zero =>
    cases h
    rfl
  | succ levels ih =>
    have hgroup {key : String} {value : Json} {join : List FilterExpr → FilterExpr}
        (h : (do return join (← (← groupItems key value).mapM (ofLevels levels))) =
          Except.error fault) : (Fault.filter fault).kind = .validation := by
      rcases bind_eq_error_iff.1 h with h | ⟨items, _, h⟩
      · exact kind_of_groupItems h
      · rcases bind_eq_error_iff.1 h with h | ⟨_, _, h⟩
        · obtain ⟨d, _, hd⟩ := exists_mem_of_mapM_eq_error h
          exact ih hd
        · cases h
    cases data with
    | arr items => exact hgroup h
    | obj fields =>
      rw [ofLevels] at h
      split at h
      · exact hgroup h
      · exact hgroup h
      · rcases bind_eq_error_iff.1 h with h | ⟨_, _, h⟩
        · exact kind_of_ofFields h
        · cases h
    | _ =>
      cases h
      rfl

/-- What demands nothing is not read. -/
theorem Reads.exists_makes (h : t.Reads data) : ∃ k, data.Makes k := by
  cases h with
  | step h =>
    cases h with
    | all hd => exact ⟨_, hd.makes⟩
    | any hd => exact ⟨_, hd.makes⟩
    | leaf hd => exact ⟨_, hd.makes⟩

/-- What is read keeps all demands of its value just when no value in it makes two, and has then a
node for each of them. In any case each value in it is read for the first of its demands. A value
that demands nothing is not read wherever it stands, unless it was dropped with what it stands in.
What is not read is refused as invalid. -/
theorem reading_keeps_iff_plain (data : Json) (depth : Int) :
    (∀ t, ofJson data (.int depth) = .ok t →
      t.Reads data ∧ (t.Keeps data ↔ data.IsPlain) ∧
        (data.IsPlain → ∀ d k, Json.Reaches Json.Makes data d → d.Makes k →
          ∃ n u, t.HasNode n u ∧ u.Represents k)) ∧
    ∀ d, (Json.Reaches Json.MakesFirst data d ∨ data.IsPlain ∧ Json.Reaches Json.Makes data d) →
      (∀ k, ¬ d.Makes k) →
        ∃ fault, ofJson data (.int depth) = .error fault ∧
          (Fault.filter fault).kind = .validation := by
  have hread : ofJson data (.int depth) = ofLevels (maxDepth + 1 - depth).toNat data := rfl
  rw [hread]
  constructor
  · intro t h
    have hkeeps (hplain : data.IsPlain) : t.Keeps data := keeps_of_ofLevels hplain h
    refine ⟨reads_of_ofLevels h, ⟨Keeps.isPlain, hkeeps⟩, fun hplain d k hd hk => ?_⟩
    obtain ⟨n, u, hu, hkept⟩ := (hkeeps hplain).exists_hasNode hd
    exact ⟨n, u, hu, hkept k hk⟩
  · intro d hd hnone
    cases h : ofLevels (maxDepth + 1 - depth).toNat data with
    | error fault => exact ⟨fault, rfl, kind_of_ofLevels h⟩
    | ok t =>
      have hreads := reads_of_ofLevels h
      have hthere : ∃ u : FilterExpr, u.Reads d := by
        rcases hd with hd | ⟨hplain, hd⟩
        · exact hreads.exists_reads (fun _ _ _ _ => Json.MakesFirst.unique) hd
        · exact hreads.exists_reads
            (fun e he _ _ hk hk' => hplain e he _ _ hk hk'.makes) hd
      obtain ⟨u, hu⟩ := hthere
      obtain ⟨k, hk⟩ := hu.exists_makes
      exact absurd hk (hnone k)

/-- A group beside a test is read without the test, one beside nothing else is kept as a whole, and
a number among the items is refused. -/
theorem reading_of_mixed_and_plain_values :
    let clause (name : String) : Json := .obj [("path", .str name), ("operator", .str "exists")]
    let mixed : Json := .obj [("or", .arr [clause "a"]), ("path", .str "b"),
      ("operator", .str "exists")]
    let group : Json := .obj [("or", .arr [clause "a", clause "b"])]
    let plain : Json := .arr [group]
    (∃ t, ofJson mixed = .ok t ∧ t.Reads mixed ∧ ¬ t.Keeps mixed) ∧
    (∃ t, ofJson plain = .ok t ∧ ∃ n u, t.HasNode n u ∧
      u.Represents (.any [clause "a", clause "b"])) ∧
    ∃ fault, ofJson (.arr [mixed, .int 3]) = .error fault ∧
      (Fault.filter fault).kind = .validation := by
  intro clause mixed group plain
  have hclause (name : String) : (clause name).IsPlain := Json.isPlain_test rfl rfl rfl rfl
  have hgroup : group.IsPlain := by
    refine Json.isPlain_any rfl rfl rfl fun e he => ?_
    rcases List.mem_pair.1 he with rfl | rfl <;> exact hclause _
  have hplain : plain.IsPlain := by
    refine Json.isPlain_list fun e he => ?_
    cases List.mem_singleton.1 he
    exact hgroup
  obtain ⟨hmixed, _⟩ := reading_keeps_iff_plain mixed 0
  obtain ⟨hkept, _⟩ := reading_keeps_iff_plain plain 0
  obtain ⟨_, hrefused⟩ := reading_keeps_iff_plain (.arr [mixed, .int 3]) 0
  refine ⟨⟨_, rfl, ?_⟩, ⟨_, rfl, ?_⟩, ?_⟩
  · obtain ⟨hreads, hkeeps, _⟩ := hmixed _ rfl
    refine ⟨hreads, fun h => ?_⟩
    cases hkeeps.1 h mixed .root _ _ (.any rfl) (.test rfl rfl)
  · obtain ⟨_, _, hnodes⟩ := hkept _ rfl
    exact hnodes hplain _ _ (.item .list List.mem_cons_self .root) (.any rfl)
  · have hitem : Json.int 3 ∈ [mixed, .int 3] := List.mem_cons_of_mem _ List.mem_cons_self
    refine hrefused (.int 3) (.inl (.item .list hitem .root)) fun k hk => ?_
    cases hk with
    | all h => cases h
    | any h => cases h
    | test hpath => cases hpath

/-- The second list of an object with an `and` list and an `or` list is accepted and has no part in
what is read and compiled. -/
theorem second_demand_dropped :
    let a : Json := .obj [("path", .str "a"), ("operator", .str "eq"), ("value", .str "A")]
    let b : Json := .obj [("path", .str "b"), ("operator", .str "eq"), ("value", .str "B")]
    let data : Json := .obj [("and", .arr [a]), ("or", .arr [b])]
    ∃ t, ofJson data = .ok t ∧ data.Makes (.all [a]) ∧ data.Makes (.any [b]) ∧
      (∀ n u, t.HasNode n u → ¬ u.Represents (.any [b])) ∧
        ∃ c, t.compile = .ok c ∧ c.predicate = "json_extract(e.properties, ?) = ?" ∧
          c.parameters = [.text "$.a", .text "A"] := by
  intro a b data
  refine ⟨.all [.leaf ⟨.str "a", .eq, .str "A"⟩], rfl, .all rfl, .any rfl, ?_, ?_⟩
  · intro n u hu
    cases hu with
    | root => exact nofun
    | child hleaf hu =>
      cases List.mem_singleton.1 hleaf
      cases hu with
      | root => exact nofun
      | child hnone => cases hnone
  · exact ⟨_, rfl, by decide +kernel, rfl⟩

end FilterExpr

end VersionedGraph
