import VersionedGraph.Proofs.Chain
import VersionedGraph.Proofs.Criteria
import VersionedGraph.Proofs.Record
import VersionedGraph.Store.Neighbors

/-!
# What neighbors are listed

A hop (`Store.Hop`) crosses a latest link whose near end names any version of the entity and whose
far end names any version of the entity that is reached; both pass a rule. What a query asks of
rows is such a rule, and the hops that it selects are exactly those that there are, one for every
link, in the order of their links.
-/

namespace VersionedGraph

/-- What is asked of the rows of both kinds that a hop leads across: whether deleted ones are let
through, which types, which properties, and which access lists. -/
structure HopRule where
  includeDeleted : Bool
  isOfType : Kind → String → Prop
  holds : Kind → String → Prop
  canRead : Option Int → Prop

/-- The rule without a look at access lists. -/
def HopRule.unguarded (rule : HopRule) : HopRule :=
  { rule with canRead := fun _ => True }

structure HopRule.Admits (rule : HopRule) {k : Kind} (row : Row k) : Prop where
  deleted : rule.includeDeleted = true ∨ row.isDeleted = false
  isOfType : rule.isOfType k row.typeId
  holds : rule.holds k row.properties
  canRead : rule.canRead row.acl

/-- A latest link leads from the entity of an id to the latest version of another one, and the link
and what it leads to pass a rule. -/
structure Store.Hop (s : Store) (rule : HopRule) (d : HopDirection) (id : String)
    (l : Row .link) (v : Row .entity) : Prop where
  link : l ∈ s.rows .link
  linkLatest : l.isLatest = true
  near : s.SameChain .entity (d.near l.ends) id
  entity : v ∈ s.rows .entity
  entityLatest : v.isLatest = true
  far : s.SameChain .entity (d.far l.ends) v.id
  admitsLink : rule.Admits l
  admitsEntity : rule.Admits v

theorem HopRule.Admits.unguarded {rule : HopRule} {k : Kind} {row : Row k} (h : rule.Admits row) :
    rule.unguarded.Admits row :=
  ⟨h.deleted, h.isOfType, h.holds, trivial⟩

theorem HopRule.Admits.of_unguarded {rule : HopRule} {k : Kind} {row : Row k}
    (h : rule.unguarded.Admits row) (hread : rule.canRead row.acl) : rule.Admits row :=
  ⟨h.deleted, h.isOfType, h.holds, hread⟩

theorem Store.Hop.unguarded {s : Store} {rule : HopRule} {d : HopDirection} {id : String}
    {l : Row .link} {v : Row .entity} (h : s.Hop rule d id l v) : s.Hop rule.unguarded d id l v :=
  { h with admitsLink := h.admitsLink.unguarded, admitsEntity := h.admitsEntity.unguarded }

theorem Store.Hop.of_unguarded {s : Store} {rule : HopRule} {d : HopDirection} {id : String}
    {l : Row .link} {v : Row .entity} (h : s.Hop rule.unguarded d id l v)
    (hlink : rule.canRead l.acl) (hentity : rule.canRead v.acl) : s.Hop rule d id l v :=
  { h with
    admitsLink := h.admitsLink.of_unguarded hlink
    admitsEntity := h.admitsEntity.of_unguarded hentity }

namespace HopQuery

def rule (q : HopQuery) : HopRule where
  includeDeleted := q.includeDeleted
  isOfType k type := q.typesOf k = [] ∨ ∃ id ∈ q.typesOf k, id.columnText? = some type
  holds k properties := ∀ c ∈ q.filters, c.rowName = k.rowName → c.holdsOn properties = .ok true
  canRead acl := q.access.permits acl = true

variable {q : HopQuery} {k : Kind}

theorem mem_filtersOn_iff {c : CompiledFilter} :
    c ∈ q.filtersOn k ↔ c ∈ q.filters ∧ c.rowName = k.rowName ∧ c.isEmpty = false := by
  simp [filtersOn]

/-- The criteria of a query together ask what its rule asks. -/
theorem allHold_criteria_iff {row : Row k} :
    Criterion.allHold row.listed (q.criteria k) = .ok true ↔ q.rule.Admits row := by
  rw [Criterion.allHold_eq_true_iff]
  have hdeleted : (∀ c ∈ (if q.includeDeleted then [] else [.undeleted] : List (Criterion k)),
      c.holds row.listed = .ok true) ↔ q.includeDeleted = true ∨ row.isDeleted = false := by
    by_cases h : q.includeDeleted = true
    · simp [h]
    · simp [h, Criterion.holds, Version.listed, Version.withId]
  have htypes : (∀ c ∈ (if (q.typesOf k).isEmpty then [] else [.typeAmong (q.typesOf k)] :
      List (Criterion k)), c.holds row.listed = .ok true) ↔ q.rule.isOfType k row.typeId := by
    unfold rule
    by_cases h : q.typesOf k = []
    · simp [h]
    · simp [h, Criterion.holds, Json.isColumnText, Version.listed, Version.withId]
  have hfilters : (∀ c ∈ (q.filtersOn k).map Criterion.properties,
      c.holds row.listed = .ok true) ↔ q.rule.holds k row.properties := by
    rw [List.forall_mem_map]
    constructor
    · intro h c hc hname
      cases hempty : c.isEmpty with
      | true =>
        rw [CompiledFilter.isEmpty, Option.isNone_iff_eq_none] at hempty
        simp [CompiledFilter.holdsOn, hempty]
      | false => exact h c (mem_filtersOn_iff.2 ⟨hc, hname, hempty⟩)
    · intro h c hc
      obtain ⟨hmem, hname, _⟩ := mem_filtersOn_iff.1 hc
      exact h c hmem hname
  have haccess : (∀ c ∈ ([.access q.access] : List (Criterion k)),
      c.holds row.listed = .ok true) ↔ q.rule.canRead row.acl := by
    rw [List.forall_mem_singleton, Criterion.holds, Except.ok.injEq]
    rfl
  unfold criteria
  rw [List.forall_mem_append, List.forall_mem_append, List.forall_mem_append, hdeleted, htypes,
    hfilters, haccess]
  constructor
  · rintro ⟨⟨⟨h, h'⟩, h''⟩, h'''⟩
    exact ⟨h, h', h''', h''⟩
  · rintro ⟨h, h', h'', h'''⟩
    exact ⟨⟨⟨h, h'⟩, h'''⟩, h''⟩

end HopQuery

namespace Store

namespace Versioned

variable {s : Store} {d : HopDirection} {q : HopQuery} {u : Row .entity} {l : Row .link}

/-- The links attached to a latest entity are those whose near ends name versions of it. -/
theorem mem_attachedLinks_iff (h : s.Versioned .entity) (hu : u ∈ s.rows .entity)
    (hlatest : u.isLatest = true) :
    l ∈ s.attachedLinks d u.id ↔
      l ∈ s.rows .link ∧ l.isLatest = true ∧ s.SameChain .entity (d.near l.ends) u.id := by
  have horigin : d.near l.ends ∈ s.backwardIds .entity u.id ↔
      s.SameChain .entity (d.near l.ends) u.id := by
    rw [h.mem_backwardIds_iff]
    constructor
    · rintro ⟨_, hway⟩
      exact sameChain_of_reflTransGen hway
    · intro hchain
      exact ⟨⟨u, hu, rfl⟩, h.reflTransGen_of_sameChain hu hlatest hchain⟩
  unfold attachedLinks
  rw [List.mem_filter, Bool.and_eq_true, List.contains_iff_mem, horigin]
  rfl

/-- The entity at the far end of a link is the latest version of what that end names. -/
theorem mem_farEntities_iff (h : s.Versioned .entity) {v : Row .entity} :
    v ∈ s.farEntities d l ↔
      v ∈ s.rows .entity ∧ v.isLatest = true ∧ s.SameChain .entity (d.far l.ends) v.id := by
  unfold farEntities
  rw [List.mem_filter, List.mem_filterMap]
  constructor
  · rintro ⟨⟨x, hx, hrow⟩, hlatest⟩
    obtain ⟨hv, rfl⟩ := h.row?_eq_some_iff.1 hrow
    exact ⟨hv, hlatest, sameChain_of_reflTransGen (mem_forwardIds_iff.1 hx).2⟩
  · rintro ⟨hv, hlatest, hchain⟩
    have hway := h.reflTransGen_of_sameChain hv hlatest hchain
    have hids := mem_forwardIds_iff.2 ⟨h.exists_of_forward hv hway, hway⟩
    exact ⟨⟨v.id, hids, h.row?_eq_some_iff.2 ⟨hv, rfl⟩⟩, hlatest⟩

theorem eq_of_mem_farEntities (h : s.Versioned .entity) {v w : Row .entity}
    (hv : v ∈ s.farEntities d l) (hw : w ∈ s.farEntities d l) : v = w := by
  obtain ⟨hv, hvlatest, hvfar⟩ := h.mem_farEntities_iff.1 hv
  obtain ⟨hw, hwlatest, hwfar⟩ := h.mem_farEntities_iff.1 hw
  exact h.eq_of_isLatest hv hw hvlatest hwlatest (.trans _ _ _ hvfar.symm hwfar)

theorem nodup_farEntities : (s.farEntities d l).Nodup := by
  refine List.Nodup.filter _ (List.Nodup.filterMap ?_ nodup_closure)
  intro x y r hx hy
  rw [← id_of_row? hx, ← id_of_row? hy]

theorem length_farEntities_le (h : s.Versioned .entity) : (s.farEntities d l).length ≤ 1 := by
  have hnodup := nodup_farEntities (s := s) (d := d) (l := l)
  match hlist : s.farEntities d l with
  | [] => exact Nat.zero_le 1
  | [_] => exact Nat.le_refl 1
  | v :: w :: rest =>
    have heq : v = w := by
      refine h.eq_of_mem_farEntities (d := d) (l := l) ?_ ?_
      · rw [hlist]
        exact List.mem_cons_self
      · rw [hlist]
        exact List.mem_cons_of_mem v List.mem_cons_self
    rw [hlist, heq] at hnodup
    exact absurd List.mem_cons_self (List.nodup_cons.1 hnodup).1

end Versioned

section

variable {s : Store} {d : HopDirection} {q : HopQuery} {l : Row .link}

/-- Whichever side of a hop is checked first, what is kept of the far end is what passes together
with the link. -/
theorem entitiesAcross_spec {es : List (Row .entity)} (h : s.entitiesAcross d q l = .ok es) :
    es.Sublist (s.farEntities d l) ∧
      ∀ v, v ∈ es ↔ v ∈ s.farEntities d l ∧ q.rule.Admits l ∧ q.rule.Admits v := by
  unfold entitiesAcross at h
  dsimp only at h
  simp only [← HopQuery.allHold_criteria_iff]
  split at h
  · refine ⟨sublist_of_selectM h, fun v => ?_⟩
    rw [mem_selectM_iff h, bind_eq_ok_iff]
    constructor
    · rintro ⟨hv, b, hb, hrest⟩
      cases b with
      | true => exact ⟨hv, hrest, hb⟩
      | false => cases hrest
    · rintro ⟨hv, hlink, hentity⟩
      exact ⟨hv, true, hentity, hlink⟩
  · rw [bind_eq_ok_iff] at h
    obtain ⟨b, hb, h⟩ := h
    cases b with
    | true =>
      rw [if_pos rfl] at h
      refine ⟨sublist_of_selectM h, fun v => ?_⟩
      rw [mem_selectM_iff h]
      constructor
      · rintro ⟨hv, hentity⟩
        exact ⟨hv, hb, hentity⟩
      · rintro ⟨hv, _, hentity⟩
        exact ⟨hv, hentity⟩
    | false =>
      cases h
      refine ⟨List.nil_sublist _, fun v => ?_⟩
      constructor
      · intro hv
        cases hv
      · rintro ⟨_, hlink, _⟩
        rw [hlink] at hb
        cases hb

/-- What was selected for each of some links lists, put together, every hop once. -/
theorem selected_spec (h : s.Versioned .entity) {links : List (Row .link)}
    {hops : List (List NeighborRow)}
    (hhops : List.Forall₂ (fun l ns => s.selectAcross d q l = .ok ns) links hops) :
    (hops.flatten.map (·.link.id)).Sublist (links.map (·.id)) ∧
      ∀ n, n ∈ hops.flatten ↔ n.link ∈ links ∧ n.entity ∈ s.farEntities d n.link ∧
        q.rule.Admits n.link ∧ q.rule.Admits n.entity := by
  induction hhops with
  | nil => simp
  | @cons l ns links hops hns _ ih =>
    obtain ⟨hsub, hmem⟩ := ih
    simp only [selectAcross, bind_eq_ok_iff, pure_eq_ok_iff] at hns
    obtain ⟨es, hes, rfl⟩ := hns
    obtain ⟨hessub, hesmem⟩ := entitiesAcross_spec hes
    refine ⟨?_, fun n => ?_⟩
    · have hone : ((es.map fun v => (⟨l, v⟩ : NeighborRow)).map (·.link.id)).Sublist [l.id] := by
        have hlength := Nat.le_trans hessub.length_le h.length_farEntities_le
        rcases es with _ | ⟨v, _ | ⟨w, rest⟩⟩
        · exact List.nil_sublist _
        · exact List.Sublist.refl _
        · simp at hlength
      rw [List.flatten_cons, List.map_append, List.map_cons, ← List.singleton_append]
      exact hone.append hsub
    · rw [List.flatten_cons, List.mem_append, hmem, List.mem_map, List.mem_cons]
      constructor
      · rintro (⟨v, hv, rfl⟩ | ⟨hl, hrest⟩)
        · exact ⟨.inl rfl, (hesmem v).1 hv⟩
        · exact ⟨.inr hl, hrest⟩
      · rintro ⟨rfl | hl, hrest⟩
        · exact .inl ⟨n.entity, (hesmem n.entity).2 hrest, rfl⟩
        · exact .inr ⟨hl, hrest⟩

end

/-- A selection of hops from a latest entity lists exactly the hops that there are, one for each
link, strictly in the order of links. -/
theorem selectHops_spec {s : Store} (h : ∀ k, s.Versioned k) {d : HopDirection} {q : HopQuery}
    {u : Row .entity} (hu : u ∈ s.rows .entity) (hlatest : u.isLatest = true)
    {ns : List NeighborRow} (hns : s.selectHops d u.id q = .ok ns) :
    (∀ n, n ∈ ns ↔ s.Hop q.rule d u.id n.link n.entity) ∧ (ns.map (·.link.id)).Nodup ∧
      ns.Pairwise NeighborRow.Before := by
  simp only [selectHops, bind_eq_ok_iff, pure_eq_ok_iff, mapM_eq_ok_iff] at hns
  obtain ⟨hops, hhops, rfl⟩ := hns
  obtain ⟨hsub, hmem⟩ := selected_spec (h .entity) hhops
  have hperm := List.mergeSort_perm hops.flatten NeighborRow.olderFirst
  have hattached : ((s.attachedLinks d u.id).map (·.id)).Sublist ((s.rows .link).map (·.id)) :=
    List.filter_sublist.map _
  have hnodup : ((hops.flatten.mergeSort NeighborRow.olderFirst).map (·.link.id)).Nodup :=
    (hperm.map _).nodup_iff.2 ((h .link).nodup_ids.sublist (hsub.trans hattached))
  refine ⟨fun n => ?_, hnodup, ?_⟩
  · rw [hperm.mem_iff, hmem, (h .entity).mem_attachedLinks_iff hu hlatest,
      (h .entity).mem_farEntities_iff]
    constructor
    · rintro ⟨⟨hl, hllatest, hnear⟩, ⟨hv, hvlatest, hfar⟩, hladmits, hvadmits⟩
      exact ⟨hl, hllatest, hnear, hv, hvlatest, hfar, hladmits, hvadmits⟩
    · rintro ⟨hl, hllatest, hnear, hv, hvlatest, hfar, hladmits, hvadmits⟩
      exact ⟨⟨hl, hllatest, hnear⟩, ⟨hv, hvlatest, hfar⟩, hladmits, hvadmits⟩
  · have hsorted : (hops.flatten.mergeSort NeighborRow.olderFirst).Pairwise
        fun a b => a.olderFirst b = true := by
      refine List.pairwise_mergeSort ?_ NeighborRow.olderFirst_total _
      exact fun _ _ _ => NeighborRow.olderFirst_trans
    refine (hsorted.and (List.pairwise_map.1 hnodup)).imp ?_
    intro a b hab
    exact NeighborRow.before_of_olderFirst hab.1 hab.2

end Store

namespace HopQuery

def Evaluates (q : HopQuery) {k : Kind} (row : Row k) : Prop :=
  ∀ c ∈ q.filters, c.rowName = k.rowName → ∃ b, c.holdsOn row.properties = .ok b

/-- What is asked of properties is asked by the filters. -/
theorem exists_properties_of_isOnProperties {q : HopQuery} {k : Kind} {c : Criterion k}
    (hc : c ∈ q.criteria k) (hon : c.isOnProperties = true) :
    ∃ filter ∈ q.filtersOn k, .properties filter = c := by
  unfold criteria at hc
  rcases List.mem_append.1 hc with hc | hc
  · have hcolumns : ∀ c ∈ (if q.includeDeleted then [] else [.undeleted]) ++
        (if (q.typesOf k).isEmpty then [] else [.typeAmong (q.typesOf k)]) ++
        [.access q.access], (c : Criterion k).isOnProperties = false := by
      split <;> split <;> simp [Criterion.isOnProperties]
    rw [hcolumns c hc] at hon
    cases hon
  · exact List.mem_map.1 hc

theorem exists_allHold_criteria {q : HopQuery} {k : Kind} {row : Row k} (h : q.Evaluates row) :
    ∃ b, Criterion.allHold row.listed (q.criteria k) = .ok b := by
  refine Criterion.exists_allHold_eq fun c hc => ?_
  cases hon : c.isOnProperties with
  | false => exact Criterion.exists_holds_eq_ok row.listed hon
  | true =>
    obtain ⟨filter, hfilter, rfl⟩ := exists_properties_of_isOnProperties hc hon
    obtain ⟨hmem, hname, _⟩ := mem_filtersOn_iff.1 hfilter
    exact h filter hmem hname

end HopQuery

/-- A request comes to a query that can be asked about an id: its filters speak of links and
entities only, and its values can be handed over. -/
structure HopRequest.Asks (r : HopRequest) (id : String) (q : HopQuery) : Prop where
  query : r.query = .ok q
  rowNames : ∀ c ∈ q.filters,
    c.isEmpty = true ∨ c.rowName ∈ [Kind.link.rowName, Kind.entity.rowName]
  handed : Json.handOver (.str id :: q.linkTypes ++ q.entityTypes ++
    (q.filters.flatMap CompiledFilter.parameters).map Scalar.toJson) = .ok ()

namespace Store

variable {s : Store} {d : HopDirection} {q : HopQuery} {r : HopRequest} {id : String}

theorem checkRowNames_eq_ok_iff {names : List String} {filters : List CompiledFilter} :
    filters.forM (CompiledFilter.checkRowName names) = .ok () ↔
      ∀ c ∈ filters, c.isEmpty = true ∨ c.rowName ∈ names := by
  induction filters with
  | nil => simp
  | cons c rest ih =>
    have hhead : c.checkRowName names = .ok () ↔ c.isEmpty = true ∨ c.rowName ∈ names := by
      rw [CompiledFilter.checkRowName, ← List.contains_iff_mem, ← Bool.or_eq_true]
      cases c.isEmpty || names.contains c.rowName <;> simp
    change (c.checkRowName names >>= fun _ => rest.forM (CompiledFilter.checkRowName names)) =
      .ok () ↔ _
    rw [bind_eq_ok_iff, List.forall_mem_cons, ← ih, ← hhead]
    exact ⟨fun ⟨_, h, hrest⟩ => ⟨h, hrest⟩, fun ⟨h, hrest⟩ => ⟨(), h, hrest⟩⟩

/-- Neighbors are the records of the hops that are selected by what is asked. -/
theorem neighbors_eq_ok_iff {ns : List Neighbor} :
    s.neighbors d (.str id) r = .ok ns ↔
      ∃ q, r.Asks id q ∧ ∃ rows, s.selectHops d id q = .ok rows ∧
        rows.mapM NeighborRow.decode = .ok ns := by
  simp only [neighbors, bind_eq_ok_iff, mapError_eq_ok_iff, Json.columnText?_str]
  constructor
  · rintro ⟨q, hq, _, hnames, _, hhanded, rows, hrows, hns⟩
    exact ⟨q, ⟨hq, checkRowNames_eq_ok_iff.1 hnames, hhanded⟩, rows, hrows, hns⟩
  · rintro ⟨q, hasks, rows, hrows, hns⟩
    exact ⟨q, hasks.query, (), checkRowNames_eq_ok_iff.2 hasks.rowNames, (), hasks.handed, rows,
      hrows, hns⟩

/-- Hops can be selected when filters can be evaluated on the links that are attached and on what
these lead to. -/
theorem exists_selectHops_eq_ok (h : ∀ l ∈ s.attachedLinks d id, q.Evaluates l ∧
    ∀ v ∈ s.farEntities d l, q.Evaluates v) : ∃ rows, s.selectHops d id q = .ok rows := by
  have hacross (l : Row .link) (hl : l ∈ s.attachedLinks d id) :
      ∃ ns, s.selectAcross d q l = .ok ns := by
    obtain ⟨hlink, hentity⟩ := h l hl
    obtain ⟨linkMeets, hlinkMeets⟩ := HopQuery.exists_allHold_criteria hlink
    let entityMeets (v : Row .entity) : Bool :=
      (Criterion.allHold v.listed (q.criteria .entity)).toOption.getD false
    have hentityMeets : ∀ v ∈ s.farEntities d l,
        Criterion.allHold v.listed (q.criteria .entity) = .ok (entityMeets v) := by
      intro v hv
      obtain ⟨b, hb⟩ := HopQuery.exists_allHold_criteria (hentity v hv)
      simp only [entityMeets, hb]
      rfl
    have hes := s.entitiesAcross_eq_filter d hlinkMeets hentityMeets
    exact ⟨_, bind_eq_ok_iff.2 ⟨_, hes, rfl⟩⟩
  obtain ⟨hops, hhops⟩ := exists_mapM_eq_ok hacross
  exact ⟨_, bind_eq_ok_iff.2 ⟨hops, hhops, rfl⟩⟩

/-- Filters can be evaluated on the latest links attached to an entity and on the latest entities
that these lead to. -/
def EvaluatesAround (s : Store) (q : HopQuery) (d : HopDirection) (id : String) : Prop :=
  ∀ l ∈ s.rows .link, l.isLatest = true → s.SameChain .entity (d.near l.ends) id →
    q.Evaluates l ∧ ∀ v ∈ s.rows .entity, v.isLatest = true →
      s.SameChain .entity (d.far l.ends) v.id → q.Evaluates v

/-- Asking for neighbors can only go wrong in reading what is along a hop. -/
theorem neighbors_eq_error (h : ∀ k, s.Versioned k) {u : Row .entity} (hu : u ∈ s.rows .entity)
    (hlatest : u.isLatest = true) (hasks : r.Asks u.id q) (hevaluates : s.EvaluatesAround q d u.id)
    {f : Fault} (hf : s.neighbors d (.str u.id) r = .error f) :
    ∃ n : NeighborRow, s.Hop q.rule d u.id n.link n.entity ∧ n.decode = .error f := by
  have hselect : ∃ rows, s.selectHops d u.id q = .ok rows := by
    refine exists_selectHops_eq_ok fun l hl => ?_
    obtain ⟨hl, hllatest, hnear⟩ := ((h .entity).mem_attachedLinks_iff hu hlatest).1 hl
    obtain ⟨hlink, hentity⟩ := hevaluates l hl hllatest hnear
    refine ⟨hlink, fun v hfar => ?_⟩
    obtain ⟨hv, hvlatest, hchain⟩ := (h .entity).mem_farEntities_iff.1 hfar
    exact hentity v hv hvlatest hchain
  obtain ⟨rows, hrows⟩ := hselect
  obtain ⟨hmem, _, _⟩ := selectHops_spec h hu hlatest hrows
  cases hdecode : rows.mapM NeighborRow.decode with
  | ok ns =>
    rw [neighbors_eq_ok_iff.2 ⟨q, hasks, rows, hrows, hdecode⟩] at hf
    cases hf
  | error f' =>
    obtain ⟨n, hn, hfails⟩ := exists_mem_of_mapM_eq_error hdecode
    have hsame : s.neighbors d (.str u.id) r = .error f' := by
      simp only [neighbors, hasks.query, mapError_ok, ok_bind,
        checkRowNames_eq_ok_iff.2 hasks.rowNames, hasks.handed, Json.columnText?_str, hrows,
        hdecode]
    rw [hsame] at hf
    cases hf
    exact ⟨n, (hmem n).1 hn, hfails⟩

/-- A store in which a note cites another of which there is a later version. -/
def staleCitation : Store :=
  empty.after
    [(.create (k := .entity) { typeId := .str "note", ends := () }, ⟨"a", 1⟩),
      (.create (k := .entity) { typeId := .str "note", ends := () }, ⟨"b", 2⟩),
      (.create (k := .link) { typeId := .str "cites", ends := ⟨.str "a", .str "b"⟩ }, ⟨"l", 3⟩),
      (.update .entity (.str "b") (.obj []) .null, ⟨"c", 4⟩)]

namespace staleCitation

def citing : Row .entity :=
  ⟨"a", "note", (), "{}", .integer 1, none, .integer 1, none, false, true, none⟩

def cited : Row .entity :=
  ⟨"b", "note", (), "{}", .integer 1, none, .integer 2, none, false, false, none⟩

def revised : Row .entity :=
  ⟨"c", "note", (), "{}", .integer 2, some "b", .integer 4, none, false, true, none⟩

def citation : Row .link :=
  ⟨"l", "cites", ⟨"a", "b"⟩, "{}", .integer 1, none, .integer 3, none, false, true, none⟩

theorem reachable : staleCitation.Reachable := ⟨_, rfl⟩

theorem rows_entity : staleCitation.rows .entity = [citing, cited, revised] := by decide +kernel

theorem rows_link : staleCitation.rows .link = [citation] := by decide +kernel

theorem citing_mem : citing ∈ staleCitation.rows .entity := by simp [rows_entity]

theorem revised_mem : revised ∈ staleCitation.rows .entity := by simp [rows_entity]

theorem sameChain : staleCitation.SameChain .entity "b" "c" :=
  .rel _ _ ⟨revised, revised_mem, rfl, rfl⟩

end staleCitation

end Store

end VersionedGraph
