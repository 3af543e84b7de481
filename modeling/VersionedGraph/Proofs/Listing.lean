import VersionedGraph.Proofs.Crossing

/-!
# What searches are given

What a search is given of the neighbors of a latest entity comes out in one of four ways: the
request cannot be asked of any store, a filter cannot be evaluated, something that is looked at
before access cannot be read, or the hops that the caller may cross are read one after the other
(`Store.readableNeighbors_cases`). There is one list of these hops only, for they come in a strict
order.
-/

namespace VersionedGraph

namespace NeighborRow

theorem Before.asymm {a b : NeighborRow} (hab : a.Before b) : ¬b.Before a := by
  have hswap : b.link.createdAt.compare a.link.createdAt =
      (a.link.createdAt.compare b.link.createdAt).swap := Std.OrientedCmp.eq_swap
  unfold Before at hab ⊢
  rw [hswap]
  rcases hab with hlt | ⟨heq, hid⟩
  · simp [hlt]
  · rw [heq]
    rintro (hgt | ⟨_, hid'⟩)
    · cases hgt
    · exact Std.not_gt_of_lt hid hid'

/-- Two lists of the same hops in order are the same. -/
theorem eq_of_pairwise_before {rows rows' : List NeighborRow} (h : rows.Pairwise Before)
    (h' : rows'.Pairwise Before) (hmem : ∀ n, n ∈ rows ↔ n ∈ rows') : rows = rows' := by
  have hnodup {rows : List NeighborRow} (h : rows.Pairwise Before) : rows.Nodup :=
    h.imp fun hab heq => hab.asymm (by rwa [heq] at hab ⊢)
  have hperm : rows.Perm rows' := (List.perm_ext_iff_of_nodup (hnodup h) (hnodup h')).2 hmem
  exact hperm.eq_of_pairwise (fun _ _ _ _ hab hba => absurd hba hab.asymm) h h'

end NeighborRow

/-- The query that a request about an id comes to, as far as it is checked without a store. -/
def HopRequest.prepare (r : HopRequest) (id : String) : Except Fault HopQuery := do
  let q ← r.query.mapError .misuse
  q.filters.forM (CompiledFilter.checkRowName [Kind.link.rowName, Kind.entity.rowName])
  Json.handOver (.str id :: q.linkTypes ++ q.entityTypes ++
    (q.filters.flatMap CompiledFilter.parameters).map Scalar.toJson)
  return q

namespace HopRequest

variable {r : HopRequest} {id : String} {clause : AclClause Int}

/-- Access plays no part in whether a request can be asked. -/
theorem prepare_withAccess (r : HopRequest) (clause : AclClause Int) (id : String) :
    prepare { r with access := clause } id =
      (r.prepare id).map fun q => { q with access := clause } := by
  unfold prepare query
  cases r.linkTypes.givenItems with
  | error f => rfl
  | ok linkTypes =>
    cases r.entityTypes.givenItems with
    | error f => rfl
    | ok entityTypes =>
      simp only [ok_bind, mapError_ok, pure, Except.pure]
      cases r.filters.forM
        (CompiledFilter.checkRowName [Kind.link.rowName, Kind.entity.rowName]) with
      | error f => rfl
      | ok _ =>
        simp only [ok_bind]
        cases Json.handOver _ with
        | error f => rfl
        | ok _ => rfl

theorem query_of_prepare (id : String) {q : HopQuery} (h : r.prepare id = .ok q) :
    r.query = .ok q := by
  simp only [prepare, bind_eq_ok_iff, mapError_eq_ok_iff, pure_eq_ok_iff] at h
  obtain ⟨_, hq, _, _, _, _, rfl⟩ := h
  exact hq

theorem filters_of_query {q : HopQuery} (h : r.query = .ok q) : q.filters = r.filters := by
  simp only [query, bind_eq_ok_iff, pure_eq_ok_iff] at h
  obtain ⟨_, _, _, _, rfl⟩ := h
  rfl

end HopRequest

namespace Store

variable {s : Store} {d : HopDirection} {q : HopQuery} {r : HopRequest} {id : String} {f : Fault}
  {access : AclFilter Int} {u : Row .entity}

theorem neighbors_eq_bind : s.neighbors d (.str id) r =
    r.prepare id >>= fun q => s.selectHops d id q >>= fun rows =>
      rows.mapM NeighborRow.decode := by
  simp only [neighbors, HopRequest.prepare, Json.columnText?_str, bind_assoc, pure_bind]

/-- One of some filters speaks of rows of a kind and cannot be evaluated on a row. -/
def FailsOn (filters : List CompiledFilter) {k : Kind} (row : Row k) (f : Fault) : Prop :=
  ∃ c ∈ filters, c.rowName = k.rowName ∧ c.holdsOn row.properties = .error f

theorem FailsOn.evaluation {filters : List CompiledFilter} {k : Kind} {row : Row k}
    (h : FailsOn filters row f) : filters ≠ [] ∧ ∃ e, f = .evaluation e := by
  obtain ⟨c, hc, _, hfails⟩ := h
  have hfilter : (Criterion.properties c : Criterion k).holds row.listed = .error f := hfails
  exact ⟨List.ne_nil_of_mem hc, (Criterion.evaluation_of_holds_eq_error hfilter).2⟩

theorem failsOn_of_allHold_eq_error {k : Kind} {row : Row k}
    (h : Criterion.allHold row.listed (q.criteria k) = .error f) : FailsOn q.filters row f := by
  obtain ⟨c, hc, hfails⟩ := Criterion.exists_mem_of_allHold_eq_error h
  obtain ⟨hon, _⟩ := Criterion.evaluation_of_holds_eq_error hfails
  obtain ⟨filter, hfilter, rfl⟩ := HopQuery.exists_properties_of_isOnProperties hc hon
  obtain ⟨hmem, hname, _⟩ := HopQuery.mem_filtersOn_iff.1 hfilter
  exact ⟨filter, hmem, hname, hfails⟩

/-- Hops fail to be selected only where a filter cannot be evaluated on a link that is attached to
the entity or on what the link leads to. -/
theorem failsOn_of_selectHops_eq_error (h : s.selectHops d id q = .error f) :
    ∃ l ∈ s.attachedLinks d id,
      FailsOn q.filters l f ∨ ∃ v ∈ s.farEntities d l, FailsOn q.filters v f := by
  have hacross (l : Row .link) (hl : s.entitiesAcross d q l = .error f) :
      FailsOn q.filters l f ∨ ∃ v ∈ s.farEntities d l, FailsOn q.filters v f := by
    unfold entitiesAcross at hl
    dsimp only at hl
    split at hl
    · obtain ⟨v, hv, hfails⟩ := exists_mem_of_selectM_eq_error hl
      rcases bind_eq_error_iff.1 hfails with hfails | ⟨b, _, hfails⟩
      · exact .inr ⟨v, hv, failsOn_of_allHold_eq_error hfails⟩
      · split at hfails
        · exact .inl (failsOn_of_allHold_eq_error hfails)
        · cases hfails
    · rcases bind_eq_error_iff.1 hl with hl | ⟨b, _, hl⟩
      · exact .inl (failsOn_of_allHold_eq_error hl)
      · split at hl
        · obtain ⟨v, hv, hfails⟩ := exists_mem_of_selectM_eq_error hl
          exact .inr ⟨v, hv, failsOn_of_allHold_eq_error hfails⟩
        · cases hl
  rcases bind_eq_error_iff.1 h with h | ⟨_, _, h⟩
  · obtain ⟨l, hl, hfails⟩ := exists_mem_of_mapM_eq_error h
    rcases bind_eq_error_iff.1 hfails with hfails | ⟨_, _, hfails⟩
    · exact ⟨l, hl, hacross l hfails⟩
    · cases hfails
  · cases h

theorem evaluation_of_selectHops_eq_error (h : s.selectHops d id q = .error f) :
    q.filters ≠ [] ∧ ∃ e, f = .evaluation e := by
  obtain ⟨l, _, hfails | ⟨v, _, hfails⟩⟩ := failsOn_of_selectHops_eq_error h
  · exact hfails.evaluation
  · exact hfails.evaluation

/-- Whether a hop is kept by what a clause leaves to be looked at. -/
def keeps (access : AclFilter Int) (link entity : Option Int) : Bool :=
  access.clause.isInline || Acl.isReadable access.accessible link &&
    Acl.isReadable access.accessible entity

theorem readableNeighbors_eq_map (s : Store) (access : AclFilter Int) (r : HopRequest)
    (d : HopDirection) (id : String) :
    s.readableNeighbors access r d id =
      (s.neighbors d (.str id) { r with access := access.clause }).map
        (List.filter fun n => keeps access n.link.acl n.entity.acl) := by
  unfold readableNeighbors keeps
  cases s.neighbors d (.str id) { r with access := access.clause } with
  | error f => rfl
  | ok found =>
    rw [ok_bind]
    cases access.clause.isInline with
    | true => simp [Except.map, pure, Except.pure]
    | false =>
      simp [Except.map, pure, Except.pure, Acl.keepReadable, List.filter_filter, Bool.and_comm]

/-- The hops that a query selects and a clause leaves are those that the caller may cross. -/
theorem hop_lets_iff
    (hq : HopRequest.query { r with access := access.clause } = .ok q) {n : NeighborRow} :
    s.Hop (r.rule access.Lets) d id n.link n.entity ↔
      s.Hop q.rule d id n.link n.entity ∧ keeps access n.link.acl n.entity.acl = true := by
  unfold keeps
  rw [Bool.or_and_distrib_left, Bool.and_eq_true]
  constructor
  · intro hop
    obtain ⟨hlink, hlread⟩ := (admits_lets_iff hq).1 hop.admitsLink
    obtain ⟨hentity, heread⟩ := (admits_lets_iff hq).1 hop.admitsEntity
    exact ⟨{ hop with admitsLink := hlink, admitsEntity := hentity }, hlread, heread⟩
  · rintro ⟨hop, hlread, heread⟩
    exact { hop with
      admitsLink := (admits_lets_iff hq).2 ⟨hop.admitsLink, hlread⟩
      admitsEntity := (admits_lets_iff hq).2 ⟨hop.admitsEntity, heread⟩ }

/-- A caller's access is not part of queries but is looked at afterwards, and on a hop that asks
for nothing but that, from the entity of an id, something kept from the caller cannot be read. -/
structure Stumbles (s : Store) (access : AclFilter Int) (rule : HopRule) (d : HopDirection)
    (id : String) (f : Fault) : Prop where
  deferred : access.clause.isInline = false
  hop : ∃ n : NeighborRow, s.Hop rule.unguarded d id n.link n.entity ∧
    ¬(rule.canRead n.link.acl ∧ rule.canRead n.entity.acl) ∧ n.decode = .error f

/-- Selecting hops, reading them and then keeping what may be read goes wrong in a filter or in what
is not kept, or comes to reading what is kept. -/
theorem selected_cases (h : ∀ k, s.Versioned k) (hu : u ∈ s.rows .entity)
    (hlatest : u.isLatest = true)
    (hq : HopRequest.query { r with access := access.clause } = .ok q)
    {listed : Except Fault (List Neighbor)}
    (hlisted : listed = (s.selectHops d u.id q >>= fun rows => rows.mapM NeighborRow.decode).map
      (List.filter fun n => keeps access n.link.acl n.entity.acl)) :
    (r.filters ≠ [] ∧ ∃ e, listed = .error (.evaluation e)) ∨
    (∃ f, s.Stumbles access (r.rule access.Lets) d u.id f ∧ listed = .error f) ∨
    ∃ rows : List NeighborRow,
      (∀ n, n ∈ rows ↔ s.Hop (r.rule access.Lets) d u.id n.link n.entity) ∧
      rows.Pairwise NeighborRow.Before ∧ listed = rows.mapM NeighborRow.decode := by
  cases hrows : s.selectHops d u.id q with
  | error f =>
    obtain ⟨hfilters, e, rfl⟩ := evaluation_of_selectHops_eq_error hrows
    rw [HopRequest.filters_of_query hq] at hfilters
    rw [hrows] at hlisted
    exact .inl ⟨hfilters, e, hlisted⟩
  | ok rows =>
    right
    rw [hrows, ok_bind] at hlisted
    obtain ⟨hmem, _, hsorted⟩ := selectHops_spec h hu hlatest hrows
    let kept (n : NeighborRow) : Bool := keeps access n.link.acl n.entity.acl
    have hkept (row : NeighborRow) (_ : row ∈ rows) (n : Neighbor) (hn : row.decode = .ok n) :
        keeps access n.link.acl n.entity.acl = kept row := by
      obtain ⟨hlacl, heacl⟩ := NeighborRow.acl_of_decode hn
      rw [hlacl, heacl]
    rcases mapM_filter_cases hkept with ⟨n, hn, hdropped, f, hfails, hmap⟩ | hmap
    · have hop := ((hmem n).1 hn).unguarded
      rw [rule_of_query hq] at hop
      rw [hmap] at hlisted
      refine .inl ⟨f, ⟨(Bool.or_eq_false_iff.1 hdropped).1, n, hop, ?_, hfails⟩, hlisted⟩
      rintro ⟨hlink, hentity⟩
      have hlets : s.Hop (r.rule access.Lets) d u.id n.link n.entity :=
        Hop.of_unguarded hop hlink hentity
      exact Bool.eq_false_iff.1 hdropped ((hop_lets_iff hq).1 hlets).2
    · refine .inr ⟨rows.filter kept, fun n => ?_, hsorted.filter _, hlisted.trans hmap⟩
      rw [List.mem_filter, hmem, hop_lets_iff hq]

/-- What a search is given for a latest entity is a fault of the request, of a filter or of what it
stumbles over, or it comes from reading the hops that the caller may cross in their order. -/
theorem readableNeighbors_cases (h : ∀ k, s.Versioned k) (hu : u ∈ s.rows .entity)
    (hlatest : u.isLatest = true) (access : AclFilter Int) (r : HopRequest) (d : HopDirection) :
    (∃ f, r.prepare u.id = .error f ∧ s.readableNeighbors access r d u.id = .error f) ∨
    (r.filters ≠ [] ∧ ∃ e, s.readableNeighbors access r d u.id = .error (.evaluation e)) ∨
    (∃ f, s.Stumbles access (r.rule access.Lets) d u.id f ∧
      s.readableNeighbors access r d u.id = .error f) ∨
    (∃ q, r.prepare u.id = .ok q) ∧ ∃ rows : List NeighborRow,
      (∀ n, n ∈ rows ↔ s.Hop (r.rule access.Lets) d u.id n.link n.entity) ∧
      rows.Pairwise NeighborRow.Before ∧
      s.readableNeighbors access r d u.id = rows.mapM NeighborRow.decode := by
  have hlisted := s.readableNeighbors_eq_map access r d u.id
  rw [neighbors_eq_bind, r.prepare_withAccess] at hlisted
  cases hprepare : r.prepare u.id with
  | error f =>
    rw [hprepare] at hlisted
    exact .inl ⟨f, rfl, hlisted⟩
  | ok q =>
    have hq : HopRequest.query { r with access := access.clause } =
        .ok { q with access := access.clause } := by
      refine HopRequest.query_of_prepare u.id ?_
      rw [r.prepare_withAccess, hprepare]
      rfl
    rw [hprepare] at hlisted
    rcases selected_cases h hu hlatest hq hlisted with hcase | hcase | hcase
    · exact .inr (.inl hcase)
    · exact .inr (.inr (.inl hcase))
    · exact .inr (.inr (.inr ⟨⟨q, rfl⟩, hcase⟩))

end Store

end VersionedGraph
