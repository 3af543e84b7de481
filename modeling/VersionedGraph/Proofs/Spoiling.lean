import VersionedGraph.Proofs.Alike
import VersionedGraph.Proofs.Listing
import VersionedGraph.Proofs.Traversal

/-!
# What spoils searches

A search of a store fails in one of two ways. Its request may be one that cannot be asked about any
entity, which shows as soon as neighbors are listed at all, wherever the search starts. Otherwise
something fewer hops away than its depth spoils it (`Store.SpoiledFrom`): a filter cannot be
evaluated on a link that is attached there or on what the link leads to, or the properties along a
hop, whoever may cross it, cannot be read.
-/

namespace VersionedGraph

/-- Something goes wrong when the neighbors of an id are listed: a filter fails on a link that is
attached to it, or on what the link leads to, or something along a hop that asks for nothing but
access cannot be read. -/
inductive Store.Spoils (s : Store) (filters : List CompiledFilter) (rule : HopRule)
    (d : HopDirection) (id : String) (f : Fault) : Prop where
  | link {l : Row .link} (attached : l ∈ s.attachedLinks d id) (fails : FailsOn filters l f)
  | entity {l : Row .link} {v : Row .entity} (attached : l ∈ s.attachedLinks d id)
    (far : v ∈ s.farEntities d l) (fails : FailsOn filters v f)
  | unreadable {n : NeighborRow} (hop : s.Hop rule.unguarded d id n.link n.entity)
    (fails : n.decode = .error f)

/-- Something goes wrong around what is fewer hops away from a row than a depth. -/
def Store.SpoiledFrom (s : Store) (filters : List CompiledFilter) (rule : HopRule)
    (directions : List HopDirection) (start : Row .entity) (depth : Nat) (f : Fault) : Prop :=
  ∃ (walk : List NeighborRow) (u : Row .entity), Walk (s.Crosses rule directions) start walk u ∧
    walk.length < depth ∧ ∃ d ∈ directions, s.Spoils filters rule d u.id f

/-- Whether a request can be asked does not depend on the id that it is about. -/
theorem HopRequest.prepare_eq_prepare (r : HopRequest) (id id' : String) :
    r.prepare id = r.prepare id' := by
  have hhanded (rest : List Json) (text : String) :
      Json.handOver (.str text :: rest) = Json.handOver rest 2 := by
    unfold Json.handOver
    rw [Json.firstBindFault?, Json.bindFault?, LooseText.firstHalves?_ofString]
    rfl
  unfold prepare
  simp only [List.cons_append, hhanded]

namespace Store

variable {s : Store} {access : AclFilter Int} {r : HopRequest} {d : HopDirection} {f : Fault}
  {u start : Row .entity} {record : Record .entity} {directions : List HopDirection} {depth : Nat}
  {allPaths : Bool} {goal : Option String}

/-- What a search asks for around a latest entity is only missing where the request cannot be asked
or something is spoiled. -/
theorem spoils_of_readableNeighbors (h : ∀ k, s.Versioned k) (hu : u ∈ s.rows .entity)
    (hlatest : u.isLatest = true) (hf : s.readableNeighbors access r d u.id = .error f) :
    r.prepare u.id = .error f ∨ s.Spoils r.filters (r.rule access.Lets) d u.id f := by
  have hneighbors : s.neighbors d (.str u.id) { r with access := access.clause } = .error f := by
    rw [readableNeighbors_eq_map] at hf
    cases hlisted : s.neighbors d (.str u.id) { r with access := access.clause } with
    | ok found =>
      rw [hlisted] at hf
      cases hf
    | error f' =>
      rw [hlisted] at hf
      cases hf
      rfl
  rw [neighbors_eq_bind] at hneighbors
  rcases bind_eq_error_iff.1 hneighbors with hprepare | ⟨q, hprepare, hneighbors⟩
  · rw [r.prepare_withAccess] at hprepare
    cases hrefused : r.prepare u.id with
    | ok q =>
      rw [hrefused] at hprepare
      cases hprepare
    | error f' =>
      rw [hrefused] at hprepare
      cases hprepare
      exact .inl rfl
  right
  have hquery := HopRequest.query_of_prepare u.id hprepare
  rcases bind_eq_error_iff.1 hneighbors with hselect | ⟨rows, hrows, hdecode⟩
  · have hfails := failsOn_of_selectHops_eq_error hselect
    rw [HopRequest.filters_of_query hquery] at hfails
    obtain ⟨l, hl, hlink | ⟨v, hv, hentity⟩⟩ := hfails
    · exact .link hl hlink
    · exact .entity hl hv hentity
  · obtain ⟨n, hn, hfails⟩ := exists_mem_of_mapM_eq_error hdecode
    have hop := (((selectHops_spec h hu hlatest hrows).1 n).1 hn).unguarded
    rw [rule_of_query hquery] at hop
    exact .unreadable hop hfails

/-- A search fails because its request cannot be asked, once it lists any neighbors, or because
something is spoiled before its depth. -/
theorem spoiledFrom_of_run (h : ∀ k, s.Versioned k) (hstart : start ∈ s.rows .entity)
    (hlatest : start.isLatest = true) (hdecode : start.decode = .ok record)
    (hgoal : goal ≠ some record.id)
    (hf : Search.run (s.readableNeighbors access r) allPaths goal directions depth record =
      .error f) :
    (0 < depth ∧ r.prepare start.id = .error f) ∨
      s.SpoiledFrom r.filters (r.rule access.Lets) directions start depth f := by
  obtain ⟨d, hd, e, path, ⟨u, hu, hulatest, he⟩, hwalk, hlt, hlist⟩ :=
    Search.Ground.exists_of_run_eq_error
      (g := s.ground (r.rule access.Lets) directions record goal) (lists_ground h)
      ⟨start, hstart, hlatest, hdecode⟩ hgoal hf
  change Walk _ record.id path e.id at hwalk
  rw [id_of_decode hdecode, id_of_decode he] at hwalk
  obtain ⟨walk, v, hcrossed, rfl, hid⟩ := walk_ground_iff.1 hwalk
  cases (h .entity).eq_of_id_eq (latest_of_walk hstart hlatest hcrossed).1 hu hid
  rw [List.length_map] at hlt
  rw [id_of_decode he] at hlist
  rcases spoils_of_readableNeighbors h hu hulatest hlist with hrefused | hspoils
  · rw [r.prepare_eq_prepare u.id start.id] at hrefused
    exact .inl ⟨Nat.zero_lt_of_lt hlt, hrefused⟩
  · exact .inr ⟨walk, u, hcrossed, hlt, d, hd, hspoils⟩

/-- A request that cannot be asked makes every search fail that lists any neighbors. -/
theorem run_of_prepare_eq_error {id : String} (hrefused : r.prepare id = .error f)
    (hdepth : 0 < depth) (hne : directions ≠ []) (record : Record .entity) :
    Search.run (s.readableNeighbors access r) allPaths goal directions depth record = .error f := by
  have hlist (d : HopDirection) : s.readableNeighbors access r d record.id = .error f := by
    rw [readableNeighbors_eq_map, neighbors_eq_bind, r.prepare_withAccess,
      r.prepare_eq_prepare record.id id, hrefused]
    rfl
  obtain ⟨remaining, rfl⟩ := Nat.exists_eq_add_of_lt hdepth
  obtain ⟨first, rest, rfl⟩ := List.exists_cons_of_ne_nil hne
  have hexpand (s' : Search) (hfound : s'.found = false) :
      Search.expand (s.readableNeighbors access r) allPaths goal 0 (record.id, []) s' first =
        .error f := by
    unfold Search.expand
    rw [hfound, if_neg Bool.false_ne_true, hlist]
    rfl
  unfold Search.run
  rw [Nat.zero_add, Search.waves, List.foldlM_cons, Search.expandAll, List.foldlM_cons,
    hexpand _ rfl]
  rfl

/-- A search that comes to an end, or one that fails. -/
theorem finished_of_run (h : ∀ k, s.Versioned k) (hstart : start ∈ s.rows .entity)
    (hlatest : start.isLatest = true) (hdecode : start.decode = .ok record)
    (hgoal : goal ≠ some record.id) {search : Search}
    (hsearch : Search.run (s.readableNeighbors access r) allPaths goal directions depth record =
      .ok search) :
    (s.ground (r.rule access.Lets) directions record goal).Finished depth search :=
  Search.Ground.finished_run (g := s.ground (r.rule access.Lets) directions record goal)
    (lists_ground h) ⟨start, hstart, hlatest, hdecode⟩ hgoal hsearch

/-- Two searches for nothing in particular with the same request and depth fail alike unless one of
them is spoiled, and otherwise both come to an end. -/
theorem searches_alike (depth : Nat) (allPaths : Bool) {t : Store} {access' : AclFilter Int}
    {start' : Row .entity} {record' : Record .entity} {directions' : List HopDirection}
    {rule rule' : HopRule}
    (hs : ∀ k, s.Versioned k) (ht : ∀ k, t.Versioned k) (hrule : r.rule access.Lets = rule)
    (hrule' : r.rule access'.Lets = rule') (hstart : start ∈ s.rows .entity)
    (hlatest : start.isLatest = true) (hdecode : start.decode = .ok record)
    (hstart' : start' ∈ t.rows .entity) (hlatest' : start'.isLatest = true)
    (hdecode' : start'.decode = .ok record') (hne : directions ≠ []) (hne' : directions' ≠ []) :
    Alike (s.SpoiledFrom r.filters rule directions start depth)
      (t.SpoiledFrom r.filters rule' directions' start' depth)
      (fun search search' => (s.ground rule directions record none).Finished depth search ∧
        (t.ground rule' directions' record' none).Finished depth search')
      (Search.run (s.readableNeighbors access r) allPaths none directions depth record)
      (Search.run (t.readableNeighbors access' r) allPaths none directions' depth record') := by
  have hnone (e : Record .entity) : none ≠ some e.id := nofun
  subst hrule hrule'
  cases hx : Search.run (s.readableNeighbors access r) allPaths none directions depth record with
  | error f =>
    rcases spoiledFrom_of_run hs hstart hlatest hdecode (hnone _) hx with
      ⟨hpos, hrefused⟩ | hspoiled
    · rw [run_of_prepare_eq_error hrefused hpos hne' record']
      exact .error f
    · exact .left hspoiled _
  | ok search =>
    cases hy : Search.run (t.readableNeighbors access' r) allPaths none directions' depth
        record' with
    | error f =>
      rcases spoiledFrom_of_run ht hstart' hlatest' hdecode' (hnone _) hy with
        ⟨hpos, hrefused⟩ | hspoiled
      · rw [run_of_prepare_eq_error hrefused hpos hne record] at hx
        cases hx
      · exact .right _ hspoiled
    | ok search' =>
      exact .ok ⟨finished_of_run hs hstart hlatest hdecode (hnone _) hx,
        finished_of_run ht hstart' hlatest' hdecode' (hnone _) hy⟩

end Store

/-! Traversals. -/

/-- Something that a traversal from a row comes across goes wrong: the row cannot be read, or the
neighbors of something that is reached before the last wave are spoiled. -/
def TraversalRequest.Spoiled (s : Store) (settings : SearchSettings) (r : TraversalRequest)
    (start : Row .entity) (direction : Direction) (f : Fault) : Prop :=
  start.decode = .error f ∨
    ∃ depth request, Store.requestedDepth r.maxDepth settings.traversalDepth = .ok depth ∧
      r.request = .ok request ∧
      s.SpoiledFrom request.filters (r.rule s) direction.hops start depth f

theorem Direction.hops_ne_nil (direction : Direction) : direction.hops ≠ [] := by
  cases direction <;> exact nofun

end VersionedGraph
