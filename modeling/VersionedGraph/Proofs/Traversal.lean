import Mathlib
import VersionedGraph.Proofs.Crossing

/-!
# What traversals list

A traversal that succeeds lists the start and then, once each and in order of depth, exactly the
latest entities that can be reached from it by walks of no more hops than its depth, each at the
number of hops of a shortest such walk.
-/

namespace VersionedGraph

namespace TraversalRequest

/-- The types that a request gives for rows of a kind. -/
def typesOf (r : TraversalRequest) : Kind → Json
  | .entity => r.entityTypes
  | .link => r.linkTypes

/-- The filter that a request gives for rows of a kind. -/
def filterOn (r : TraversalRequest) : Kind → Option FilterExpr
  | .entity => r.entityFilter
  | .link => r.linkFilter

/-- The hops that a traversal may cross: what is deleted only if that is included, of types that are
given if any are, on which the filter is true, and that the caller may read. -/
def rule (s : Store) (r : TraversalRequest) : HopRule where
  includeDeleted := r.includeDeleted
  isOfType k type := ∃ ids, (r.typesOf k).givenItems = .ok ids ∧
    (ids = [] ∨ ∃ id ∈ ids, id.columnText? = some type)
  holds k properties := ∀ f, r.filterOn k = some f →
    ∃ c, f.compile (.str k.rowName) = .ok c ∧ c.holdsOn properties = .ok true
  canRead := s.CanRead r.user

/-- What a traversal asks of the hops that it crosses, once its filters are compiled. -/
def request (r : TraversalRequest) : Except Fault HopRequest := do
  let entityFilters ← Store.compileOptional .entity r.entityFilter
  let linkFilters ← Store.compileOptional .link r.linkFilter
  return {
    includeDeleted := r.includeDeleted
    linkTypes := r.linkTypes
    entityTypes := r.entityTypes
    filters := entityFilters ++ linkFilters }

end TraversalRequest

namespace Store

theorem rowName_of_compile {f : FilterExpr} {name : String} {c : CompiledFilter}
    (h : f.compile (.str name) = .ok c) : c.rowName = name := by
  simp only [FilterExpr.compile, bind_eq_ok_iff, pure_eq_ok_iff] at h
  obtain ⟨_, _, condition?, _, rfl⟩ := h
  rw [CompiledFilter.ofJson_str]

theorem compileOptional_eq_ok {k : Kind} {f? : Option FilterExpr} {filters : List CompiledFilter}
    (h : compileOptional k f? = .ok filters) {c : CompiledFilter} :
    c ∈ filters ↔ ∃ f, f? = some f ∧ f.compile (.str k.rowName) = .ok c := by
  rw [compileOptional, mapError_eq_ok_iff] at h
  rw [mem_iff_of_mapM_eq_ok h]
  simp

/-- The filters that are compiled for a traversal, all of which must be true where they speak of
rows of a kind, are the one that it gives for that kind. -/
theorem filters_hold_iff {r : TraversalRequest} {entityFilters linkFilters : List CompiledFilter}
    (hentity : compileOptional .entity r.entityFilter = .ok entityFilters)
    (hlink : compileOptional .link r.linkFilter = .ok linkFilters) {k : Kind}
    {properties : String} :
    (∀ c ∈ entityFilters ++ linkFilters, c.rowName = k.rowName →
        c.holdsOn properties = .ok true) ↔
      ∀ f, r.filterOn k = some f →
        ∃ c, f.compile (.str k.rowName) = .ok c ∧ c.holdsOn properties = .ok true := by
  have hcompiled (l : Kind) {filters : List CompiledFilter}
      (h : compileOptional l (r.filterOn l) = .ok filters) :
      (∀ c ∈ filters, c.rowName = k.rowName → c.holdsOn properties = .ok true) ↔
        l = k → ∀ f, r.filterOn k = some f →
          ∃ c, f.compile (.str k.rowName) = .ok c ∧ c.holdsOn properties = .ok true := by
    constructor
    · rintro hall rfl f hf
      have hsome : (r.filterOn l).toList = [f] := by rw [hf, Option.toList_some]
      have hmap := h
      rw [compileOptional, mapError_eq_ok_iff, hsome] at hmap
      obtain ⟨c, hc, hcompile⟩ := exists_of_mem_of_mapM_eq_ok hmap (List.mem_singleton_self f)
      exact ⟨c, hcompile, hall c hc (rowName_of_compile hcompile)⟩
    · intro hall c hc hname
      obtain ⟨f, hf, hcompile⟩ := (compileOptional_eq_ok h).1 hc
      have hlk : l = k := by
        rw [rowName_of_compile hcompile] at hname
        cases l <;> cases k <;> first | rfl | exact absurd hname (by decide)
      subst hlk
      obtain ⟨c', hcompile', hholds⟩ := hall rfl f hf
      rw [hcompile] at hcompile'
      cases hcompile'
      exact hholds
  rw [List.forall_mem_append, hcompiled .entity hentity, hcompiled .link hlink]
  cases k <;> simp

/-- The hops that a traversal asks for are those that it may cross. -/
theorem rule_of_compiled (s : Store) {r : TraversalRequest}
    {entityFilters linkFilters : List CompiledFilter}
    (hentity : compileOptional .entity r.entityFilter = .ok entityFilters)
    (hlink : compileOptional .link r.linkFilter = .ok linkFilters) :
    HopRequest.rule
        { includeDeleted := r.includeDeleted
          linkTypes := r.linkTypes
          entityTypes := r.entityTypes
          filters := entityFilters ++ linkFilters }
        (s.CanRead r.user) = r.rule s := by
  unfold HopRequest.rule TraversalRequest.rule
  congr 1
  funext k properties
  exact propext (filters_hold_iff hentity hlink)

variable {s : Store} {settings : SearchSettings} {r : TraversalRequest} {t : Traversal}

theorem rule_of_request {request : HopRequest} (h : r.request = .ok request) {cap : Json}
    {access : AclFilter Int} (haccess : s.readFilter r.user cap = .ok access) :
    request.rule access.Lets = r.rule s := by
  simp only [TraversalRequest.request, bind_eq_ok_iff, pure_eq_ok_iff] at h
  obtain ⟨entityFilters, hentity, linkFilters, hlink, rfl⟩ := h
  rw [lets_eq_canRead haccess]
  exact rule_of_compiled s hentity hlink

/-- What a traversal does that may start where it is asked to. -/
theorem traverse_eq_bind (h : s.Versioned .entity) {start : Row .entity} {direction : Direction}
    (hstart : s.Accepts r.user r.includeDeleted r.start start)
    (hdirection : Direction.given? r.direction = .ok (some direction)) :
    s.traverse settings r = do
      let depth ← requestedDepth r.maxDepth settings.traversalDepth
      let request ← r.request
      let record ← start.decode
      let access ← s.readFilter r.user settings.aclCap
      let search ← Search.run (s.readableNeighbors access request) r.allPaths none direction.hops
        depth record
      return ⟨record.id, direction, depth, search.visits, r.allPaths, search.expanded⟩ := by
  unfold traverse TraversalRequest.request
  rw [hdirection, hstart.readable h]
  simp only [ok_bind, bind_assoc, pure_bind]

/-- What a traversal that succeeds does: it compiles, finds its start, and searches. -/
theorem traverse_eq_ok (h : ∀ k, s.Versioned k) (ht : s.traverse settings r = .ok t) :
    Direction.given? r.direction = .ok (some t.direction) ∧
    requestedDepth r.maxDepth settings.traversalDepth = .ok t.maxDepth ∧
    ∃ start record access, s.Accepts r.user r.includeDeleted r.start start ∧
      start.decode = .ok record ∧ t.start = record.id ∧
      s.readFilter r.user settings.aclCap = .ok access ∧
      ∃ (request : HopRequest) (search : Search), r.request = .ok request ∧
        Search.run (s.readableNeighbors access request) r.allPaths none t.direction.hops t.maxDepth
          record = .ok search ∧
        search.visits = t.visits := by
  unfold traverse at ht
  simp only [bind_eq_ok_iff] at ht
  obtain ⟨direction?, hdirection, depth, hdepth, entityFilters, hentity, linkFilters, hlink, record,
    hstart, access, haccess, ht⟩ := ht
  cases direction? with
  | none => cases ht
  | some direction =>
    simp only [bind_eq_ok_iff, pure_eq_ok_iff] at ht
    obtain ⟨search, hsearch, rfl⟩ := ht
    obtain ⟨start, haccepts, hdecode⟩ := (readable_eq_ok_iff (h .entity)).1 hstart
    have hrequest : r.request = .ok ⟨r.includeDeleted, r.linkTypes, r.entityTypes, .deferred,
        entityFilters ++ linkFilters⟩ := by
      simp only [TraversalRequest.request, bind_eq_ok_iff, pure_eq_ok_iff]
      exact ⟨entityFilters, hentity, linkFilters, hlink, rfl⟩
    exact ⟨hdirection, hdepth, start, record, access, haccepts, hdecode, rfl, haccess, _, search,
      hrequest, hsearch, rfl⟩

/-- A traversal that succeeds starts from the latest version of what it was asked about, lists every
entity once, the start first, in order of depth, and lists an entity at a depth exactly if it is the
latest version of what can be reached from the start within the greatest depth and the shortest walk
to it has that many hops. -/
theorem Reachable.traverse_lists_nearest (h : s.Reachable) (ht : s.traverse settings r = .ok t) :
    Direction.given? r.direction = .ok (some t.direction) ∧
    requestedDepth r.maxDepth settings.traversalDepth = .ok t.maxDepth ∧
    ∃ start, s.Accepts r.user r.includeDeleted r.start start ∧ t.start = start.id ∧
      (t.visits.map (·.entity.id)).Nodup ∧
      (∃ first rest, t.visits = first :: rest ∧ start.decode = .ok first.entity ∧
        first.depth = 0) ∧
      (t.visits.Pairwise fun a b => a.depth ≤ b.depth) ∧
      ∀ (e : Record .entity) (n : Nat), (∃ v ∈ t.visits, v.entity = e ∧ v.depth = n) ↔
        n ≤ t.maxDepth ∧ ∃ row ∈ s.rows .entity, row.isLatest = true ∧ row.decode = .ok e ∧
          ∃ path, Walk.IsShortest (s.Crosses (r.rule s) t.direction.hops) start path row ∧
            path.length = n := by
  have hv := h.versioned
  obtain ⟨hdirection, hdepth, start, record, access, haccepts, hdecode, hid, haccess, request,
    search, hrequest, hsearch, hvisits⟩ := traverse_eq_ok hv ht
  have hlists : (s.ground (request.rule access.Lets) t.direction.hops record none).Lists
      (s.readableNeighbors access request) t.direction.hops := lists_ground hv
  have hfinished := Search.Ground.finished_run hlists
    ⟨start, haccepts.entity, haccepts.latest, hdecode⟩ (by exact nofun) hsearch
  rw [rule_of_request hrequest haccess] at hfinished
  rw [id_of_decode hdecode] at hid
  rw [← hvisits]
  refine ⟨hdirection, hdepth, start, haccepts, hid, hfinished.nodup, ?_, hfinished.sorted, ?_⟩
  · obtain ⟨first, rest, hfirst, hentity, hzero⟩ := hfinished.head
    refine ⟨first, rest, hfirst, ?_, hzero⟩
    rw [hentity]
    exact hdecode
  · intro e n
    have hat (row : Row .entity) (hrow : row ∈ s.rows .entity) : search.At row.id n ↔
        n ≤ t.maxDepth ∧ ∃ path, Walk.IsShortest (s.Crosses (r.rule s) t.direction.hops) start path
          row ∧ path.length = n :=
      at_row_iff (hv .entity) haccepts.entity haccepts.latest hdecode hfinished hrow
    constructor
    · rintro ⟨v, hvisit, rfl, rfl⟩
      obtain ⟨row, hrow, hlatest, hrowdecode⟩ := hfinished.known v hvisit
      have hreached := (hat row hrow).1 ⟨v, hvisit, id_of_decode hrowdecode, rfl⟩
      exact ⟨hreached.1, row, hrow, hlatest, hrowdecode, hreached.2⟩
    · rintro ⟨hle, row, hrow, _, hrowdecode, hpath⟩
      obtain ⟨v, hvisit, hvid, hvdepth⟩ := (hat row hrow).2 ⟨hle, hpath⟩
      obtain ⟨row', hrow', _, hrowdecode'⟩ := hfinished.known v hvisit
      have hsame : row' = row :=
        (hv .entity).eq_of_id_eq hrow' hrow ((id_of_decode hrowdecode').symm.trans hvid)
      rw [hsame, hrowdecode] at hrowdecode'
      exact ⟨v, hvisit, (Except.ok.inj hrowdecode').symm, hvdepth⟩

/-- From the note that cites the later version of the other one is one hop away. -/
theorem traversal_of_stale_citation :
    let request : TraversalRequest := { start := .str "a" }
    ∃ t start row path, staleCitation.traverse {} request = .ok t ∧
      t.visits.map (fun v => (v.entity.id, v.depth)) = [("a", 0), ("c", 1)] ∧
      Walk.IsShortest (staleCitation.Crosses (request.rule staleCitation) t.direction.hops)
        start path row ∧ start.id = "a" ∧ row.id = "c" ∧ path.length = 1 := by
  intro request
  have hlisted : (staleCitation.traverse {} request).map
      (fun t => (t.start, t.visits.map fun v => (v.entity.id, v.depth))) =
        .ok ("a", [("a", 0), ("c", 1)]) := by cbv
  cases ht : staleCitation.traverse {} request with
  | error f =>
    rw [ht] at hlisted
    cases hlisted
  | ok t =>
    rw [ht] at hlisted
    injection hlisted with hlisted
    obtain ⟨hstart, hvisits⟩ := Prod.mk.inj hlisted
    obtain ⟨_, _, start, _, hid, _, _, _, hreached⟩ :=
      Reachable.traverse_lists_nearest staleCitation.reachable ht
    have hc : ("c", 1) ∈ t.visits.map (fun v => (v.entity.id, v.depth)) := by simp [hvisits]
    obtain ⟨v, hv, hvc⟩ := List.mem_map.1 hc
    obtain ⟨hvid, hvdepth⟩ := Prod.mk.inj hvc
    obtain ⟨_, row, _, _, hdecode, path, hpath, hlength⟩ :=
      (hreached v.entity 1).1 ⟨v, hv, rfl, hvdepth⟩
    exact ⟨t, start, row, path, rfl, hvisits, hpath, hid.symm.trans hstart,
      (id_of_decode hdecode).symm.trans hvid, hlength⟩

end Store

end VersionedGraph
