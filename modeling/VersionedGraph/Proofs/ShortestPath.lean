import Mathlib
import VersionedGraph.Proofs.Groups
import VersionedGraph.Proofs.Spoiling

/-!
# What shortest paths are

A path that is handed out is a shortest walk from the origin to the target across hops outbound,
and its places are the records of the rows on it. When none is handed out there is no such walk
within the depth, or the caller acts as too many principals, or a latest row that was met cannot
be read; nothing that was found is ever missed when its places are looked up again.
-/

namespace VersionedGraph

/-- The hops that a path may cross: of types that are given if any are, what is deleted only if that
is included, and what the caller may read. -/
def PathRequest.rule (s : Store) (r : PathRequest) : HopRule :=
  HopRequest.rule { includeDeleted := r.includeDeleted, linkTypes := r.linkTypes }
    (s.CanRead r.user)

/-- What a search for a path asks of the hops that it crosses. -/
def PathRequest.request (r : PathRequest) : HopRequest :=
  { includeDeleted := r.includeDeleted, linkTypes := r.linkTypes }

def NeighborRow.place (n : NeighborRow) : Except Fault PathHop := do
  let entity ← n.entity.decode
  let link ← n.link.decode
  return ⟨entity, some link⟩

/-- A path is handed out for a walk: the origin, reached by no link, and then the places that its
hops lead to. -/
structure ShortestPath.Follows (p : ShortestPath) (origin : Row .entity) (walk : List NeighborRow)
    (target : Row .entity) : Prop where
  source : p.source = origin.id
  target : p.target = target.id
  hops : ∃ record places, p.hops = ⟨record, none⟩ :: places ∧ origin.decode = .ok record ∧
    List.Forall₂ (fun n place => n.place = .ok place) walk places

theorem ShortestPath.Follows.length_hops {p : ShortestPath} {origin target : Row .entity}
    {walk : List NeighborRow} (h : p.Follows origin walk target) :
    p.hops.length = walk.length + 1 := by
  obtain ⟨record, places, hhops, _, hplaces⟩ := h.hops
  rw [hhops, List.length_cons, ← hplaces.length_eq]

/-- Something that a search for a path comes across cannot be read: an end of the path, or the
link or the entity of a hop, whoever may read these, from what is reached in fewer hops than the
depth. -/
def PathRequest.Spoiled (s : Store) (r : PathRequest) (origin target : Row .entity) (depth : Nat)
    (f : Fault) : Prop :=
  origin.decode = .error f ∨ target.decode = .error f ∨
    ∃ (walk : List NeighborRow) (u : Row .entity) (n : NeighborRow),
      Walk (s.Crosses (r.rule s) [.outbound]) origin walk u ∧ walk.length < depth ∧
      s.Hop (r.rule s).unguarded .outbound u.id n.link n.entity ∧
      (n.link.decode = .error f ∨ n.entity.decode = .error f)

theorem PathRequest.Spoiled.unreadable {s : Store} {r : PathRequest} {origin target : Row .entity}
    {depth : Nat} {f : Fault} (h : r.Spoiled s origin target depth f) : ∃ e, f = .unreadable e := by
  rcases h with hf | hf | ⟨_, _, _, _, _, _, hf | hf⟩
  all_goals exact Version.exists_of_decode_eq_error hf

namespace Store

variable {s : Store} {rule : HopRule} {directions : List HopDirection} {origin target : Row .entity}
  {walk : List NeighborRow}

theorem hop_of_mem_walk (h : Walk (s.Crosses rule directions) origin walk target) {n : NeighborRow}
    (hn : n ∈ walk) : ∃ before u, Walk (s.Crosses rule directions) origin before u ∧
      before.length < walk.length ∧ ∃ d ∈ directions, s.Hop rule d u.id n.link n.entity := by
  obtain ⟨before, u, _, hbefore, hlt, rfl, hhop⟩ := h.exists_hop_of_mem hn
  exact ⟨before, u, hbefore, hlt, hhop⟩

/-! Looking the places of a path up again. -/

theorem requireEntity_self (h : s.Versioned .entity) {row : Row .entity}
    (hrow : row ∈ s.rows .entity) : (PathLookup.ofStore s).requireEntity row.id = row.decode := by
  unfold PathLookup.requireEntity PathLookup.ofStore
  dsimp only
  rw [h.getExact_self hrow]
  cases row.decode <;> rfl

theorem requireLink_self (h : s.Versioned .link) {row : Row .link} (hrow : row ∈ s.rows .link) :
    (PathLookup.ofStore s).requireLink row.id = row.decode := by
  unfold PathLookup.requireLink PathLookup.ofStore
  dsimp only
  rw [h.getExact_self hrow]
  cases row.decode <;> rfl

theorem hop_step (h : ∀ k, s.Versioned k) {n : NeighborRow} (hlink : n.link ∈ s.rows .link)
    (hentity : n.entity ∈ s.rows .entity) : (PathLookup.ofStore s).hop n.step = n.place := by
  unfold PathLookup.hop NeighborRow.step
  rw [requireEntity_self (h .entity) hentity, requireLink_self (h .link) hlink]
  rfl

theorem decode_eq_error_of_place {n : NeighborRow} {f : Fault} (hf : n.place = .error f) :
    n.link.decode = .error f ∨ n.entity.decode = .error f := by
  rcases bind_eq_error_iff.1 hf with hf | ⟨_, _, hf⟩
  · exact .inr hf
  · rcases bind_eq_error_iff.1 hf with hf | ⟨_, _, hf⟩
    · exact .inl hf
    · cases hf

/-! The search for the target. -/

theorem nodup_of_isShortest (h : s.Versioned .entity) (horigin : origin ∈ s.rows .entity)
    (hlatest : origin.isLatest = true)
    (hwalk : Walk.IsShortest (s.Crosses rule directions) origin walk target) :
    (origin.id :: walk.map (·.entity.id)).Nodup := by
  have hground : Walk.IsShortest (s.ground rule directions (origin.withProperties .null) none).hop
      origin.id (walk.map NeighborRow.step) target.id :=
    (isShortest_ground_iff h horigin hlatest).2 ⟨walk, target, hwalk, rfl, rfl⟩
  have hnodup : (origin.id :: (walk.map NeighborRow.step).map Step.entity).Nodup := by
    refine hground.nodup ?_
    rintro _ _ _ ⟨n, _, rfl, rfl⟩
    rfl
  rw [List.map_map] at hnodup
  exact hnodup

theorem rule_lets {r : PathRequest} {cap : Json} {access : AclFilter Int}
    (haccess : s.readFilter r.user cap = .ok access) :
    r.request.rule access.Lets = r.rule s := by
  rw [lets_eq_canRead haccess]
  rfl

variable {settings : SearchSettings} {r : PathRequest} {depth : Nat}

theorem lists_path (h : ∀ k, s.Versioned k) {access : AclFilter Int}
    (haccess : s.readFilter r.user settings.aclCap = .ok access) {record : Record .entity}
    {goal : Option String} : (s.ground (r.rule s) [.outbound] record goal).Lists
      (s.readableNeighbors access r.request) [.outbound] := by
  rw [← rule_lets haccess]
  exact lists_ground h

/-- What a search for a path does between two ends that the caller may read. -/
theorem shortestPath_eq_bind (h : s.Versioned .entity)
    (hdepth : requestedDepth r.maxDepth settings.shortestPathDepth = .ok depth)
    (horigin : s.Accepts r.user r.includeDeleted r.source origin)
    (htarget : s.Accepts r.user r.includeDeleted r.target target) (lookup : PathLookup) :
    s.shortestPath settings lookup r = do
      let first ← origin.decode
      let last ← target.decode
      if first.id = last.id then return ⟨first.id, last.id, [⟨first, none⟩], []⟩
      else
        let access ← s.readFilter r.user settings.aclCap
        let search ← Search.run (s.readableNeighbors access r.request) false (some last.id)
          [.outbound] depth first
        match search.firstPath? last.id with
        | none => .error (.noPath first.id last.id depth)
        | some steps => do
          let first' ← lookup.requireEntity first.id
          let rest ← steps.mapM lookup.hop
          return ⟨first.id, last.id, ⟨first', none⟩ :: rest, search.expanded⟩ := by
  unfold shortestPath
  rw [hdepth, horigin.readable h, htarget.readable h]
  rfl

/-- A search that ends well has found a shortest walk to the target, or there is none within the
depth. -/
theorem firstPath_cases (h : ∀ k, s.Versioned k) {access : AclFilter Int}
    (haccess : s.readFilter r.user settings.aclCap = .ok access) (horigin : origin ∈ s.rows .entity)
    (hlatest : origin.isLatest = true) {record : Record .entity}
    (hdecode : origin.decode = .ok record)
    (htarget : target ∈ s.rows .entity) (hdiffer : record.id ≠ target.id) {search : Search}
    (hsearch : Search.run (s.readableNeighbors access r.request) false (some target.id) [.outbound]
      depth record = .ok search) :
    (∃ walk, search.firstPath? target.id = some (walk.map NeighborRow.step) ∧
      Walk.IsShortest (s.Crosses (r.rule s) [.outbound]) origin walk target ∧ walk.length ≤ depth) ∨
    (search.firstPath? target.id = none ∧
      ∀ walk, Walk (s.Crosses (r.rule s) [.outbound]) origin walk target →
        depth < walk.length) := by
  have hpaths := (Search.Ground.finished_run (lists_path h haccess)
    ⟨origin, horigin, hlatest, hdecode⟩
    (fun hsome => hdiffer (Option.some.inj hsome).symm) hsearch).firstPath_spec rfl
  have hstart : (s.ground (r.rule s) [.outbound] record (some target.id)).start.id = origin.id :=
    id_of_decode hdecode
  rw [hstart] at hpaths
  cases hfirst : search.firstPath? target.id with
  | none =>
    refine .inr ⟨rfl, fun walk hwalk => ?_⟩
    have hlt := hpaths.2 hfirst _ (walk_ground_iff.2 ⟨walk, target, hwalk, rfl, rfl⟩)
    rw [List.length_map] at hlt
    exact hlt
  | some steps =>
    obtain ⟨hshortest, hle⟩ := hpaths.1 steps hfirst
    obtain ⟨walk, v, hwalk, rfl, hid⟩ :=
      (isShortest_ground_iff (h .entity) horigin hlatest).1 hshortest
    have hv := latest_of_walk horigin hlatest hwalk.walk
    rw [(h .entity).eq_of_id_eq hv.1 htarget hid] at hwalk
    rw [List.length_map] at hle
    exact .inl ⟨walk, rfl, hwalk, hle⟩

/-- What is handed out is handed out between two ends that the caller may read. -/
theorem ends_of_shortestPath (h : s.Versioned .entity) {lookup : PathLookup} {p : ShortestPath}
    (hp : s.shortestPath settings lookup r = .ok p) :
    ∃ depth origin originRecord target targetRecord,
      requestedDepth r.maxDepth settings.shortestPathDepth = .ok depth ∧
      s.Accepts r.user r.includeDeleted r.source origin ∧ origin.decode = .ok originRecord ∧
      s.Accepts r.user r.includeDeleted r.target target ∧ target.decode = .ok targetRecord := by
  unfold shortestPath at hp
  simp only [bind_eq_ok_iff] at hp
  obtain ⟨depth, hdepth, originRecord, horigin, targetRecord, htarget, _⟩ := hp
  obtain ⟨origin, horigin, horiginDecode⟩ := (readable_eq_ok_iff h).1 horigin
  obtain ⟨target, htarget, htargetDecode⟩ := (readable_eq_ok_iff h).1 htarget
  exact ⟨depth, origin, originRecord, target, targetRecord, hdepth, horigin, horiginDecode, htarget,
    htargetDecode⟩

/-- Nothing is handed out between two ends for a request that cannot be asked. -/
theorem shortestPath_ne_ok (h : s.Versioned .entity)
    (horigin : s.Accepts r.user r.includeDeleted r.source origin)
    (htarget : s.Accepts r.user r.includeDeleted r.target target)
    (hdepth : requestedDepth r.maxDepth settings.shortestPathDepth = .ok depth)
    (hdiffer : origin.id ≠ target.id) (hpos : 0 < depth) {f : Fault}
    (hrefused : r.request.prepare origin.id = .error f) {lookup : PathLookup} (p : ShortestPath) :
    s.shortestPath settings lookup r ≠ .ok p := by
  intro hp
  rw [shortestPath_eq_bind h hdepth horigin htarget] at hp
  simp only [bind_eq_ok_iff] at hp
  obtain ⟨originRecord, horiginDecode, targetRecord, htargetDecode, hp⟩ := hp
  rw [id_of_decode horiginDecode, id_of_decode htargetDecode, if_neg hdiffer] at hp
  simp only [bind_eq_ok_iff] at hp
  obtain ⟨access, _, search, hsearch, _⟩ := hp
  rw [run_of_prepare_eq_error hrefused hpos (List.cons_ne_nil _ _)] at hsearch
  cases hsearch

/-- What is handed out between two ends follows a shortest walk between them. -/
theorem shortestPath_eq_ok (h : ∀ k, s.Versioned k)
    (hdepth : requestedDepth r.maxDepth settings.shortestPathDepth = .ok depth)
    (horigin : s.Accepts r.user r.includeDeleted r.source origin)
    (htarget : s.Accepts r.user r.includeDeleted r.target target) {p : ShortestPath}
    (hp : s.shortestPath settings (.ofStore s) r = .ok p) :
    ∃ walk, Walk.IsShortest (s.Crosses (r.rule s) [.outbound]) origin walk target ∧
      walk.length ≤ depth ∧ p.Follows origin walk target := by
  rw [shortestPath_eq_bind (h .entity) hdepth horigin htarget] at hp
  simp only [bind_eq_ok_iff] at hp
  obtain ⟨originRecord, horiginDecode, targetRecord, htargetDecode, hp⟩ := hp
  have horiginId := id_of_decode horiginDecode
  rw [id_of_decode htargetDecode] at hp
  split at hp
  · next hsame =>
    cases hp
    have heq := (h .entity).eq_of_id_eq horigin.entity htarget.entity (horiginId.symm.trans hsame)
    subst heq
    refine ⟨[], ⟨.here _, fun _ _ => Nat.zero_le _⟩, Nat.zero_le _, horiginId, rfl, ?_⟩
    exact ⟨originRecord, [], rfl, horiginDecode, .nil⟩
  · next hdiffer =>
    simp only [bind_eq_ok_iff] at hp
    obtain ⟨access, haccess, search, hsearch, hp⟩ := hp
    rcases firstPath_cases h haccess horigin.entity horigin.latest horiginDecode htarget.entity
      hdiffer hsearch with ⟨walk, hfirst, hwalk, hle⟩ | ⟨hfirst, _⟩
    · rw [hfirst] at hp
      simp only [bind_eq_ok_iff, pure_eq_ok_iff] at hp
      obtain ⟨first, hrecord, places, hplaces, rfl⟩ := hp
      rw [horiginId, requireEntity_self (h .entity) horigin.entity] at hrecord
      refine ⟨walk, hwalk, hle, horiginId, rfl, first, places, rfl, hrecord, ?_⟩
      rw [mapM_eq_ok_iff, List.forall₂_map_left_iff] at hplaces
      refine ((List.forall₂_and_left _ _).2 ⟨fun _ hn => hn, hplaces⟩).imp ?_
      rintro n place ⟨hn, hplace⟩
      obtain ⟨_, _, _, _, _, _, hhop⟩ := hop_of_mem_walk hwalk.walk hn
      rw [← hop_step h hhop.link hhop.entity]
      exact hplace
    · rw [hfirst] at hp
      cases hp

/-- Where the search fails, its request cannot be asked or the neighbors of what it reached are
spoiled. -/
theorem spoiled_of_search (h : ∀ k, s.Versioned k) {access : AclFilter Int}
    (haccess : s.readFilter r.user settings.aclCap = .ok access)
    (horigin : origin ∈ s.rows .entity) (hlatest : origin.isLatest = true) {record : Record .entity}
    (hdecode : origin.decode = .ok record) {goal : String} (hgoal : record.id ≠ goal) {f : Fault}
    (hf : Search.run (s.readableNeighbors access r.request) false (some goal) [.outbound] depth
      record = .error f) :
    (0 < depth ∧ r.request.prepare origin.id = .error f) ∨ r.Spoiled s origin target depth f := by
  have hdiffer : some goal ≠ some record.id := fun hsome => hgoal (Option.some.inj hsome).symm
  rcases spoiledFrom_of_run h horigin hlatest hdecode hdiffer hf with
    hrefused | ⟨walk, u, hcrossed, hlt, d, hd, hspoils⟩
  · exact .inl hrefused
  · rw [rule_lets haccess] at hcrossed hspoils
    rw [List.mem_singleton.1 hd] at hspoils
    cases hspoils with
    | link _ fails => exact absurd rfl fails.evaluation.1
    | entity _ _ fails => exact absurd rfl fails.evaluation.1
    | unreadable hop fails =>
      exact .inr (.inr (.inr ⟨walk, u, _, hcrossed, hlt, hop, NeighborRow.decode_eq_error fails⟩))

/-- A request for types that are texts can be asked. -/
theorem exists_prepare_of_texts {types : List String}
    (htypes : r.linkTypes.givenItems = .ok (types.map fun t : String => .str t)) (id : String) :
    ∃ q, r.request.prepare id = .ok q := by
  have hquery : r.request.query =
      .ok ⟨r.includeDeleted, types.map fun t : String => .str t, [], .deferred, []⟩ := by
    simp [PathRequest.request, HopRequest.query, htypes, pure, Except.pure]
  have hhanded := Json.handOver_texts (id :: types) 1
  unfold HopRequest.prepare
  rw [hquery, mapError_ok, ok_bind]
  refine ⟨_, bind_eq_ok_iff.2 ⟨⟨⟩, rfl, bind_eq_ok_iff.2 ⟨(), ?_, rfl⟩⟩⟩
  simpa using hhanded

/-- Where places cannot be looked up again, a hop on the way is spoiled. -/
theorem spoiled_of_places (h : ∀ k, s.Versioned k)
    (hwalk : Walk (s.Crosses (r.rule s) [.outbound]) origin walk target) (hle : walk.length ≤ depth)
    {goal : Row .entity} {f : Fault}
    (hf : (walk.map NeighborRow.step).mapM (PathLookup.ofStore s).hop = .error f) :
    r.Spoiled s origin goal depth f := by
  obtain ⟨step, hstep, hf⟩ := exists_mem_of_mapM_eq_error hf
  obtain ⟨n, hn, rfl⟩ := List.mem_map.1 hstep
  obtain ⟨before, u, hbefore, hlt, d, hd, hhop⟩ := hop_of_mem_walk hwalk hn
  rw [List.mem_singleton.1 hd] at hhop
  rw [hop_step h hhop.link hhop.entity] at hf
  exact .inr (.inr ⟨before, u, n, hbefore, Nat.lt_of_lt_of_le hlt hle, hhop.unguarded,
    decode_eq_error_of_place hf⟩)

/-- When nothing is handed out there is no walk within the depth, or access cannot be settled, or
the search has a request that cannot be asked, or something cannot be read. -/
theorem shortestPath_eq_error (h : ∀ k, s.Versioned k)
    (hdepth : requestedDepth r.maxDepth settings.shortestPathDepth = .ok depth)
    (horigin : s.Accepts r.user r.includeDeleted r.source origin)
    (htarget : s.Accepts r.user r.includeDeleted r.target target) {f : Fault}
    (hf : s.shortestPath settings (.ofStore s) r = .error f) :
    (f = .noPath origin.id target.id depth ∧
      ∀ walk, Walk (s.Crosses (r.rule s) [.outbound]) origin walk target → depth < walk.length) ∨
    s.readFilter r.user settings.aclCap = .error f ∨
    (origin.id ≠ target.id ∧ 0 < depth ∧ r.request.prepare origin.id = .error f) ∨
    r.Spoiled s origin target depth f := by
  rw [shortestPath_eq_bind (h .entity) hdepth horigin htarget] at hf
  rcases bind_eq_error_iff.1 hf with hf | ⟨originRecord, horiginDecode, hrest⟩
  · exact .inr (.inr (.inr (.inl hf)))
  rcases bind_eq_error_iff.1 hrest with hf | ⟨targetRecord, htargetDecode, hrest⟩
  · exact .inr (.inr (.inr (.inr (.inl hf))))
  have horiginId := id_of_decode horiginDecode
  rw [id_of_decode htargetDecode] at hrest
  split at hrest
  · cases hrest
  · next hdiffer =>
    rcases bind_eq_error_iff.1 hrest with hf | ⟨access, haccess, hrest⟩
    · exact .inr (.inl hf)
    rcases bind_eq_error_iff.1 hrest with hf | ⟨search, hsearch, hrest⟩
    · rcases spoiled_of_search h haccess horigin.entity horigin.latest horiginDecode hdiffer hf with
        hrefused | hspoiled
      · rw [horiginId] at hdiffer
        exact .inr (.inr (.inl ⟨hdiffer, hrefused⟩))
      · exact .inr (.inr (.inr hspoiled))
    rcases firstPath_cases h haccess horigin.entity horigin.latest horiginDecode htarget.entity
      hdiffer hsearch with ⟨walk, hfirst, hwalk, hle⟩ | ⟨hfirst, hnone⟩
    · rw [hfirst, horiginId] at hrest
      rcases bind_eq_error_iff.1 hrest with hf | ⟨_, _, hrest⟩
      · rw [requireEntity_self (h .entity) horigin.entity] at hf
        exact .inr (.inr (.inr (.inl hf)))
      rcases bind_eq_error_iff.1 hrest with hf | ⟨_, _, hrest⟩
      · exact .inr (.inr (.inr (spoiled_of_places h hwalk.walk hle hf)))
      · cases hrest
    · rw [hfirst, horiginId] at hrest
      cases hrest
      exact .inl ⟨rfl, hnone⟩

end Store

end VersionedGraph
