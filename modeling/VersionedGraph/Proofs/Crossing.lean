import VersionedGraph.Graph.Traversal
import VersionedGraph.Proofs.Access
import VersionedGraph.Proofs.Breadth
import VersionedGraph.Proofs.Neighbors
import VersionedGraph.Proofs.Record

/-!
# What searches of a store cross

A search crosses the hops by the rule of its request whose link and entity the caller may read,
whether that is part of the query or looked at afterwards. So a search of a store is over the ground
of these hops, and walks between ids are walks between latest rows (`Store.Crosses`).
-/

namespace VersionedGraph

namespace HopRequest

def typesOf (r : HopRequest) : Kind → Json
  | .entity => r.entityTypes
  | .link => r.linkTypes

/-- The rule that a request comes to, given which access lists may be read. -/
def rule (r : HopRequest) (canRead : Option Int → Prop) : HopRule where
  includeDeleted := r.includeDeleted
  isOfType k type := ∃ ids, (r.typesOf k).givenItems = .ok ids ∧
    (ids = [] ∨ ∃ id ∈ ids, id.columnText? = some type)
  holds k properties := ∀ c ∈ r.filters, c.rowName = k.rowName → c.holdsOn properties = .ok true
  canRead := canRead

end HopRequest

def NeighborRow.step (n : NeighborRow) : Step :=
  ⟨n.link.id, n.entity.id⟩

namespace NeighborRow

theorem decode_eq_ok_iff {row : NeighborRow} {n : Neighbor} :
    row.decode = .ok n ↔ row.link.decode = .ok n.link ∧ row.entity.decode = .ok n.entity := by
  simp only [decode, bind_eq_ok_iff, pure_eq_ok_iff]
  constructor
  · rintro ⟨link, hlink, entity, hentity, rfl⟩
    exact ⟨hlink, hentity⟩
  · rintro ⟨hlink, hentity⟩
    exact ⟨n.link, hlink, n.entity, hentity, rfl⟩

theorem decode_eq_error {row : NeighborRow} {f : Fault} (h : row.decode = .error f) :
    row.link.decode = .error f ∨ row.entity.decode = .error f := by
  rcases bind_eq_error_iff.1 h with hlink | ⟨_, _, h⟩
  · exact .inl hlink
  · rcases bind_eq_error_iff.1 h with hentity | ⟨_, _, h⟩
    · exact .inr hentity
    · cases h

theorem step_of_decode {row : NeighborRow} {n : Neighbor} (h : row.decode = .ok n) :
    n.step = row.step ∧ n.entity.id = row.entity.id := by
  obtain ⟨hlink, hentity⟩ := decode_eq_ok_iff.1 h
  obtain ⟨_, _, hl⟩ := Version.decode_eq_ok_iff.1 hlink
  obtain ⟨_, _, he⟩ := Version.decode_eq_ok_iff.1 hentity
  unfold Neighbor.step step
  rw [← hl, ← he]
  exact ⟨rfl, rfl⟩

theorem acl_of_decode {row : NeighborRow} {n : Neighbor} (h : row.decode = .ok n) :
    n.link.acl = row.link.acl ∧ n.entity.acl = row.entity.acl := by
  obtain ⟨hlink, hentity⟩ := decode_eq_ok_iff.1 h
  obtain ⟨_, _, hl⟩ := Version.decode_eq_ok_iff.1 hlink
  obtain ⟨_, _, he⟩ := Version.decode_eq_ok_iff.1 hentity
  rw [← hl, ← he]
  exact ⟨rfl, rfl⟩

end NeighborRow

namespace Store

/-- A hop in one of some directions leads from one entity to another. -/
def Crosses (s : Store) (rule : HopRule) (directions : List HopDirection) (u : Row .entity)
    (n : NeighborRow) (v : Row .entity) : Prop :=
  n.entity = v ∧ ∃ d ∈ directions, s.Hop rule d u.id n.link v

variable {s : Store} {access : AclFilter Int} {r : HopRequest} {d : HopDirection} {u : Row .entity}
  {ns : List Neighbor}

/-- A query with a clause is followed by what the clause leaves to be looked at. -/
theorem readableNeighbors_eq_ok_iff {id : String} :
    s.readableNeighbors access r d id = .ok ns ↔
      ∃ found, s.neighbors d (.str id) { r with access := access.clause } = .ok found ∧
        ns = found.filter fun n => access.clause.isInline ||
          Acl.isReadable access.accessible n.link.acl &&
            Acl.isReadable access.accessible n.entity.acl := by
  unfold readableNeighbors
  rw [bind_eq_ok_iff]
  refine exists_congr fun found => and_congr_right fun _ => ?_
  rw [eq_comm]
  cases access.clause.isInline with
  | true => simp [pure, Except.pure]
  | false => simp [Acl.keepReadable, List.filter_filter, Bool.and_comm, pure, Except.pure]

/-- The rule of a query is that of its request, except that its clause says what may be read. -/
theorem rule_of_query {clause : AclClause Int} {q : HopQuery}
    (hq : HopRequest.query { r with access := clause } = .ok q) :
    q.rule = r.rule fun acl => clause.permits acl = true := by
  simp only [HopRequest.query, bind_eq_ok_iff, pure_eq_ok_iff] at hq
  obtain ⟨linkTypes, hlink, entityTypes, hentity, rfl⟩ := hq
  unfold HopQuery.rule HopRequest.rule
  congr 1
  funext k type
  cases k with
  | entity => simp [HopRequest.typesOf, HopQuery.typesOf, hentity]
  | link => simp [HopRequest.typesOf, HopQuery.typesOf, hlink]

/-- The rule of a query with a clause together with what the clause leaves to be looked at. -/
theorem admits_lets_iff {q : HopQuery} {k : Kind} {row : Row k}
    (hq : HopRequest.query { r with access := access.clause } = .ok q) :
    (r.rule access.Lets).Admits row ↔ q.rule.Admits row ∧
      (access.clause.isInline || Acl.isReadable access.accessible row.acl) = true := by
  rw [rule_of_query hq]
  have hleft : (access.clause.isInline || Acl.isReadable access.accessible row.acl) = true ↔
      (access.clause.isInline = false → Acl.isReadable access.accessible row.acl = true) := by
    cases access.clause.isInline <;> simp
  rw [hleft]
  constructor
  · rintro ⟨hdeleted, htype, hholds, hclause, hrest⟩
    exact ⟨⟨hdeleted, htype, hholds, hclause⟩, hrest⟩
  · rintro ⟨⟨hdeleted, htype, hholds, hclause⟩, hrest⟩
    exact ⟨hdeleted, htype, hholds, hclause, hrest⟩

/-- What a search is given for a latest entity are the records of its hops by the rule of the
request that the caller may read. -/
theorem readableNeighbors_spec (h : ∀ k, s.Versioned k) (hu : u ∈ s.rows .entity)
    (hlatest : u.isLatest = true) (hns : s.readableNeighbors access r d u.id = .ok ns) :
    (∀ n ∈ ns, ∃ row : NeighborRow, row.decode = .ok n ∧
      s.Hop (r.rule access.Lets) d u.id row.link row.entity) ∧
    ∀ row : NeighborRow, s.Hop (r.rule access.Lets) d u.id row.link row.entity →
      ∃ n ∈ ns, row.decode = .ok n := by
  obtain ⟨found, hfound, rfl⟩ := readableNeighbors_eq_ok_iff.1 hns
  obtain ⟨q, hasks, rows, hrows, hdecode⟩ := neighbors_eq_ok_iff.1 hfound
  obtain ⟨hmem, _, _⟩ := selectHops_spec h hu hlatest hrows
  have hhop (row : NeighborRow) : s.Hop (r.rule access.Lets) d u.id row.link row.entity ↔
      row ∈ rows ∧ (access.clause.isInline || Acl.isReadable access.accessible row.link.acl &&
        Acl.isReadable access.accessible row.entity.acl) = true := by
    rw [hmem, Bool.or_and_distrib_left, Bool.and_eq_true]
    constructor
    · rintro ⟨hl, hllatest, hnear, hv, hvlatest, hfar, hlink, hentity⟩
      obtain ⟨hlink, hlread⟩ := (admits_lets_iff hasks.query).1 hlink
      obtain ⟨hentity, heread⟩ := (admits_lets_iff hasks.query).1 hentity
      exact ⟨⟨hl, hllatest, hnear, hv, hvlatest, hfar, hlink, hentity⟩, hlread, heread⟩
    · rintro ⟨⟨hl, hllatest, hnear, hv, hvlatest, hfar, hlink, hentity⟩, hlread, heread⟩
      exact ⟨hl, hllatest, hnear, hv, hvlatest, hfar,
        (admits_lets_iff hasks.query).2 ⟨hlink, hlread⟩,
        (admits_lets_iff hasks.query).2 ⟨hentity, heread⟩⟩
  constructor
  · intro n hn
    obtain ⟨hn, hread⟩ := List.mem_filter.1 hn
    obtain ⟨row, hrow, hn⟩ := (mem_iff_of_mapM_eq_ok hdecode).1 hn
    obtain ⟨hlacl, heacl⟩ := NeighborRow.acl_of_decode hn
    rw [hlacl, heacl] at hread
    exact ⟨row, hn, (hhop row).2 ⟨hrow, hread⟩⟩
  · intro row hrow
    obtain ⟨hrow, hread⟩ := (hhop row).1 hrow
    obtain ⟨n, hn, hdecoded⟩ := exists_of_mem_of_mapM_eq_ok hdecode hrow
    obtain ⟨hlacl, heacl⟩ := NeighborRow.acl_of_decode hdecoded
    rw [← hlacl, ← heacl] at hread
    exact ⟨n, List.mem_filter.2 ⟨hn, hread⟩, hdecoded⟩

/-! Hops between rows and hops between ids. -/

def ground (s : Store) (rule : HopRule) (directions : List HopDirection) (start : Record .entity)
    (goal : Option String) : Search.Ground where
  known e := ∃ u ∈ s.rows .entity, u.isLatest = true ∧ u.decode = .ok e
  hop id step id' := ∃ row : NeighborRow, (∃ d ∈ directions, s.Hop rule d id row.link row.entity) ∧
    row.step = step ∧ row.entity.id = id'
  start := start
  goal := goal

theorem id_of_decode {k : Kind} {row : Row k} {record : Record k} (h : row.decode = .ok record) :
    record.id = row.id := by
  obtain ⟨_, _, hrecord⟩ := Version.decode_eq_ok_iff.1 h
  rw [← hrecord, Version.withProperties_id]

variable {rule : HopRule} {directions : List HopDirection} {record : Record .entity}
  {goal : Option String} {start v w : Row .entity} {path : List NeighborRow}

theorem lists_ground (h : ∀ k, s.Versioned k) :
    (s.ground (r.rule access.Lets) directions record goal).Lists (s.readableNeighbors access r)
      directions := by
  refine ⟨?_, ?_, ?_⟩
  · rintro d _ e ⟨u, hu, hlatest, he⟩ ns hns n hn
    rw [id_of_decode he] at hns
    obtain ⟨row, hdecode, hhop⟩ := (readableNeighbors_spec h hu hlatest hns).1 n hn
    exact ⟨row.entity, hhop.entity, hhop.entityLatest, (NeighborRow.decode_eq_ok_iff.1 hdecode).2⟩
  · rintro d hd e ⟨u, hu, hlatest, he⟩ ns hns n hn
    rw [id_of_decode he] at hns ⊢
    obtain ⟨row, hdecode, hhop⟩ := (readableNeighbors_spec h hu hlatest hns).1 n hn
    obtain ⟨hstep, hid⟩ := NeighborRow.step_of_decode hdecode
    exact ⟨row, ⟨d, hd, hhop⟩, hstep.symm, hid.symm⟩
  · rintro e ⟨u, hu, hlatest, he⟩ step id ⟨row, ⟨d, hd, hhop⟩, rfl, rfl⟩
    rw [id_of_decode he] at hhop ⊢
    refine ⟨d, hd, fun ns hns => ?_⟩
    obtain ⟨n, hn, hdecode⟩ := (readableNeighbors_spec h hu hlatest hns).2 row hhop
    exact ⟨n, hn, NeighborRow.step_of_decode hdecode⟩

theorem latest_of_walk (hstart : start ∈ s.rows .entity) (hlatest : start.isLatest = true)
    (h : Walk (s.Crosses rule directions) start path v) :
    v ∈ s.rows .entity ∧ v.isLatest = true := by
  cases h with
  | here => exact ⟨hstart, hlatest⟩
  | onward _ last =>
    obtain ⟨_, _, _, hhop⟩ := last
    exact ⟨hhop.entity, hhop.entityLatest⟩

theorem walk_ground_iff {steps : List Step} {id : String} :
    Walk (s.ground rule directions record goal).hop start.id steps id ↔
      ∃ path v, Walk (s.Crosses rule directions) start path v ∧
        path.map NeighborRow.step = steps ∧ v.id = id := by
  constructor
  · intro h
    induction h with
    | here => exact ⟨[], start, .here start, rfl, rfl⟩
    | onward _ last ih =>
      obtain ⟨path, v, hwalk, rfl, rfl⟩ := ih
      obtain ⟨row, hhop, rfl, rfl⟩ := last
      exact ⟨path ++ [row], row.entity, .onward hwalk ⟨rfl, hhop⟩, List.map_append, rfl⟩
  · rintro ⟨path, v, hwalk, rfl, rfl⟩
    refine hwalk.map Version.id NeighborRow.step ?_
    rintro u row _ ⟨rfl, hhop⟩
    exact ⟨row, hhop, rfl, rfl⟩

theorem isShortest_ground_iff (h : s.Versioned .entity) (hstart : start ∈ s.rows .entity)
    (hlatest : start.isLatest = true) {steps : List Step} {id : String} :
    Walk.IsShortest (s.ground rule directions record goal).hop start.id steps id ↔
      ∃ path v, Walk.IsShortest (s.Crosses rule directions) start path v ∧
        path.map NeighborRow.step = steps ∧ v.id = id := by
  constructor
  · rintro ⟨hids, hleast⟩
    obtain ⟨path, v, hwalk, rfl, rfl⟩ := walk_ground_iff.1 hids
    refine ⟨path, v, ⟨hwalk, fun other hother => ?_⟩, rfl, rfl⟩
    have hle := hleast _ (walk_ground_iff.2 ⟨other, v, hother, rfl, rfl⟩)
    rw [List.length_map, List.length_map] at hle
    exact hle
  · rintro ⟨path, v, ⟨hwalk, hleast⟩, rfl, rfl⟩
    refine ⟨walk_ground_iff.2 ⟨path, v, hwalk, rfl, rfl⟩, fun other hother => ?_⟩
    obtain ⟨path', w, hwalk', rfl, hid⟩ := walk_ground_iff.1 hother
    have heq : w = v := h.eq_of_id_eq (latest_of_walk hstart hlatest hwalk').1
      (latest_of_walk hstart hlatest hwalk).1 hid
    rw [List.length_map, List.length_map]
    rw [heq] at hwalk'
    exact hleast path' hwalk'

/-- A search for nothing in particular reaches a row at the length of a shortest walk to it. -/
theorem at_row_iff (h : s.Versioned .entity) (hstart : start ∈ s.rows .entity)
    (hlatest : start.isLatest = true) (hdecode : start.decode = .ok record) {maxDepth n : Nat}
    {search : Search} (hfinished : (s.ground rule directions record none).Finished maxDepth search)
    {row : Row .entity} (hrow : row ∈ s.rows .entity) :
    search.At row.id n ↔ n ≤ maxDepth ∧
      ∃ path, Walk.IsShortest (s.Crosses rule directions) start path row ∧ path.length = n := by
  have hfound : search.found = false := by
    rw [← Bool.not_eq_true, hfinished.found]
    rintro ⟨_, _, hgoal⟩
    cases hgoal
  rw [hfinished.at_iff hfound]
  refine and_congr_right fun _ => ?_
  change (∃ steps, Walk.IsShortest _ record.id steps row.id ∧ _) ↔ _
  rw [id_of_decode hdecode]
  constructor
  · rintro ⟨steps, hsteps, rfl⟩
    obtain ⟨path, v, hpath, rfl, hid⟩ := (isShortest_ground_iff h hstart hlatest).1 hsteps
    rw [h.eq_of_id_eq (latest_of_walk hstart hlatest hpath.walk).1 hrow hid] at hpath
    exact ⟨path, hpath, (List.length_map _).symm⟩
  · rintro ⟨path, hpath, rfl⟩
    exact ⟨_, (isShortest_ground_iff h hstart hlatest).2 ⟨path, row, hpath, rfl, rfl⟩,
      List.length_map _⟩

/-! Where searches start from and lead to. -/

/-- The latest version of what an id names is one that a caller can start from or ask for. -/
structure Accepts (s : Store) (user : Json) (includeDeleted : Bool) (id : Json)
    (row : Row .entity) : Prop where
  named : ∃ text, id.lookupText = .ok (some text) ∧ s.SameChain .entity text row.id
  entity : row ∈ s.rows .entity
  latest : row.isLatest = true
  deleted : includeDeleted = true ∨ row.isDeleted = false
  canRead : s.CanRead user row.acl

theorem checkAccess_eq_ok_iff {user acl id : Json} {permission : Permission} :
    s.checkAccess user acl id permission = .ok () ↔
      s.hasPermission user acl permission = .ok true := by
  unfold checkAccess
  rw [bind_eq_ok_iff]
  constructor
  · rintro ⟨allowed, hallowed, h⟩
    cases allowed with
    | true => exact hallowed
    | false => cases h
  · intro h
    exact ⟨true, h, rfl⟩

/-- The latest version of what an id names is read, and then access to it is checked. -/
theorem readable_of_latest (h : s.Versioned .entity) {user id : Json} {includeDeleted : Bool}
    {row : Row .entity}
    (hnamed : ∃ text, id.lookupText = .ok (some text) ∧ s.SameChain .entity text row.id)
    (hrow : row ∈ s.rows .entity) (hlatest : row.isLatest = true)
    (hdeleted : includeDeleted = true ∨ row.isDeleted = false) :
    s.readable user includeDeleted id = row.decode >>= fun record =>
      s.checkAccess user (.ofInt? row.acl) id .read >>= fun _ => .ok record := by
  obtain ⟨text, htext, hchain⟩ := hnamed
  unfold Store.readable
  rw [getLatest_of_latest? htext (h.latest?_eq_some_iff.2 ⟨hrow, hlatest, hchain⟩)]
  cases hdecode : row.decode with
  | error f => rfl
  | ok record =>
    obtain ⟨properties, _, rfl⟩ := Version.decode_eq_ok_iff.1 hdecode
    have hkept : (row.isDeleted && !includeDeleted) = false := by
      rcases hdeleted with hdeleted | hdeleted <;> simp [hdeleted]
    change (if (row.isDeleted && !includeDeleted) = true then _ else _) = _
    rw [hkept, if_neg Bool.false_ne_true]
    rfl

/-- What is accepted is read, and that is all that can go wrong with it. -/
theorem Accepts.readable (h : s.Versioned .entity) {user id : Json} {includeDeleted : Bool}
    {row : Row .entity} (haccepts : s.Accepts user includeDeleted id row) :
    s.readable user includeDeleted id = row.decode := by
  rw [readable_of_latest h haccepts.named haccepts.entity haccepts.latest haccepts.deleted,
    checkAccess_eq_ok_iff.2 haccepts.canRead]
  cases row.decode <;> rfl

/-- One row is accepted for an id. -/
theorem Accepts.eq (h : s.Versioned .entity) {user id : Json} {includeDeleted : Bool}
    {row row' : Row .entity} (haccepts : s.Accepts user includeDeleted id row)
    (haccepts' : s.Accepts user includeDeleted id row') : row = row' := by
  obtain ⟨text, htext, hchain⟩ := haccepts.named
  obtain ⟨text', htext', hchain'⟩ := haccepts'.named
  rw [htext] at htext'
  cases htext'
  exact h.eq_of_isLatest haccepts.entity haccepts'.entity haccepts.latest haccepts'.latest
    (.trans _ _ _ hchain.symm hchain')

theorem readable_eq_ok_iff (h : s.Versioned .entity) {user id : Json} {includeDeleted : Bool} :
    s.readable user includeDeleted id = .ok record ↔
      ∃ row, s.Accepts user includeDeleted id row ∧ row.decode = .ok record := by
  constructor
  · intro hreadable
    obtain ⟨found, hfound, hrest⟩ := bind_eq_ok_iff.1 hreadable
    cases found with
    | none => cases hrest
    | some e =>
      obtain ⟨text, row, htext, hrow, hdecode⟩ := getLatest_eq_ok_some_iff.1 hfound
      obtain ⟨properties, _, rfl⟩ := Version.decode_eq_ok_iff.1 hdecode
      dsimp only at hrest
      split at hrest
      · cases hrest
      · next hdeleted =>
        rw [bind_eq_ok_iff] at hrest
        obtain ⟨_, hread, hsame⟩ := hrest
        cases hsame
        obtain ⟨hmem, hlatest, hchain⟩ := h.latest?_eq_some_iff.1 hrow
        refine ⟨row, ⟨⟨text, htext, hchain⟩, hmem, hlatest, ?_, checkAccess_eq_ok_iff.1 hread⟩,
          hdecode⟩
        rw [Bool.and_eq_true, Bool.not_eq_true', not_and_or, Bool.not_eq_true,
          Bool.not_eq_false] at hdeleted
        exact hdeleted.symm
  · rintro ⟨row, haccepts, hdecode⟩
    rw [haccepts.readable h, hdecode]

end Store

end VersionedGraph
