import VersionedGraph.Proofs.Failure
import VersionedGraph.Proofs.History
import VersionedGraph.Proofs.Listing

/-!
# Where links are attached

The ends of a link go on naming the versions that were there when the link was made, while entities
get further versions. Still every latest link is listed with one latest entity, once in each
direction: its ends name rows (`Store.EndsExist`), a row belongs to one chain, and a chain has one
latest row. A new version of an entity takes the place of the one before it, at both ends of every
link (`Store.Carries`), so the lists before and after it tell of the same links in the same order.
-/

namespace VersionedGraph

/-- A request for all hops, deleted or not. -/
def HopRequest.everything : HopRequest := { includeDeleted := true }

namespace Operation

/-- The kind of which an operation changes what there is, if it does. -/
def changed? : Operation → Option Kind
  | update k .. | delete k .. | restore k .. | setAcl k .. => some k
  | create _ | internAcl _ | internResourceAcl .. | createGroup _ | addMember ..
  | removeMember .. => none

end Operation

namespace Store

/-! The ends of links. -/

/-- Both ends of every link name entities that there are. -/
def EndsExist (s : Store) : Prop :=
  ∀ l ∈ s.rows .link, ∀ id ∈ Kind.link.endIds l.ends, (s.row? .entity id).isSome = true

theorem KeptIn.isSome_row? {s t : Store} (h : s.KeptIn t) {k : Kind} {id : String}
    (hrow : (s.row? k id).isSome = true) : (t.row? k id).isSome = true := by
  obtain ⟨r, hr⟩ := Option.isSome_iff_exists.1 hrow
  obtain ⟨i, hi⟩ := List.mem_iff_getElem?.1 (mem_rows_of_row? hr)
  obtain ⟨r', hi', hremains⟩ := h.rows k i r hi
  have hid : r'.id = id := hremains.id_eq.trans (id_of_row? hr)
  obtain ⟨q, hq⟩ := exists_row?_of_mem (List.mem_of_getElem? hi')
  rw [← hid, hq]
  rfl

theorem ends_of_hasReferences {s : Store} {k : Kind} {row : ListedRow k}
    (h : s.hasReferences row = true) :
    ∀ id ∈ k.endIds row.ends, (s.row? .entity id).isSome = true := by
  unfold hasReferences at h
  rw [Bool.and_eq_true, List.all_eq_true] at h
  exact h.2

theorem EndsExist.written {s t : Store} {drafts? : Option (List AclDraft)} (h : s.EndsExist)
    (hw : s.Written drafts? t) : t.EndsExist := by
  have hkept := KeptIn.of_written hw
  intro l hl id hid
  rcases hw.mem_cases hl with ⟨q, hq, hremains⟩ | ⟨_, _, hreferences⟩
  · rw [hremains.same] at hid
    exact hkept.isSome_row? (h q hq id hid)
  · exact hkept.isSome_row? (ends_of_hasReferences hreferences id hid)

/-- In every reachable store the ends of links name entities that there are. -/
theorem Reachable.endsExist {s : Store} (h : s.Reachable) : s.EndsExist :=
  h.induction (P := EndsExist) nofun fun _ _ _ hs hw => hs.written hw

/-! The links that an entity lists. -/

section

variable {s : Store} {d : HopDirection} {u : Row .entity}

/-- A latest link leads from the latest entity that is found from one of its ends to the one that is
found from the other. -/
structure Joins (s : Store) (d : HopDirection) (u : Row .entity) (n : NeighborRow) : Prop where
  link : n.link ∈ s.rows .link
  linkLatest : n.link.isLatest = true
  near : s.latest? .entity (d.near n.link.ends) = some u
  far : s.latest? .entity (d.far n.link.ends) = some n.entity

/-- All links that lead from an entity, each once, in their order. -/
structure JoinsAll (s : Store) (d : HopDirection) (u : Row .entity) (rows : List NeighborRow) :
    Prop where
  mem : ∀ n, n ∈ rows ↔ s.Joins d u n
  nodup : (rows.map (·.link.id)).Nodup
  sorted : rows.Pairwise NeighborRow.Before

/-- What a latest entity is answered when it asks for all its hops. -/
def Sees (s : Store) (d : HopDirection) (u : Row .entity) (ns : List Neighbor) : Prop :=
  s.neighbors d (.str u.id) .everything = .ok ns

theorem EndsExist.exists_latest? (h : s.EndsExist) (hs : s.Versioned .entity) {l : Row .link}
    (hl : l ∈ s.rows .link) {id : String} (hid : id ∈ Kind.link.endIds l.ends) :
    ∃ u, s.latest? .entity id = some u := by
  obtain ⟨r, hr⟩ := Option.isSome_iff_exists.1 (h l hl id hid)
  obtain ⟨q, hq, hlatest, hway⟩ := hs.exists_latest (mem_rows_of_row? hr)
  rw [id_of_row? hr] at hway
  exact ⟨q, hs.latest?_eq_some_iff.2 ⟨hq, hlatest, sameChain_of_reflTransGen hway⟩⟩

theorem near_mem_endIds (d : HopDirection) (ends : Endpoints String) :
    d.near ends ∈ Kind.link.endIds ends := by
  cases d <;> simp [HopDirection.near, Kind.endIds]

theorem far_mem_endIds (d : HopDirection) (ends : Endpoints String) :
    d.far ends ∈ Kind.link.endIds ends := by
  cases d <;> simp [HopDirection.far, Kind.endIds]

theorem hop_everything_iff (hs : s.Versioned .entity) (hu : u ∈ s.rows .entity)
    (hlatest : u.isLatest = true) {n : NeighborRow} :
    s.Hop (HopQuery.rule { includeDeleted := true }) d u.id n.link n.entity ↔ s.Joins d u n := by
  constructor
  · intro hop
    exact ⟨hop.link, hop.linkLatest, hs.latest?_eq_some_iff.2 ⟨hu, hlatest, hop.near⟩,
      hs.latest?_eq_some_iff.2 ⟨hop.entity, hop.entityLatest, hop.far⟩⟩
  · intro hjoins
    have hadmits {k : Kind} (row : Row k) :
        (HopQuery.rule { includeDeleted := true }).Admits row :=
      ⟨.inl rfl, .inl (by cases k <;> rfl), nofun, rfl⟩
    obtain ⟨_, _, hnear⟩ := hs.latest?_eq_some_iff.1 hjoins.near
    obtain ⟨hv, hvlatest, hfar⟩ := hs.latest?_eq_some_iff.1 hjoins.far
    exact ⟨hjoins.link, hjoins.linkLatest, hnear, hv, hvlatest, hfar, hadmits _, hadmits _⟩

theorem asks_everything (id : String) :
    HopRequest.everything.Asks id { includeDeleted := true } :=
  ⟨rfl, by simp, Json.handOver_texts [id] 1⟩

theorem exists_joinsAll (hs : ∀ k, s.Versioned k) (d : HopDirection) (hu : u ∈ s.rows .entity)
    (hlatest : u.isLatest = true) :
    ∃ rows, s.JoinsAll d u rows ∧
      s.neighbors d (.str u.id) .everything = rows.mapM NeighborRow.decode := by
  let q : HopQuery := { includeDeleted := true }
  obtain ⟨rows, hrows⟩ : ∃ rows, s.selectHops d u.id q = .ok rows :=
    exists_selectHops_eq_ok fun _ _ => ⟨nofun, fun _ _ => nofun⟩
  obtain ⟨hmem, hnodup, hsorted⟩ := selectHops_spec hs hu hlatest hrows
  have hasks := asks_everything u.id
  refine ⟨rows, ⟨fun n => (hmem n).trans (hop_everything_iff (hs .entity) hu hlatest), hnodup,
    hsorted⟩, ?_⟩
  simp only [neighbors, hasks.query, mapError_ok, ok_bind,
    checkRowNames_eq_ok_iff.2 hasks.rowNames, hasks.handed, Json.columnText?_str]
  change s.selectHops d u.id q >>= _ = _
  rw [hrows, ok_bind]

/-- The links that lead from an entity are read one after the other. -/
theorem JoinsAll.neighbors_eq {rows : List NeighborRow} (h : s.JoinsAll d u rows)
    (hs : ∀ k, s.Versioned k) (hu : u ∈ s.rows .entity) (hlatest : u.isLatest = true) :
    s.neighbors d (.str u.id) .everything = rows.mapM NeighborRow.decode := by
  obtain ⟨rows', h', heq⟩ := exists_joinsAll hs d hu hlatest
  rw [heq, NeighborRow.eq_of_pairwise_before h'.sorted h.sorted fun n =>
    (h'.mem n).trans (h.mem n).symm]

theorem linkIds_of_mapM_decode {rows : List NeighborRow} {ns : List Neighbor}
    (h : rows.mapM NeighborRow.decode = .ok ns) : ns.map (·.link.id) = rows.map (·.link.id) := by
  rw [mapM_eq_ok_iff] at h
  induction h with
  | nil => rfl
  | @cons n m rows ns hdecode _ ih =>
    have hid : m.link.id = n.link.id := congrArg Step.link (NeighborRow.step_of_decode hdecode).1
    rw [List.map_cons, List.map_cons, ih, hid]

/-- A latest link is in the list of the entity that is found from its near end, once. -/
theorem count_of_sees (hs : ∀ k, s.Versioned k) (hends : s.EndsExist) (hu : u ∈ s.rows .entity)
    (hlatest : u.isLatest = true) {ns : List Neighbor} (hns : s.Sees d u ns) {l : Row .link}
    (hl : l ∈ s.rows .link) (hllatest : l.isLatest = true) {v : Row .entity}
    (hnear : s.latest? .entity (d.near l.ends) = some v) :
    (ns.map (·.link.id)).count l.id = if u = v then 1 else 0 := by
  obtain ⟨rows, hrows, hlisted⟩ := exists_joinsAll hs d hu hlatest
  unfold Sees at hns
  rw [hlisted] at hns
  have hids := linkIds_of_mapM_decode hns
  have hmem : l.id ∈ rows.map (·.link.id) ↔ u = v := by
    rw [List.mem_map]
    constructor
    · rintro ⟨n, hn, hid⟩
      have hjoins := (hrows.mem n).1 hn
      have hsame : n.link = l := (hs .link).eq_of_id_eq hjoins.link hl hid
      have hfound := hjoins.near
      rw [hsame, hnear] at hfound
      exact (Option.some.inj hfound).symm
    · rintro rfl
      obtain ⟨w, hw⟩ := hends.exists_latest? (hs .entity) hl (far_mem_endIds d l.ends)
      exact ⟨⟨l, w⟩, (hrows.mem _).2 ⟨hl, hllatest, hnear, hw⟩, rfl⟩
  rw [hids]
  by_cases huv : u = v
  · rw [if_pos huv]
    exact List.count_eq_one_of_mem hrows.nodup (hmem.2 huv)
  · rw [if_neg huv]
    exact List.count_eq_zero_of_not_mem fun h => huv (hmem.1 h)

end

/-! What a change carries over. -/

/-- Links are the same in another store, and where one store finds a latest entity the other one
finds what comes next of it. It can be read if the one before it could. -/
structure Carries (s t : Store) (next : Row .entity → Row .entity) : Prop where
  links : t.rows .link = s.rows .link
  latest? : ∀ id u, s.latest? .entity id = some u → t.latest? .entity id = some (next u)
  injective : ∀ u ∈ s.rows .entity, ∀ v ∈ s.rows .entity, next u = next v → u = v
  surjective : ∀ v ∈ t.rows .entity, v.isLatest = true →
    ∃ u ∈ s.rows .entity, u.isLatest = true ∧ next u = v
  readable : ∀ u record, u.decode = .ok record → ∃ record', (next u).decode = .ok record'

/-- A version that follows a latest row is added, takes over the mark and can be read. -/
structure Follows (s t : Store) {k : Kind} (current row : Row k) : Prop where
  existing : current ∈ s.rows k
  marked : current.isLatest = true
  new : ∀ r ∈ s.rows k, r.id ≠ row.id
  previous : row.previous = some current.id
  latest : row.isLatest = true
  readable : ∃ record, row.decode = .ok record
  added : t = (s.clearLatest k current.id).addRow row

/-- What comes next of a row when a version follows one. -/
def renewed (current row u : Row .entity) : Row .entity :=
  if u = current then row else u

section

variable {s t : Store} {current row : Row .entity}

theorem Carries.refl (s : Store) : s.Carries s id where
  links := rfl
  latest? _ _ h := h
  injective _ _ _ _ h := h
  surjective v hv hlatest := ⟨v, hv, hlatest, rfl⟩
  readable _ record h := ⟨record, h⟩

theorem Follows.latest? (h : s.Follows t current row) (hs : s.Versioned .entity)
    (ht : t.Versioned .entity) {id : String} {u : Row .entity}
    (hu : s.latest? .entity id = some u) : t.latest? .entity id = some (renewed current row u) := by
  obtain ⟨hmem, hlatest, hchain⟩ := hs.latest?_eq_some_iff.1 hu
  have hrows {r : Row .entity} : r ∈ t.rows .entity ↔
      (∃ q ∈ s.rows .entity, unmark current.id q = r) ∨ r = row := by
    rw [h.added]
    exact Versioned.mem_rows_next
  have hkept : t.SameChain .entity id u.id := by
    refine Relation.EqvGen.mono ?_ _ _ hchain
    rintro a b ⟨r, hr, hid, hprevious⟩
    exact ⟨unmark current.id r, hrows.2 (.inl ⟨r, hr, rfl⟩), by rw [unmark_id, hid],
      by rw [unmark_previous, hprevious]⟩
  rw [ht.latest?_eq_some_iff]
  unfold renewed
  split
  · next heq =>
    subst heq
    have hnext : t.SameChain .entity u.id row.id :=
      .rel _ _ ⟨row, hrows.2 (.inr rfl), rfl, h.previous⟩
    exact ⟨hrows.2 (.inr rfl), h.latest, hkept.trans _ _ _ hnext⟩
  · next hne =>
    have hid : u.id ≠ current.id := fun hid => hne (hs.eq_of_id_eq hmem h.existing hid)
    exact ⟨hrows.2 (.inl ⟨u, hmem, if_neg hid⟩), hlatest, hkept⟩

theorem Follows.carries (h : s.Follows t current row) (hs : s.Versioned .entity)
    (ht : t.Versioned .entity) : s.Carries t (renewed current row) where
  links := by
    rw [h.added]
    exact rows_next_of_ne (show Kind.link ≠ .entity from nofun) row
  latest? _ _ hu := h.latest? hs ht hu
  injective u hu v hv heq := by
    have hne {r : Row .entity} (hr : r ∈ s.rows .entity) : r ≠ row :=
      fun heq => h.new r hr (by rw [heq])
    unfold renewed at heq
    by_cases hucurrent : u = current
    · by_cases hvcurrent : v = current
      · rw [hucurrent, hvcurrent]
      · rw [if_pos hucurrent, if_neg hvcurrent] at heq
        exact absurd heq.symm (hne hv)
    · by_cases hvcurrent : v = current
      · rw [if_neg hucurrent, if_pos hvcurrent] at heq
        exact absurd heq (hne hu)
      · rw [if_neg hucurrent, if_neg hvcurrent] at heq
        exact heq
  surjective v hv hlatest := by
    rw [h.added, Versioned.mem_rows_next] at hv
    rcases hv with ⟨q, hq, rfl⟩ | rfl
    · rw [unmark_isLatest, Bool.and_eq_true, decide_eq_true_eq] at hlatest
      refine ⟨q, hq, hlatest.1, ?_⟩
      unfold renewed unmark
      rw [if_neg fun heq => hlatest.2 (by rw [heq]), if_neg hlatest.2]
    · exact ⟨current, h.existing, h.marked, if_pos rfl⟩
  readable u record hu := by
    unfold renewed
    split
    · exact h.readable
    · exact ⟨record, hu⟩

end

/-- Two listed hops cross the same link, and the second leads to the latest version of what the
first led to. -/
structure Traces (t : Store) (n n' : Neighbor) : Prop where
  link : n'.link = n.link
  entity : ∃ v, t.latest? .entity n.entity.id = some v ∧ v.decode = .ok n'.entity

namespace Carries

variable {s t : Store} {next : Row .entity → Row .entity} {d : HopDirection} {u : Row .entity}

/-- The same links lead from what comes next of an entity, each to what comes next. -/
theorem joins_iff (h : s.Carries t next) (hs : s.Versioned .entity) (hends : s.EndsExist)
    (hu : u ∈ s.rows .entity) {n' : NeighborRow} :
    t.Joins d (next u) n' ↔ ∃ n, s.Joins d u n ∧ ⟨n.link, next n.entity⟩ = n' := by
  constructor
  · intro hjoins
    have hl : n'.link ∈ s.rows .link := h.links ▸ hjoins.link
    obtain ⟨v, hnear⟩ := hends.exists_latest? hs hl (near_mem_endIds d n'.link.ends)
    obtain ⟨w, hfar⟩ := hends.exists_latest? hs hl (far_mem_endIds d n'.link.ends)
    have hv : v = u := by
      have hfound := h.latest? _ _ hnear
      rw [hjoins.near] at hfound
      exact (h.injective u hu v (latest?_eq_some hnear).1 (Option.some.inj hfound)).symm
    have hw : next w = n'.entity := by
      have hfound := h.latest? _ _ hfar
      rw [hjoins.far] at hfound
      exact (Option.some.inj hfound).symm
    exact ⟨⟨n'.link, w⟩, ⟨hl, hjoins.linkLatest, hv ▸ hnear, hfar⟩, by rw [hw]⟩
  · rintro ⟨n, hjoins, rfl⟩
    exact ⟨h.links ▸ hjoins.link, hjoins.linkLatest, h.latest? _ _ hjoins.near,
      h.latest? _ _ hjoins.far⟩

theorem joinsAll (h : s.Carries t next) (hs : s.Versioned .entity) (hends : s.EndsExist)
    (hu : u ∈ s.rows .entity) {rows : List NeighborRow} (hrows : s.JoinsAll d u rows) :
    t.JoinsAll d (next u) (rows.map fun n => ⟨n.link, next n.entity⟩) where
  mem n' := by
    rw [List.mem_map, h.joins_iff hs hends hu]
    simp only [hrows.mem]
  nodup := by
    rw [List.map_map]
    exact hrows.nodup
  sorted := List.pairwise_map.2 hrows.sorted

/-- What could be read before can be read after. -/
theorem exists_traces (h : s.Carries t next) (hs : s.Versioned .entity) {n : NeighborRow}
    (hn : s.Joins d u n) {m : Neighbor} (hm : n.decode = .ok m) :
    ∃ m', NeighborRow.decode ⟨n.link, next n.entity⟩ = .ok m' ∧ t.Traces m m' := by
  obtain ⟨hlink, hentity⟩ := NeighborRow.decode_eq_ok_iff.1 hm
  obtain ⟨record, hrecord⟩ := h.readable _ _ hentity
  obtain ⟨hv, hlatest, _⟩ := hs.latest?_eq_some_iff.1 hn.far
  have hself := hs.latest?_eq_some_iff.2 ⟨hv, hlatest, .refl _⟩
  refine ⟨⟨m.link, record⟩, NeighborRow.decode_eq_ok_iff.2 ⟨hlink, hrecord⟩, rfl, next n.entity,
    ?_, hrecord⟩
  rw [(NeighborRow.step_of_decode hm).2]
  exact h.latest? _ _ hself

/-- A list that was given before is given after, of the same links in the same order. -/
theorem exists_sees (h : s.Carries t next) (hs : ∀ k, s.Versioned k) (ht : ∀ k, t.Versioned k)
    (hends : s.EndsExist) (hu : s.latest? .entity u.id = some u) {ns : List Neighbor}
    (hns : s.Sees d u ns) : ∃ ns', t.Sees d (next u) ns' ∧ List.Forall₂ t.Traces ns ns' := by
  obtain ⟨hmem, hlatest⟩ := latest?_eq_some hu
  obtain ⟨hmem', hlatest'⟩ := latest?_eq_some (h.latest? _ _ hu)
  obtain ⟨rows, hrows, hlisted⟩ := exists_joinsAll hs d hmem hlatest
  have hlisted' := (h.joinsAll (hs .entity) hends hmem hrows).neighbors_eq ht hmem' hlatest'
  unfold Sees at hns ⊢
  rw [hlisted, mapM_eq_ok_iff] at hns
  simp only [hlisted', mapM_eq_ok_iff]
  have hjoins : ∀ n ∈ rows, s.Joins d u n := fun n => (hrows.mem n).1
  clear hrows hlisted hlisted'
  induction hns with
  | nil => exact ⟨[], .nil, .nil⟩
  | cons hm _ ih =>
    obtain ⟨hn, hrest⟩ := List.forall_mem_cons.1 hjoins
    obtain ⟨m', hm', htraces⟩ := h.exists_traces (hs .entity) hn hm
    obtain ⟨ns', hns', hall⟩ := ih hrest
    exact ⟨m' :: ns', .cons hm' hns', .cons htraces hall⟩

end Carries

end Store

namespace Action

variable {k : Kind} {s : Store}

theorem follows_of_succeed {current row : Row k} {c : Change} {actor : Json} {stamp : Stamp}
    {t : Store} (hlatest : ∃ id, s.latest? k id = some current)
    (h : (succeed current c actor stamp).Yields s row t)
    (hread : ∃ record, row.decode = .ok record) : s.Follows t current row := by
  obtain ⟨_, hlatest⟩ := hlatest
  obtain ⟨hmem, hmarked⟩ := Store.latest?_eq_some hlatest
  obtain ⟨next, hnext, hrow, hnew, _, rfl⟩ := exists_settled_of_succeed_yields h
  obtain ⟨version, _, rfl⟩ := Change.nextVersion_eq_ok_iff.1 hnext
  exact ⟨hmem, hmarked, Store.row?_eq_none_iff.1 hnew,
    hrow.previous.trans (Json.columnText?_str current.id), hrow.isLatest, hread, rfl⟩

/-- An atomic write that does not fail ends with a row that can be read. -/
theorem exists_yields_of_read {x : Action (Row k)}
    (h : (atomically x >>= fun row => liftM row.decode : Action (Record k)).fault? s = none) :
    ∃ row, (∃ record, row.decode = .ok record) ∧
      x.Yields s row
        ((atomically x >>= fun row => liftM row.decode : Action (Record k)).storeAfter s) := by
  obtain ⟨record, t, h⟩ := exists_yields_of_fault?_eq_none h
  rw [storeAfter_of_yields h]
  simp only [yields_bind, yields_atomically, yields_lift] at h
  obtain ⟨row, _, h, hdecode, rfl⟩ := h
  exact ⟨row, ⟨record, hdecode⟩, h⟩

theorem exists_follows_of_change {id : Json} {objection? : Row k → Option Fault} {c : Change}
    {actor : Json} {stamp : Stamp} (h : (change k id objection? c actor stamp).fault? s = none) :
    ∃ current row : Row k,
      s.Follows ((change k id objection? c actor stamp).storeAfter s) current row := by
  rw [change_eq] at h ⊢
  obtain ⟨row, hread, h⟩ := exists_yields_of_read h
  obtain ⟨current, hlatest, _, h⟩ := exists_succeed_of_changeRow h
  exact ⟨current, row, follows_of_succeed hlatest h hread⟩

theorem eq_or_exists_follows_of_setAcl {id acl actor : Json} {stamp : Stamp}
    (h : (setAcl k id acl actor stamp).fault? s = none) :
    (setAcl k id acl actor stamp).storeAfter s = s ∨
      ∃ current row : Row k,
        s.Follows ((setAcl k id acl actor stamp).storeAfter s) current row := by
  rw [setAcl_eq] at h ⊢
  obtain ⟨row, hread, h⟩ := exists_yields_of_read h
  obtain ⟨current, hlatest, ⟨_, hsame⟩ | h⟩ := setAclRow_cases h
  · exact .inl hsame
  · exact .inr ⟨current, row, follows_of_succeed hlatest h hread⟩

end Action

theorem Operation.eq_or_exists_follows {o : Operation} {k : Kind} {s : Store} {stamp : Stamp}
    (ho : o.changed? = some k) (hok : o.fault? s stamp = none) :
    o.apply s stamp = s ∨ ∃ current row : Row k, s.Follows (o.apply s stamp) current row := by
  cases o <;> cases ho
  case update | delete | restore => exact .inr (Action.exists_follows_of_change hok)
  case setAcl => exact Action.eq_or_exists_follows_of_setAcl hok

namespace Store

variable {s : Store}

theorem Reachable.apply (h : s.Reachable) (o : Operation) (stamp : Stamp) :
    (o.apply s stamp).Reachable := by
  obtain ⟨log, rfl⟩ := h
  exact ⟨log ++ [(o, stamp)], after_append empty log _⟩

theorem Reachable.exists_carries (h : s.Reachable) {o : Operation} {stamp : Stamp}
    (ho : o.changed? = some .entity) (hok : o.fault? s stamp = none) :
    ∃ next, s.Carries (o.apply s stamp) next := by
  rcases Operation.eq_or_exists_follows ho hok with hsame | ⟨current, row, hfollows⟩
  · rw [hsame]
    exact ⟨id, .refl s⟩
  · exact ⟨_, hfollows.carries (h.versioned .entity) ((h.apply o stamp).versioned .entity)⟩

/-- In each direction every latest link is listed with exactly one latest entity, once. A list is
always given unless what is along one of its hops cannot be read. When an entity is changed, the
latest entity of every chain that gave a list before gives one after, of the same links in the same
order, each leading to the latest entity of the same chain; and there are no other chains. -/
theorem Reachable.links_stay_attached (h : s.Reachable) (d : HopDirection) :
    (∀ l ∈ s.rows .link, l.isLatest = true → ∃ v ∈ s.rows .entity, v.isLatest = true ∧
      ∀ u ∈ s.rows .entity, u.isLatest = true → ∀ ns, s.Sees d u ns →
        (ns.map (·.link.id)).count l.id = if u = v then 1 else 0) ∧
    (∀ u ∈ s.rows .entity, u.isLatest = true →
      ∀ f, s.neighbors d (.str u.id) .everything = .error f →
        ∃ n, s.Joins d u n ∧ n.decode = .error f) ∧
    ∀ (o : Operation) (stamp : Stamp), o.changed? = some .entity → o.fault? s stamp = none →
      (∀ u ∈ s.rows .entity, u.isLatest = true →
        ∃ v, (o.apply s stamp).latest? .entity u.id = some v ∧
          ∀ ns, s.Sees d u ns → ∃ ns', (o.apply s stamp).Sees d v ns' ∧
            List.Forall₂ (o.apply s stamp).Traces ns ns') ∧
      ∀ v ∈ (o.apply s stamp).rows .entity, v.isLatest = true →
        ∃ u ∈ s.rows .entity, u.isLatest = true ∧
          (o.apply s stamp).latest? .entity u.id = some v := by
  have hs := h.versioned
  have hends := h.endsExist
  have hself {u : Row .entity} (hu : u ∈ s.rows .entity) (hlatest : u.isLatest = true) :
      s.latest? .entity u.id = some u :=
    (hs .entity).latest?_eq_some_iff.2 ⟨hu, hlatest, .refl _⟩
  refine ⟨?_, ?_, ?_⟩
  · intro l hl hllatest
    obtain ⟨v, hnear⟩ := hends.exists_latest? (hs .entity) hl (near_mem_endIds d l.ends)
    obtain ⟨hv, hvlatest⟩ := latest?_eq_some hnear
    exact ⟨v, hv, hvlatest, fun u hu hlatest ns hns =>
      count_of_sees hs hends hu hlatest hns hl hllatest hnear⟩
  · intro u hu hlatest f hf
    obtain ⟨rows, hrows, hlisted⟩ := exists_joinsAll hs d hu hlatest
    rw [hlisted] at hf
    obtain ⟨n, hn, hdecode⟩ := exists_mem_of_mapM_eq_error hf
    exact ⟨n, (hrows.mem n).1 hn, hdecode⟩
  · intro o stamp ho hok
    obtain ⟨next, hcarries⟩ := h.exists_carries ho hok
    constructor
    · intro u hu hlatest
      have hu := hself hu hlatest
      exact ⟨next u, hcarries.latest? _ _ hu, fun ns hns =>
        hcarries.exists_sees hs (h.apply o stamp).versioned hends hu hns⟩
    · intro v hv hlatest
      obtain ⟨u, hu, hulatest, rfl⟩ := hcarries.surjective v hv hlatest
      exact ⟨u, hu, hulatest, hcarries.latest? _ _ (hself hu hulatest)⟩

/-- When the cited note is deleted by the id of its first version, the note that cites still lists
the citation, which then leads to the deleted version. -/
theorem citation_of_deleted_note :
    let t := (Operation.delete .entity (.str "b") .null).apply staleCitation ⟨"d", 5⟩
    ∃ ns ns', staleCitation.Sees .outbound staleCitation.citing ns ∧
      t.Sees .outbound staleCitation.citing ns' ∧ List.Forall₂ t.Traces ns ns' ∧
      ns.map (fun n => (n.link.id, n.entity.id)) = [("l", "c")] ∧
      ns'.map (fun n => (n.link.id, n.entity.id)) = [("l", "d")] := by
  intro t
  have hbefore : ((staleCitation.neighbors .outbound (.str "a") .everything).toOption.map
      fun ns => ns.map fun n => (n.link.id, n.entity.id)) = some [("l", "c")] := by
    decide +kernel
  have hafter : ((t.neighbors .outbound (.str "a") .everything).toOption.map
      fun ns => ns.map fun n => (n.link.id, n.entity.id)) = some [("l", "d")] := by
    decide +kernel
  have hlatest : t.latest? .entity "a" = some staleCitation.citing := by decide +kernel
  obtain ⟨ns, hns, hids⟩ := Option.map_eq_some_iff.1 hbefore
  rw [toOption_eq_some_iff] at hns
  obtain ⟨_, _, hchanged⟩ := Reachable.links_stay_attached staleCitation.reachable .outbound
  obtain ⟨v, hv, hlists⟩ := (hchanged (.delete .entity (.str "b") .null) ⟨"d", 5⟩ rfl rfl).1
    staleCitation.citing staleCitation.citing_mem rfl
  obtain rfl : staleCitation.citing = v := Option.some.inj (hlatest.symm.trans hv)
  obtain ⟨ns', hns', htraces⟩ := hlists ns hns
  have hfound : t.neighbors .outbound (.str "a") .everything = .ok ns' := hns'
  rw [hfound] at hafter
  exact ⟨ns, ns', hns, hns', htraces, hids, Option.some.inj hafter⟩

/-- A note whose properties are no JSON cannot be handed out, so a link to it is not listed with the
note that it leads from. A link that was given no number as its id is listed nowhere at all. -/
theorem links_that_are_not_listed :
    let note (properties : Json) : Operation :=
      .create (k := .entity) { typeId := .str "note", ends := (), properties }
    let cites (target : String) (id : Json) : Operation :=
      .create (k := .link) { typeId := .str "cites", ends := ⟨.str "a", .str target⟩, id }
    let s := empty.after
      [(note .null, ⟨"a", 1⟩), (note (.str "oops"), ⟨"b", 2⟩), (cites "b" .null, ⟨"l", 3⟩),
        (cites "a" (.float .nan), ⟨"m", 4⟩)]
    s.Reachable ∧
    ((∃ l ∈ s.rows .link, l.id = "l" ∧ l.isLatest = true) ∧
      ∀ u ∈ s.rows .entity, ∀ ns, s.Sees .outbound u ns → ∀ n ∈ ns, n.link.id ≠ "l") ∧
    (∃ m ∈ s.unnamed .link, m.ends = ⟨"a", "a"⟩ ∧ m.isLatest = true) ∧
      ∀ u ∈ s.rows .entity, ∀ ns, s.Sees .inbound u ns → ∀ n ∈ ns, n.link.ends ≠ ⟨"a", "a"⟩ := by
  intro note cites s
  have hids : ∀ u ∈ s.rows .entity,
      ((s.neighbors .outbound (.str u.id) .everything).toOption.map fun ns =>
        ns.map (·.link.id)).getD [] = [] := by decide +kernel
  have hends : ∀ u ∈ s.rows .entity, ⟨"a", "a"⟩ ∉
      ((s.neighbors .inbound (.str u.id) .everything).toOption.map fun ns =>
        ns.map (·.link.ends)).getD [] := by decide +kernel
  refine ⟨⟨_, rfl⟩, ⟨by decide +kernel, ?_⟩, by decide +kernel, ?_⟩
  · intro u hu ns hns n hn
    unfold Sees at hns
    have hnone := hids u hu
    rw [hns] at hnone
    rw [List.map_eq_nil_iff.1 hnone] at hn
    cases hn
  · intro u hu ns hns n hn heq
    unfold Sees at hns
    refine hends u hu ?_
    rw [hns]
    exact List.mem_map.2 ⟨n, hn, heq⟩

end Store

end VersionedGraph
