import Mathlib
import VersionedGraph.Proofs.Granting
import VersionedGraph.Proofs.Noninterference
import VersionedGraph.Proofs.ShortestPath

/-!
# More access

What one caller may read another may read, too, if the access lists that grant something to the
first all grant it to the second, be it in the same store or in one with more memberships
(`Store.Widens`). Then walks of the first are walks of the second, and a search by the second finds
all that one by the first finds, no later. It may fail instead where there is more to come across:
the caller acts as too many principals, or something that only this caller's search meets spoils it.
-/

namespace VersionedGraph

/-- A traversal as some caller, if anybody, asks for it. -/
def TraversalRequest.askedBy (r : TraversalRequest) (caller : Option String) : TraversalRequest :=
  { r with user := .ofText? caller }

/-- A search for a path as some caller, if anybody, asks for it. -/
def PathRequest.askedBy (r : PathRequest) (caller : Option String) : PathRequest :=
  { r with user := .ofText? caller }

namespace Store

/-- An access list grants it to a caller, if that is anybody, to read what has its id. -/
def MayRead (s : Store) (caller : Option String) (id : Int) : Prop :=
  ∃ user, caller = some user ∧ ∃ acl e, s.acl? id = some acl ∧ e ∈ acl.entries ∧
    s.Grants e user .read

/-- A caller acts as no more principals than one query asks for. -/
def Serves (s : Store) (caller : Option String) : Prop :=
  ∀ user, caller = some user → (s.principalsOf user).length ≤ maxPrincipals

/-- A second store has the rows of the first, and whatever access list lets one caller read in the
first lets another read in the second. -/
structure Widens (s : Store) (x : Option String) (t : Store) (y : Option String) : Prop where
  rows : ∀ k, t.rows k = s.rows k
  mayRead : ∀ id, s.MayRead x id → t.MayRead y id

variable {s t : Store} {x y : Option String} {acl : Option Int}

/-! What callers may read. -/

theorem exists_accessibleIds_eq_ok (hserves : s.Serves x) :
    ∃ ids, s.accessibleIds (.ofText? x) .read = .ok ids ∧
      ∀ id, ((!(Json.ofText? x).isNull) = true ∧ id ∈ ids) ↔ s.MayRead x id := by
  cases x with
  | none => exact ⟨[], accessibleIds_null s .read, by simp [MayRead]⟩
  | some user =>
    refine ⟨_, accessibleIds_str .read (hserves user rfl), fun id => ?_⟩
    rw [mem_grantedIds_iff]
    simp [MayRead, Json.ofText?, Json.isNull]

/-- A caller who is served may read what is public and what its access lists let it read. -/
theorem canRead_iff_mayRead (hserves : s.Serves x) :
    s.CanRead (.ofText? x) acl ↔ acl = none ∨ ∃ id, acl = some id ∧ s.MayRead x id := by
  obtain ⟨ids, hids, hmem⟩ := exists_accessibleIds_eq_ok hserves
  rw [canRead_iff hids]
  refine or_congr_right ⟨?_, ?_⟩
  · rintro ⟨hsomebody, id, hid, rfl⟩
    exact ⟨id, rfl, (hmem id).1 ⟨hsomebody, hid⟩⟩
  · rintro ⟨id, rfl, hread⟩
    obtain ⟨hsomebody, hid⟩ := (hmem id).2 hread
    exact ⟨hsomebody, id, hid, rfl⟩

theorem exists_many_of_not_serves (h : ¬s.Serves x) :
    ∃ user, x = some user ∧ maxPrincipals < (s.principalsOf user).length := by
  unfold Serves at h
  push Not at h
  exact h

/-- Access is not settled for a caller who is not served, but for what is public. -/
theorem hasPermission_of_not_serves (h : ¬s.Serves x) (acl : Option Int) :
    s.hasPermission (.ofText? x) (.ofInt? acl) .read =
      if acl = none then .ok true else .error .tooManyPrincipals := by
  obtain ⟨user, rfl, hmany⟩ := exists_many_of_not_serves h
  cases acl with
  | none => rfl
  | some id =>
    change (s.accessibleIds (.str user) .read >>= _) = _
    rw [accessibleIds_of_many .read hmany]
    rfl

theorem mayRead_of_canRead (h : s.CanRead (.ofText? x) acl) :
    acl = none ∨ ∃ id, acl = some id ∧ s.MayRead x id := by
  by_cases hserves : s.Serves x
  · exact (canRead_iff_mayRead hserves).1 h
  · refine .inl ?_
    by_contra hsome
    rw [CanRead, hasPermission_of_not_serves hserves, if_neg hsome] at h
    cases h

theorem readFilter_of_serves (h : s.Serves x) (cap : Int) :
    ∃ access, s.readFilter (.ofText? x) (.int cap) = .ok access := by
  rcases s.readFilter_of_text x cap with hserved | ⟨_, user, rfl, hmany⟩
  · exact hserved
  · exact absurd (h user rfl) (by omega)

theorem readFilter_of_not_serves (h : ¬s.Serves x) (cap : Json) :
    s.readFilter (.ofText? x) cap = .error .tooManyPrincipals := by
  obtain ⟨user, rfl, hmany⟩ := exists_many_of_not_serves h
  exact readFilter_of_many hmany cap

/-! More memberships. -/

theorem BelongsTo.mono (h : s.memberships ⊆ t.memberships) {user group : String}
    (hbelongs : s.BelongsTo user group) : t.BelongsTo user group := by
  induction hbelongs with
  | direct member => exact .direct (h member)
  | nested _ member ih => exact .nested ih (h member)

theorem Grants.mono (h : s.memberships ⊆ t.memberships) {e : AclEntry} {user : String}
    {permission : Permission} (hgrants : s.Grants e user permission) :
    t.Grants e user permission where
  principal := hgrants.principal.imp_right fun ⟨group, hbelongs, he⟩ =>
    ⟨group, hbelongs.mono h, he⟩
  permission := hgrants.permission

theorem MayRead.mono (hacls : t.acls = s.acls) (h : s.memberships ⊆ t.memberships) {id : Int}
    (hread : s.MayRead x id) : t.MayRead x id := by
  obtain ⟨user, hx, acl, e, hacl, he, hgrants⟩ := hread
  refine ⟨user, hx, acl, e, ?_, he, hgrants.mono h⟩
  unfold acl? at hacl ⊢
  rw [hacls]
  exact hacl

/-- A member that is added to a group widens what everybody may read. -/
theorem widens_addMember (s : Store) (group memberType memberId : Json) (x : Option String) :
    s.Widens x ((Action.addMember group memberType memberId).storeAfter s) x := by
  obtain ⟨more, hmore⟩ := Action.exists_storeAfter_addMember (s := s) group memberType memberId
  rw [hmore]
  let t : Store := { s with memberships := s.memberships ++ more }
  refine ⟨fun k => by cases k <;> rfl, fun id hread => ?_⟩
  exact MayRead.mono (s := s) (t := t) rfl (List.subset_append_left _ _) hread

namespace Widens

variable {k : Kind} {rule rule' : HopRule} {directions : List HopDirection} {u v : Row .entity}

theorem sameChain (h : s.Widens x t y) (k : Kind) : t.SameChain k = s.SameChain k := by
  unfold SameChain Precedes
  rw [h.rows]

theorem canRead (h : s.Widens x t y) (hserves : t.Serves y)
    (hread : s.CanRead (.ofText? x) acl) : t.CanRead (.ofText? y) acl := by
  refine (canRead_iff_mayRead hserves).2 ((mayRead_of_canRead hread).imp_right ?_)
  rintro ⟨id, hid, hread⟩
  exact ⟨id, hid, h.mayRead id hread⟩

theorem accepts (h : s.Widens x t y) (hserves : t.Serves y) {includeDeleted : Bool} {id : Json}
    (ha : s.Accepts (.ofText? x) includeDeleted id u) :
    t.Accepts (.ofText? y) includeDeleted id u where
  named := by
    rw [h.sameChain]
    exact ha.named
  entity := by
    rw [h.rows]
    exact ha.entity
  latest := ha.latest
  deleted := ha.deleted
  canRead := h.canRead hserves ha.canRead

theorem hop (h : s.Widens x t y)
    (hadmits : ∀ (k : Kind) (row : Row k), rule.Admits row → rule'.Admits row) {d : HopDirection}
    {id : String} {l : Row .link} (hop : s.Hop rule d id l v) : t.Hop rule' d id l v where
  link := by
    rw [h.rows]
    exact hop.link
  linkLatest := hop.linkLatest
  near := by
    rw [h.sameChain]
    exact hop.near
  entity := by
    rw [h.rows]
    exact hop.entity
  entityLatest := hop.entityLatest
  far := by
    rw [h.sameChain]
    exact hop.far
  admitsLink := hadmits _ _ hop.admitsLink
  admitsEntity := hadmits _ _ hop.admitsEntity

theorem walk (h : s.Widens x t y)
    (hadmits : ∀ (k : Kind) (row : Row k), rule.Admits row → rule'.Admits row)
    {walk : List NeighborRow} (hwalk : Walk (s.Crosses rule directions) u walk v) :
    Walk (t.Crosses rule' directions) u walk v := by
  refine hwalk.mono ?_
  rintro u n v ⟨hentity, d, hd, hop⟩
  exact ⟨hentity, d, hd, h.hop hadmits hop⟩

/-- What is listed around a row is listed no later around it by a search that crosses more. -/
theorem listed_no_later (h : s.Widens x t y) (hs : s.Versioned .entity) (ht : t.Versioned .entity)
    (hadmits : ∀ (k : Kind) (row : Row k), rule.Admits row → rule'.Admits row)
    (hu : u ∈ s.rows .entity) (hlatest : u.isLatest = true) {record : Record .entity}
    (hdecode : u.decode = .ok record) {depth : Nat} {search search' : Search}
    (hfinished : (s.ground rule directions record none).Finished depth search)
    (hfinished' : (t.ground rule' directions record none).Finished depth search') {v : Visit}
    (hv : v ∈ search.visits) :
    ∃ v' ∈ search'.visits, v'.entity = v.entity ∧ v'.depth ≤ v.depth := by
  obtain ⟨row, hrow, _, hrecord⟩ := hfinished.known v hv
  obtain ⟨hle, walk, hwalk, hlength⟩ := (at_row_iff hs hu hlatest hdecode hfinished hrow).1
    ⟨v, hv, id_of_decode hrecord, rfl⟩
  obtain ⟨walk', hshortest, hshorter⟩ := (h.walk hadmits hwalk.walk).exists_isShortest
  rw [← h.rows] at hu hrow
  obtain ⟨v', hv', hid, hdepth⟩ := (at_row_iff ht hu hlatest hdecode hfinished' hrow).2
    ⟨by omega, walk', hshortest, rfl⟩
  obtain ⟨row', hrow', _, hrecord'⟩ := hfinished'.known v' hv'
  have hsame : row' = row := ht.eq_of_id_eq hrow' hrow ((id_of_decode hrecord').symm.trans hid)
  rw [hsame, hrecord] at hrecord'
  exact ⟨v', hv', (Except.ok.inj hrecord').symm, by omega⟩

end Widens

/-- Whatever a traversal lists for one caller in a store a traversal lists no later for another one
in another store, unless the latter acts as too many principals or its traversal is spoiled. -/
def TraversesNoLater (s : Store) (x : Option String) (t : Store) (y : Option String)
    (settings : SearchSettings) (r : TraversalRequest) : Prop :=
  ∀ found, s.traverse settings (r.askedBy x) = .ok found →
    (∃ found', t.traverse settings (r.askedBy y) = .ok found' ∧
      ∀ v ∈ found.visits, ∃ v' ∈ found'.visits, v'.entity = v.entity ∧ v'.depth ≤ v.depth) ∨
    (t.traverse settings (r.askedBy y) = .error .tooManyPrincipals ∧
      ¬t.Serves y) ∨
    ∃ f start direction, t.traverse settings (r.askedBy y) = .error f ∧
      t.Accepts (.ofText? y) r.includeDeleted r.start start ∧
      Direction.given? r.direction = .ok (some direction) ∧
      (r.askedBy y).Spoiled t settings start direction f

/-- If a path is found for one caller in a store, one that is no longer is found for another one in
another store, unless the latter acts as too many principals or its search is spoiled. -/
def FindsNoLonger (s : Store) (x : Option String) (t : Store) (y : Option String)
    (settings : SearchSettings) (r : PathRequest) : Prop :=
  ∀ p, s.shortestPath settings (.ofStore s) (r.askedBy x) = .ok p →
    (∃ p', t.shortestPath settings (.ofStore t) (r.askedBy y) = .ok p' ∧
      p'.hops.length ≤ p.hops.length) ∨
    (t.shortestPath settings (.ofStore t) (r.askedBy y) =
      .error .tooManyPrincipals ∧ ¬t.Serves y) ∨
    ∃ f origin target depth,
      t.shortestPath settings (.ofStore t) (r.askedBy y) = .error f ∧
      t.Accepts (.ofText? y) r.includeDeleted r.source origin ∧
      t.Accepts (.ofText? y) r.includeDeleted r.target target ∧
      requestedDepth r.maxDepth settings.shortestPathDepth = .ok depth ∧
      (r.askedBy y).Spoiled t origin target depth f

/-- A caller who is not served is refused where one is asked for who may read what is there. -/
theorem Widens.readable_of_not_serves (h : s.Widens x t y) (ht : t.Versioned .entity)
    (hserves : ¬t.Serves y) {includeDeleted : Bool} {id : Json} {row : Row .entity}
    {record : Record .entity} (ha : s.Accepts (.ofText? x) includeDeleted id row)
    (hdecode : row.decode = .ok record) :
    t.readable (.ofText? y) includeDeleted id =
      if row.acl = none then .ok record else .error .tooManyPrincipals := by
  have hnamed := ha.named
  have hrow := ha.entity
  rw [← h.sameChain] at hnamed
  rw [← h.rows] at hrow
  rw [readable_of_latest ht hnamed hrow ha.latest ha.deleted, hdecode, ok_bind, checkAccess,
    hasPermission_of_not_serves hserves]
  split <;> rfl

namespace Widens

variable {settings : SearchSettings} {cap : Int}

theorem traversalRule (h : s.Widens x t y) (hserves : t.Serves y) (r : TraversalRequest) (k : Kind)
    (row : Row k) (hadmits : ((r.askedBy x).rule s).Admits row) :
    ((r.askedBy y).rule t).Admits row :=
  ⟨hadmits.deleted, hadmits.isOfType, hadmits.holds, h.canRead hserves hadmits.canRead⟩

theorem pathRule (h : s.Widens x t y) (hserves : t.Serves y) (r : PathRequest) (k : Kind)
    (row : Row k) (hadmits : ((r.askedBy x).rule s).Admits row) :
    ((r.askedBy y).rule t).Admits row :=
  ⟨hadmits.deleted, hadmits.isOfType, hadmits.holds, h.canRead hserves hadmits.canRead⟩

/-- A caller who is not served is refused every traversal that might succeed. -/
theorem traverse_of_not_serves (h : s.Widens x t y) (hs : ∀ k, s.Versioned k)
    (ht : t.Versioned .entity) (hserves : ¬t.Serves y) {r : TraversalRequest} {found : Traversal}
    (hfound : s.traverse settings (r.askedBy x) = .ok found) :
    t.traverse settings (r.askedBy y) = .error .tooManyPrincipals := by
  obtain ⟨hdirection, hdepth, start, record, _, haccepts, hdecode, _, _, _, _, hrequest, _⟩ :=
    traverse_eq_ok hs hfound
  simp only [TraversalRequest.request, bind_eq_ok_iff] at hrequest
  obtain ⟨entityFilters, hentity, linkFilters, hlink, _⟩ := hrequest
  unfold TraversalRequest.askedBy at hdirection hdepth haccepts hentity hlink ⊢
  unfold Store.traverse
  dsimp only at hdirection hdepth haccepts hentity hlink ⊢
  rw [hdirection, hdepth, hentity, hlink, h.readable_of_not_serves ht hserves haccepts hdecode,
    readFilter_of_not_serves hserves settings.aclCap]
  simp only [ok_bind]
  split <;> rfl

theorem traverse (h : s.Widens x t y) (hs : ∀ k, s.Versioned k) (ht : ∀ k, t.Versioned k)
    (hcap : settings.aclCap = .int cap) (r : TraversalRequest) :
    s.TraversesNoLater x t y settings r := by
  intro found hfound
  obtain ⟨hdirection, hdepth, start, record, access, haccepts, hdecode, _, haccess, request, search,
    hrequest, hsearch, hvisits⟩ := traverse_eq_ok hs hfound
  by_cases hserves : t.Serves y
  · have haccepts' := h.accepts hserves haccepts
    obtain ⟨access', haccess'⟩ := readFilter_of_serves hserves cap
    rw [← hcap] at haccess'
    have hdepth' : requestedDepth (r.askedBy y).maxDepth settings.traversalDepth =
      .ok found.maxDepth := hdepth
    have hrequest' : (r.askedBy y).request = .ok request := hrequest
    change t.readFilter (r.askedBy y).user settings.aclCap = .ok access' at haccess'
    have hbegun : t.traverse settings (r.askedBy y) =
        (Search.run (t.readableNeighbors access' request) r.allPaths none found.direction.hops
          found.maxDepth record >>= fun search' => .ok ⟨record.id, found.direction, found.maxDepth,
            search'.visits, r.allPaths, search'.expanded⟩) := by
      rw [traverse_eq_bind (r := r.askedBy y) (ht .entity) haccepts' hdirection]
      simp only [hdepth', hrequest', hdecode, haccess', ok_bind]
      rfl
    have halike := searches_alike found.maxDepth r.allPaths hs ht
      (rule_of_request hrequest haccess) (rule_of_request hrequest' haccess')
      haccepts.entity haccepts.latest hdecode haccepts'.entity haccepts'.latest hdecode
      found.direction.hops_ne_nil found.direction.hops_ne_nil
    have hsearch' : Search.run (s.readableNeighbors access request) r.allPaths none
        found.direction.hops found.maxDepth record = .ok search := hsearch
    rw [hsearch'] at halike
    rw [hbegun]
    cases hrun : Search.run (t.readableNeighbors access' request) r.allPaths none
        found.direction.hops found.maxDepth record with
    | error f =>
      rw [hrun] at halike
      cases halike with
      | right _ hspoiled =>
        exact .inr (.inr ⟨f, start, found.direction, rfl, haccepts', hdirection,
          .inr ⟨found.maxDepth, request, hdepth, hrequest, hspoiled⟩⟩)
    | ok search' =>
      rw [hrun] at halike
      cases halike with
      | ok hfinished =>
        refine .inl ⟨_, rfl, fun v hv => ?_⟩
        rw [← hvisits] at hv
        exact h.listed_no_later (hs .entity) (ht .entity) (h.traversalRule hserves r)
          haccepts.entity haccepts.latest hdecode hfinished.1 hfinished.2 hv
  · exact .inr (.inl ⟨h.traverse_of_not_serves hs (ht .entity) hserves hfound, hserves⟩)

/-- A caller who is not served may only get a path that goes nowhere. -/
theorem shortestPath_of_not_serves (h : s.Widens x t y) (ht : t.Versioned .entity)
    (hserves : ¬t.Serves y) {r : PathRequest} {depth : Nat} {origin target : Row .entity}
    {originRecord targetRecord : Record .entity} {lookup : PathLookup}
    (hdepth : requestedDepth r.maxDepth settings.shortestPathDepth = .ok depth)
    (horigin : s.Accepts (.ofText? x) r.includeDeleted r.source origin)
    (horiginDecode : origin.decode = .ok originRecord)
    (htarget : s.Accepts (.ofText? x) r.includeDeleted r.target target)
    (htargetDecode : target.decode = .ok targetRecord) :
    (∃ p, t.shortestPath settings lookup (r.askedBy y) = .ok p ∧ p.hops.length = 1) ∨
      t.shortestPath settings lookup (r.askedBy y) = .error .tooManyPrincipals := by
  unfold Store.shortestPath PathRequest.askedBy
  dsimp only
  rw [hdepth, h.readable_of_not_serves ht hserves horigin horiginDecode,
    h.readable_of_not_serves ht hserves htarget htargetDecode,
    readFilter_of_not_serves hserves settings.aclCap, ok_bind]
  by_cases hpublic : origin.acl = none ∧ target.acl = none
  · rw [if_pos hpublic.1, if_pos hpublic.2, ok_bind, ok_bind]
    split
    · exact .inl ⟨_, rfl, rfl⟩
    · exact .inr rfl
  · refine .inr ?_
    split
    · rw [if_neg fun htarget => hpublic ⟨‹_›, htarget⟩]
      rfl
    · rfl

theorem shortestPath (h : s.Widens x t y) (hs : ∀ k, s.Versioned k) (ht : ∀ k, t.Versioned k)
    (hcap : settings.aclCap = .int cap) (r : PathRequest) : s.FindsNoLonger x t y settings r := by
  intro p hp
  obtain ⟨depth, origin, originRecord, target, targetRecord, hdepth, horigin, horiginDecode,
    htarget, htargetDecode⟩ := ends_of_shortestPath (hs .entity) hp
  obtain ⟨walk, hshortest, hle, hfollows⟩ := shortestPath_eq_ok hs hdepth horigin htarget hp
  have hdepth' : requestedDepth (r.askedBy y).maxDepth settings.shortestPathDepth = .ok depth :=
    hdepth
  by_cases hserves : t.Serves y
  · have horigin' := h.accepts hserves horigin
    have htarget' := h.accepts hserves htarget
    have hwalk' := h.walk (h.pathRule hserves r) hshortest.walk
    cases hp' : t.shortestPath settings (.ofStore t) (r.askedBy y) with
    | ok p' =>
      obtain ⟨walk', hshortest', _, hfollows'⟩ :=
        shortestPath_eq_ok ht hdepth' horigin' htarget' hp'
      refine .inl ⟨p', rfl, ?_⟩
      rw [hfollows'.length_hops, hfollows.length_hops]
      exact Nat.succ_le_succ (hshortest'.least _ hwalk')
    | error f =>
      rcases shortestPath_eq_error ht hdepth' horigin' htarget' hp' with
        ⟨_, hnone⟩ | hrefused | ⟨hdiffer, hpos, hrefused⟩ | hspoiled
      · exact absurd (hnone walk hwalk') (Nat.not_lt.2 hle)
      · obtain ⟨access', haccess'⟩ := readFilter_of_serves hserves cap
        rw [← hcap] at haccess'
        change t.readFilter (.ofText? y) settings.aclCap = .error f at hrefused
        rw [haccess'] at hrefused
        cases hrefused
      · exact absurd hp
          (shortestPath_ne_ok (hs .entity) horigin htarget hdepth hdiffer hpos hrefused p)
      · exact .inr (.inr ⟨f, origin, target, depth, rfl, horigin', htarget', hdepth, hspoiled⟩)
  · rcases h.shortestPath_of_not_serves (ht .entity) hserves hdepth horigin horiginDecode htarget
      htargetDecode with ⟨p', hp', hlength⟩ | hmany
    · refine .inl ⟨p', hp', ?_⟩
      rw [hlength, hfollows.length_hops]
      exact Nat.le_add_left _ _
    · exact .inr (.inl ⟨hmany, hserves⟩)

end Widens

end Store

end VersionedGraph
