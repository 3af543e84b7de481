import Mathlib
import VersionedGraph.Proofs.Alike
import VersionedGraph.Proofs.Listing
import VersionedGraph.Proofs.ShortestPath
import VersionedGraph.Proofs.Traversal
import VersionedGraph.Proofs.Visibility

/-!
# What searches do not show

A traversal and a search for a path come out the same in two stores that look alike to the caller,
and the same however many access lists a query may name. Only where access is left to be looked at
afterwards may a search end otherwise: what is kept from the caller is read all the same, and a
search that cannot read it fails (`Store.StumblesFrom`).
-/

namespace VersionedGraph

namespace Store

/-- A search from a row stumbles: fewer hops away than its depth it comes to an entity next to which
something that is kept from the caller cannot be read, while access is not part of queries. -/
def StumblesFrom (s : Store) (user cap : Json) (rule : HopRule) (directions : List HopDirection)
    (start : Row .entity) (depth : Nat) (f : Fault) : Prop :=
  ∃ access, s.readFilter user cap = .ok access ∧ ∃ (walk : List NeighborRow) (u : Row .entity),
    Walk (s.Crosses rule directions) start walk u ∧ walk.length < depth ∧
      ∃ d ∈ directions, s.Stumbles access rule d u.id f

end Store

/-- A traversal stumbles over something that is kept from the caller. -/
def TraversalRequest.Stumbles (s : Store) (settings : SearchSettings) (r : TraversalRequest)
    (f : Fault) : Prop :=
  ∃ start direction depth, s.Accepts r.user r.includeDeleted r.start start ∧
    Direction.given? r.direction = .ok (some direction) ∧
    Store.requestedDepth r.maxDepth settings.traversalDepth = .ok depth ∧
    s.StumblesFrom r.user settings.aclCap (r.rule s) direction.hops start depth f

/-- A search for a path stumbles over something that is kept from the caller. -/
def PathRequest.Stumbles (s : Store) (settings : SearchSettings) (r : PathRequest)
    (f : Fault) : Prop :=
  ∃ origin depth, s.Accepts r.user r.includeDeleted r.source origin ∧
    Store.requestedDepth r.maxDepth settings.shortestPathDepth = .ok depth ∧
    s.StumblesFrom r.user settings.aclCap (r.rule s) [.outbound] origin depth f

namespace Store

variable {s t : Store} {user cap cap' : Json} {access access' : AclFilter Int} {rule : HopRule}
  {directions : List HopDirection}

theorem Stumbles.unreadable {d : HopDirection} {id : String} {f : Fault}
    (h : s.Stumbles access rule d id f) : ∃ e, f = .unreadable e := by
  obtain ⟨_, n, _, _, hdecode⟩ := h
  rcases NeighborRow.decode_eq_error hdecode with hf | hf
  all_goals exact Version.exists_of_decode_eq_error hf

section

variable {r : HopRequest} {d : HopDirection} {u : Row .entity}

/-- What a search is given around an entity is alike in stores that look alike. -/
theorem readableNeighbors_alike (hs : ∀ k, s.Versioned k) (ht : ∀ k, t.Versioned k)
    (hlike : LooksLike user s t) (ha : s.readFilter user cap = .ok access)
    (hb : t.readFilter user cap' = .ok access') (hus : u ∈ s.rows .entity)
    (hut : u ∈ t.rows .entity) (hlatest : u.isLatest = true)
    (hrule : r.rule (s.CanRead user) = rule) :
    Alike
      (fun f => (r.filters ≠ [] ∧ ∃ e, f = .evaluation e) ∨ s.Stumbles access rule d u.id f)
      (fun f => (r.filters ≠ [] ∧ ∃ e, f = .evaluation e) ∨ t.Stumbles access' rule d u.id f)
      (fun ns ms => ns = ms ∧ ∀ n ∈ ns, ∃ row : NeighborRow, row.decode = .ok n ∧
        s.Hop rule d u.id row.link row.entity)
      (s.readableNeighbors access r d u.id) (t.readableNeighbors access' r d u.id) := by
  have hscases := readableNeighbors_cases hs hus hlatest access r d
  have htcases := readableNeighbors_cases ht hut hlatest access' r d
  have hread : rule.canRead = s.CanRead user := by
    rw [← hrule]
    rfl
  rw [lets_eq_canRead ha, hrule] at hscases
  rw [lets_eq_canRead hb, ← hlike.canRead, hrule, ← hlike.hop hread] at htcases
  rcases hscases with ⟨f, hprepare, hx⟩ | ⟨hfilters, e, hx⟩ | ⟨f, hstumbles, hx⟩ |
    ⟨⟨q, hprepare⟩, rows, hmem, hsorted, hx⟩
  · rw [hx]
    rcases htcases with ⟨f', hprepare', hy⟩ | ⟨hfilters, e, hy⟩ | ⟨f', hstumbles, hy⟩ |
      ⟨⟨q, hprepare'⟩, _⟩
    · rw [hprepare] at hprepare'
      cases hprepare'
      rw [hy]
      exact .error f
    · rw [hy]
      exact .right _ (.inl ⟨hfilters, e, rfl⟩)
    · rw [hy]
      exact .right _ (.inr hstumbles)
    · rw [hprepare] at hprepare'
      cases hprepare'
  · rw [hx]
    exact .left (.inl ⟨hfilters, e, rfl⟩) _
  · rw [hx]
    exact .left (.inr hstumbles) _
  · rcases htcases with ⟨f', hprepare', _⟩ | ⟨hfilters, e, hy⟩ | ⟨f', hstumbles, hy⟩ |
      ⟨_, rows', hmem', hsorted', hy⟩
    · rw [hprepare] at hprepare'
      cases hprepare'
    · rw [hy]
      exact .right _ (.inl ⟨hfilters, e, rfl⟩)
    · rw [hy]
      exact .right _ (.inr hstumbles)
    · -- Both stores give the same hops, and there is only one order for them.
      have hrows : rows = rows' :=
        NeighborRow.eq_of_pairwise_before hsorted hsorted' fun n => (hmem n).trans (hmem' n).symm
      rw [hx, hy, ← hrows]
      cases hdecode : rows.mapM NeighborRow.decode with
      | error f => exact .error f
      | ok ns =>
        refine .ok ⟨rfl, fun n hn => ?_⟩
        obtain ⟨row, hrow, hn⟩ := (mem_iff_of_mapM_eq_ok hdecode).1 hn
        exact ⟨row, hn, (hmem row).1 hrow⟩

/-- Searches from a row are alike in stores that look alike. -/
theorem search_alike (hs : ∀ k, s.Versioned k) (ht : ∀ k, t.Versioned k)
    (hlike : LooksLike user s t) (ha : s.readFilter user cap = .ok access)
    (hb : t.readFilter user cap' = .ok access') (hrule : r.rule (s.CanRead user) = rule)
    {start : Row .entity} (hus : start ∈ s.rows .entity) (hut : start ∈ t.rows .entity)
    (hlatest : start.isLatest = true) {record : Record .entity}
    (hdecode : start.decode = .ok record)
    (directions : List HopDirection) (allPaths : Bool) (goal : Option String) (depth : Nat) :
    Alike
      (fun f => (r.filters ≠ [] ∧ ∃ e, f = .evaluation e) ∨
        s.StumblesFrom user cap rule directions start depth f)
      (fun f => (r.filters ≠ [] ∧ ∃ e, f = .evaluation e) ∨
        t.StumblesFrom user cap' rule directions start depth f)
      Eq (Search.run (s.readableNeighbors access r) allPaths goal directions depth record)
      (Search.run (t.readableNeighbors access' r) allPaths goal directions depth record) := by
  have hread : rule.canRead = s.CanRead user := by
    rw [← hrule]
    rfl
  -- What is reached are rows of both stores, for the caller may read them.
  let reached (n : Nat) (id : String) : Prop :=
    ∃ (walk : List NeighborRow) (u : Row .entity), walk.length = n ∧ u.id = id ∧
      Walk (s.Crosses rule directions) start walk u ∧ u ∈ t.rows .entity
  refine Alike.run reached ?_ ⟨[], start, rfl, (id_of_decode hdecode).symm, .here start, hut⟩
  rintro n hn d hd id ⟨walk, u, rfl, rfl, hwalk, hu⟩
  obtain ⟨hus, hulatest⟩ := latest_of_walk hus hlatest hwalk
  have hwalk' : Walk (t.Crosses rule directions) start walk u := by
    rw [← hlike.crosses hread]
    exact hwalk
  have halike := readableNeighbors_alike (d := d) hs ht hlike ha hb hus hu hulatest hrule
  refine (halike.imp ?_ ?_).mono ?_
  · rintro f (hf | hf)
    · exact .inl hf
    · exact .inr ⟨access, ha, walk, u, hwalk, hn, d, hd, hf⟩
  · rintro f (hf | hf)
    · exact .inl hf
    · exact .inr ⟨access', hb, walk, u, hwalk', hn, d, hd, hf⟩
  · rintro ns ms ⟨rfl, hns⟩
    refine ⟨rfl, fun n hmem => ?_⟩
    obtain ⟨row, hdecode, hop⟩ := hns n hmem
    have hentity : row.entity ∈ t.rows .entity := by
      refine hlike.mem_of_canRead hop.entity ?_
      rw [← hread]
      exact hop.admitsEntity.canRead
    refine ⟨walk ++ [row], row.entity, by simp, ?_, .onward hwalk ⟨rfl, d, hd, hop⟩, hentity⟩
    exact (NeighborRow.step_of_decode hdecode).2.symm

end

/-! Whole requests. -/

theorem LooksLike.traversalRule {r : TraversalRequest} (h : LooksLike user s t) :
    r.rule t = r.rule s := by
  unfold TraversalRequest.rule
  rw [h.canRead]

theorem LooksLike.pathRule {r : PathRequest} (h : LooksLike user s t) : r.rule t = r.rule s := by
  unfold PathRequest.rule
  rw [h.canRead]

/-- The same callers are served, whatever it is that is left to be looked at afterwards. -/
theorem readFilter_alike {own own' : Fault → Prop}
    (hserved : ∀ f, s.readFilter user cap = .error f ↔ t.readFilter user cap' = .error f) :
    Alike own own' (fun _ _ => True) (s.readFilter user cap) (t.readFilter user cap') := by
  cases hs : s.readFilter user cap with
  | error f =>
    rw [(hserved f).1 hs]
    exact .error f
  | ok a =>
    cases ht : t.readFilter user cap' with
    | error f =>
      rw [(hserved f).2 ht] at hs
      cases hs
    | ok b => exact .ok trivial

/-- The latest version of what a value names is a row of another store as well. -/
def SharesNamed (s t : Store) (id : Json) : Prop :=
  ∀ text a, id.lookupText = .ok (some text) → s.latest? .entity text = some a →
    a ∈ t.rows .entity

/-- Traversals come out alike in stores that look alike and serve the caller alike. -/
theorem traverse_alike (hs : ∀ k, s.Versioned k) (ht : ∀ k, t.Versioned k)
    {settings : SearchSettings} {r : TraversalRequest} (hlike : LooksLike r.user s t)
    (hserved : ∀ f,
      s.readFilter r.user settings.aclCap = .error f ↔ t.readFilter r.user cap = .error f)
    (hshared : s.SharesNamed t r.start) :
    Alike (fun f => (∃ e, f = .evaluation e) ∨ r.Stumbles s settings f)
      (fun f => (∃ e, f = .evaluation e) ∨ r.Stumbles t { settings with aclCap := cap } f) Eq
      (s.traverse settings r) (t.traverse { settings with aclCap := cap } r) := by
  unfold traverse
  refine Alike.bind_same fun direction? hdirection => ?_
  refine Alike.bind_same fun depth hdepth => ?_
  refine Alike.bind_same fun entityFilters hentity => ?_
  refine Alike.bind_same fun linkFilters hlink => ?_
  refine (Alike.of_eq (hlike.readable (hs .entity) (ht .entity) hshared)).bind
    fun record _ hrecord _ heq => ?_
  subst heq
  refine (readFilter_alike hserved).bind fun access access' ha hb _ => ?_
  cases direction? with
  | none => exact .error _
  | some direction =>
    obtain ⟨start, haccepts, hdecode⟩ := (readable_eq_ok_iff (hs .entity)).1 hrecord
    have haccepts' := hlike.accepts (hs .entity) hshared haccepts
    have hsearch := search_alike hs ht hlike ha hb (rule_of_compiled s hentity hlink)
      haccepts.entity haccepts'.entity haccepts.latest hdecode direction.hops r.allPaths none depth
    refine Alike.bind (hsearch.imp ?_ ?_) ?_
    · rintro f (⟨_, hf⟩ | hf)
      · exact .inl hf
      · exact .inr ⟨start, direction, depth, haccepts, hdirection, hdepth, hf⟩
    · rintro f (⟨_, hf⟩ | hf)
      · exact .inl hf
      · rw [← hlike.traversalRule] at hf
        exact .inr ⟨start, direction, depth, haccepts', hdirection, hdepth, hf⟩
    · rintro search _ _ _ rfl
      exact .ok rfl

/-- Places are looked up alike for rows that are in both stores. -/
structure LooksUpAlike (s t : Store) (lookup lookup' : PathLookup) : Prop where
  entity : ∀ row ∈ s.rows .entity, row ∈ t.rows .entity →
    lookup.entity row.id = lookup'.entity row.id
  link : ∀ row ∈ s.rows .link, row ∈ t.rows .link → lookup.link row.id = lookup'.link row.id

theorem LooksUpAlike.requireEntity {lookup lookup' : PathLookup}
    (h : LooksUpAlike s t lookup lookup') {row : Row .entity} (hs : row ∈ s.rows .entity)
    (ht : row ∈ t.rows .entity) : lookup.requireEntity row.id = lookup'.requireEntity row.id := by
  unfold PathLookup.requireEntity
  rw [h.entity row hs ht]

/-- A step across a hop that the caller may cross is looked up alike. -/
theorem LooksUpAlike.hop {lookup lookup' : PathLookup} (h : LooksUpAlike s t lookup lookup')
    (hlike : LooksLike user s t) (hread : rule.canRead = s.CanRead user) {d : HopDirection}
    {id : String} {n : NeighborRow} (hop : s.Hop rule d id n.link n.entity) :
    lookup.hop n.step = lookup'.hop n.step := by
  have hop' := hop
  rw [hlike.hop hread] at hop'
  have hlink : lookup.requireLink n.link.id = lookup'.requireLink n.link.id := by
    unfold PathLookup.requireLink
    rw [h.link n.link hop.link hop'.link]
  unfold PathLookup.hop NeighborRow.step
  rw [h.requireEntity hop.entity hop'.entity, hlink]

/-- Searches for a path come out alike in stores that look alike and serve the caller alike. -/
theorem shortestPath_alike (hs : ∀ k, s.Versioned k) (ht : ∀ k, t.Versioned k)
    {settings : SearchSettings} {r : PathRequest} (hlike : LooksLike r.user s t)
    (hserved : ∀ f,
      s.readFilter r.user settings.aclCap = .error f ↔ t.readFilter r.user cap = .error f)
    (hsource : s.SharesNamed t r.source) (htarget : s.SharesNamed t r.target)
    {lookup lookup' : PathLookup} (hlookup : LooksUpAlike s t lookup lookup') :
    Alike (r.Stumbles s settings) (r.Stumbles t { settings with aclCap := cap }) Eq
      (s.shortestPath settings lookup r)
      (t.shortestPath { settings with aclCap := cap } lookup' r) := by
  unfold shortestPath
  refine Alike.bind_same fun depth hdepth => ?_
  refine (Alike.of_eq (hlike.readable (hs .entity) (ht .entity) hsource)).bind
    fun originRecord _ horigin _ heq => ?_
  subst heq
  refine (Alike.of_eq (hlike.readable (hs .entity) (ht .entity) htarget)).bind
    fun targetRecord _ htarget _ heq => ?_
  subst heq
  split
  · exact .ok rfl
  · next hdiffer =>
    refine (readFilter_alike hserved).bind fun access access' ha hb _ => ?_
    obtain ⟨origin, haccepts, hdecode⟩ := (readable_eq_ok_iff (hs .entity)).1 horigin
    obtain ⟨target, htaccepts, htdecode⟩ := (readable_eq_ok_iff (hs .entity)).1 htarget
    have haccepts' := hlike.accepts (hs .entity) hsource haccepts
    have hrule : HopRequest.rule { includeDeleted := r.includeDeleted, linkTypes := r.linkTypes }
        (s.CanRead r.user) = r.rule s := rfl
    have hsearch := search_alike hs ht hlike ha hb hrule haccepts.entity haccepts'.entity
      haccepts.latest hdecode [.outbound] false (some targetRecord.id) depth
    refine Alike.bind (hsearch.imp ?_ ?_) ?_
    · rintro f (⟨hfilters, _⟩ | hf)
      · exact absurd rfl hfilters
      · exact ⟨origin, depth, haccepts, hdepth, hf⟩
    · rintro f (⟨hfilters, _⟩ | hf)
      · exact absurd rfl hfilters
      · rw [← hlike.pathRule] at hf
        exact ⟨origin, depth, haccepts', hdepth, hf⟩
    · rintro search _ hfound _ rfl
      rw [id_of_decode hdecode, id_of_decode htdecode] at hdiffer
      rw [id_of_decode hdecode, id_of_decode htdecode]
      rw [id_of_decode htdecode] at hfound
      refine Alike.of_eq ?_
      have hcases := firstPath_cases hs ha haccepts.entity haccepts.latest hdecode htaccepts.entity
        (by rwa [id_of_decode hdecode]) hfound
      unfold Search.firstPath? at hcases
      rcases hcases with ⟨walk, hfirst, hwalk, _⟩ | ⟨hfirst, _⟩
      · have hplaces : (walk.map NeighborRow.step).mapM lookup.hop =
            (walk.map NeighborRow.step).mapM lookup'.hop := by
          refine mapM_congr fun step hstep => ?_
          obtain ⟨n, hn, rfl⟩ := List.mem_map.1 hstep
          obtain ⟨_, _, _, _, _, _, hop⟩ := hop_of_mem_walk hwalk.walk hn
          exact hlookup.hop hlike rfl hop
        rw [hfirst]
        dsimp only
        rw [hlookup.requireEntity haccepts.entity haccepts'.entity, hplaces]
      · rw [hfirst]

/-- Grants one user the permission to read. -/
def grantTo (user : String) : Json :=
  .arr [.obj [("principal_type", .str "user"), ("principal_id", .str user),
    ("permission", .str "read")]]

/-- A note that everyone may read cites another that only the second of two users may read. -/
def barring (properties : Json) : List (Operation × Stamp) :=
  [(.internAcl (grantTo "u"), ⟨"g", 1⟩), (.internAcl (grantTo "v"), ⟨"h", 2⟩),
    (.create (k := .entity) { typeId := .str "note", ends := () }, ⟨"a", 3⟩),
    (.create (k := .entity) { typeId := .str "note", ends := (), properties, acl := .int 2 },
      ⟨"b", 4⟩),
    (.create (k := .link) { typeId := .str "cites", ends := ⟨.str "a", .str "b"⟩ }, ⟨"l", 5⟩)]

/-- What is stored then, given the properties of the second note. -/
def barred (properties : String) : Store where
  entities :=
    [⟨"a", "note", (), "{}", .integer 1, none, .integer 3, none, false, true, none⟩,
      ⟨"b", "note", (), properties, .integer 1, none, .integer 4, none, false, true, some 2⟩]
  links :=
    [⟨"l", "cites", ⟨"a", "b"⟩, "{}", .integer 1, none, .integer 5, none, false, true, none⟩]
  acls :=
    [⟨"db9f2a8f99e08c1b351d15bcb73c9e522bf501081bffe69f40da6d16175267fc", [⟨⟨.user, "u"⟩, .read⟩]⟩,
      ⟨"858010bd6f54a234bb632843824715b8865cb0a2fa0c396cb2ecd91779ecc616", [⟨⟨.user, "v"⟩, .read⟩]⟩]

/-- The access lists are interned first, whatever is done then. -/
theorem after_granting (log : List (Operation × Stamp)) :
    empty.after ((.internAcl (grantTo "u"), ⟨"g", 1⟩) :: (.internAcl (grantTo "v"), ⟨"h", 2⟩) ::
      log) = { barred "{}" with entities := [], links := [] }.after log := by
  have hgranted : empty.after [(.internAcl (grantTo "u"), ⟨"g", 1⟩),
      (.internAcl (grantTo "v"), ⟨"h", 2⟩)] = { barred "{}" with entities := [], links := [] } := by
    decide +kernel
  rw [← hgranted, ← after_append]
  rfl

theorem after_barring : empty.after (barring (.obj [])) = barred "{}" ∧
    empty.after (barring (.str "oops")) = barred "oops" := by
  unfold barring
  rw [after_granting, after_granting]
  decide +kernel

theorem reachable_barred : (barred "{}").Reachable ∧ (barred "oops").Reachable :=
  ⟨⟨_, after_barring.1⟩, ⟨_, after_barring.2⟩⟩

/-- The limit on the access lists that queries name does not show: whether these are part of the
queries or looked at afterwards, a traversal and a search for a path come to the same, except that
one of which access is looked at afterwards may stumble over what is kept from the caller. This
takes for granted that filters can be evaluated. -/
theorem Reachable.searches_same_for_limits (h : s.Reachable) (settings : SearchSettings)
    (m n : Int) :
    (∀ r : TraversalRequest,
      (∀ e, s.traverse { settings with aclCap := .int m } r ≠ .error (.evaluation e)) →
      (∀ e, s.traverse { settings with aclCap := .int n } r ≠ .error (.evaluation e)) →
      Alike (r.Stumbles s { settings with aclCap := .int m })
        (r.Stumbles s { settings with aclCap := .int n }) Eq
        (s.traverse { settings with aclCap := .int m } r)
        (s.traverse { settings with aclCap := .int n } r)) ∧
    ∀ (r : PathRequest) (lookup : PathLookup),
      Alike (r.Stumbles s { settings with aclCap := .int m })
        (r.Stumbles s { settings with aclCap := .int n }) Eq
        (s.shortestPath { settings with aclCap := .int m } lookup r)
        (s.shortestPath { settings with aclCap := .int n } lookup r) := by
  have hv := h.versioned
  have hserved (user : Json) (f : Fault) :
      s.readFilter user (.int m) = .error f ↔ s.readFilter user (.int n) = .error f := by
    rw [readFilter_eq_error_iff, readFilter_eq_error_iff]
  have hshared (id : Json) : s.SharesNamed s id := fun _ _ _ hrow => (latest?_eq_some hrow).1
  constructor
  · intro r hm hn
    refine Alike.of_ne (traverse_alike hv hv (.refl r.user s) (hserved r.user) (hshared r.start))
      ?_ ?_
    · rintro _ ⟨e, rfl⟩
      exact hm e
    · rintro _ ⟨e, rfl⟩
      exact hn e
  · intro r lookup
    exact shortestPath_alike hv hv (.refl r.user s) (hserved r.user) (hshared r.source)
      (hshared r.target) ⟨fun _ _ _ => rfl, fun _ _ _ => rfl⟩

/-- The request of the first user for what is around the first note. -/
def besideBarred : TraversalRequest := { start := .str "a", user := .str "u" }

theorem ids_besideBarred :
    ((barred "{}").traverse { aclCap := .int 0 } besideBarred).map
        (fun t => t.visits.map (·.entity.id)) = .ok ["a"] ∧
      ((barred "{}").traverse {} besideBarred).map
        (fun t => t.visits.map (·.entity.id)) = .ok ["a"] ∧
      ((barred "oops").traverse {} besideBarred).map
        (fun t => t.visits.map (·.entity.id)) = .ok ["a"] := by
  refine ⟨by cbv, by cbv, by cbv⟩

/-- What is no document cannot be read, even if it is then kept from the caller. -/
theorem unreadable_besideBarred :
    (barred "oops").traverse { aclCap := .int 0 } besideBarred =
      .error (.unreadable (.located .expectingValue 1 1 0)) := by cbv

/-- Around a note that cites one kept from the caller there is nothing else, whether access is part
of the queries or looked at afterwards. -/
theorem traversal_same_beside_barred_note :
    (barred "{}").traverse { aclCap := .int 0 } besideBarred =
      (barred "{}").traverse { aclCap := .int 1000 } besideBarred := by
  obtain ⟨hnone, hmany, _⟩ := ids_besideBarred
  have halike := (Reachable.searches_same_for_limits reachable_barred.1 {} 0 1000).1 besideBarred
    (fun e => ne_error_of_map hnone (.evaluation e))
    (fun e => ne_error_of_map hmany (.evaluation e))
  exact halike.eq_of_map hnone hmany

/-- If what is kept from the caller is no document, it shows that access is looked at afterwards. -/
theorem traversal_differs_beside_barred_text :
    let s := empty.after (barring (.str "oops"))
    s.Reachable ∧
      s.traverse { aclCap := .int 0 } besideBarred ≠
        s.traverse { aclCap := .int 1000 } besideBarred ∧
      (s.traverse { aclCap := .int 0 } besideBarred =
        .error (.unreadable (.located .expectingValue 1 1 0))) ∧
      (s.traverse { aclCap := .int 1000 } besideBarred).map
        (fun t => t.visits.map (·.entity.id)) = .ok ["a"] := by
  intro s
  have hs : s = barred "oops" := after_barring.2
  obtain ⟨_, _, hmany⟩ := ids_besideBarred
  rw [hs, unreadable_besideBarred]
  exact ⟨reachable_barred.2, fun heq => ne_error_of_map hmany _ heq.symm, rfl, hmany⟩

/-- What a caller may not read does not show: in two stores that differ only in what is written on
such latest rows, a traversal and a search for a path by that caller come to the same, except that
one of which access is looked at afterwards may stumble over such rows. This takes for granted that
what the caller starts from and asks for is in both stores and that filters can be evaluated. -/
theorem LooksLike.searches_same (hlike : LooksLike user s t) (hs : ∀ k, s.Versioned k)
    (ht : ∀ k, t.Versioned k) (settings : SearchSettings) :
    (∀ r : TraversalRequest, r.user = user → s.SharesNamed t r.start →
      (∀ e, s.traverse settings r ≠ .error (.evaluation e)) →
      (∀ e, t.traverse settings r ≠ .error (.evaluation e)) →
      Alike (r.Stumbles s settings) (r.Stumbles t settings) Eq (s.traverse settings r)
        (t.traverse settings r)) ∧
    ∀ r : PathRequest, r.user = user → s.SharesNamed t r.source → s.SharesNamed t r.target →
      Alike (r.Stumbles s settings) (r.Stumbles t settings) Eq
        (s.shortestPath settings (.ofStore s) r) (t.shortestPath settings (.ofStore t) r) := by
  have hserved (f : Fault) : s.readFilter user settings.aclCap = .error f ↔
      t.readFilter user settings.aclCap = .error f := by
    rw [hlike.readFilter]
  have hlookup : LooksUpAlike s t (.ofStore s) (.ofStore t) := by
    refine ⟨fun row hrow hrow' => ?_, fun row hrow hrow' => ?_⟩
    · exact ((hs .entity).getExact_self hrow).trans ((ht .entity).getExact_self hrow').symm
    · exact ((hs .link).getExact_self hrow).trans ((ht .link).getExact_self hrow').symm
  constructor
  · rintro r rfl hshared hx hy
    refine Alike.of_ne (traverse_alike hs ht hlike hserved hshared) ?_ ?_
    · rintro _ ⟨e, rfl⟩
      exact hx e
    · rintro _ ⟨e, rfl⟩
      exact hy e
  · rintro r rfl hsource htarget
    exact shortestPath_alike hs ht hlike hserved hsource htarget hlookup

theorem barred_looksLike (properties properties' : String) :
    LooksLike (.str "u") (barred properties) (barred properties') := by
  have hshows (properties properties' : String) :
      ShowsIn (.str "u") (barred properties) (barred properties') := by
    intro k a ha
    cases k with
    | link => exact .inl ha
    | entity =>
      rcases List.mem_cons.1 ha with rfl | ha
      · exact .inl List.mem_cons_self
      · rw [List.mem_singleton.1 ha]
        refine .inr ⟨?_, _, List.mem_cons_of_mem _ List.mem_cons_self, rfl, rfl, rfl, rfl, rfl, rfl⟩
        have hdenied : (barred properties).hasPermission (.str "u") (.int 2) .read = .ok false := by
          cbv
        intro hread
        exact absurd (hdenied.symm.trans hread) (by simp)
  exact ⟨rfl, rfl, rfl, hshows _ _, hshows _ _⟩

theorem barred_sharesNamed (properties properties' : String) :
    (barred properties).SharesNamed (barred properties') besideBarred.start := by
  intro text row htext hrow
  cases htext
  have hfirst : (barred properties).latest? .entity "a" = (barred properties').entities.head? := by
    cbv
  exact List.mem_of_mem_head? (hfirst.symm.trans hrow)

/-- What is written on a note that is kept from the caller does not show. -/
theorem traversal_blind_to_barred_text :
    LooksLike (.str "u") (barred "oops") (barred "{}") ∧
      (barred "oops").traverse {} besideBarred = (barred "{}").traverse {} besideBarred := by
  have hlike := barred_looksLike "oops" "{}"
  obtain ⟨_, hplain, hoops⟩ := ids_besideBarred
  have halike := (hlike.searches_same reachable_barred.2.versioned reachable_barred.1.versioned
    {}).1 besideBarred rfl (barred_sharesNamed "oops" "{}")
    (fun e => ne_error_of_map hoops (.evaluation e))
    (fun e => ne_error_of_map hplain (.evaluation e))
  exact ⟨hlike, halike.eq_of_map hoops hplain⟩

/-- If it is no document, it shows when access is looked at afterwards. -/
theorem traversal_betrays_barred_text :
    (∀ k, (barred "oops").Versioned k) ∧ (∀ k, (barred "{}").Versioned k) ∧
      LooksLike (.str "u") (barred "oops") (barred "{}") ∧
      (barred "oops").SharesNamed (barred "{}") besideBarred.start ∧
      (barred "oops").traverse { aclCap := .int 0 } besideBarred ≠
        (barred "{}").traverse { aclCap := .int 0 } besideBarred ∧
      ((barred "oops").traverse { aclCap := .int 0 } besideBarred =
        .error (.unreadable (.located .expectingValue 1 1 0))) ∧
      ((barred "{}").traverse { aclCap := .int 0 } besideBarred).map
        (fun t => t.visits.map (·.entity.id)) = .ok ["a"] := by
  obtain ⟨hplain, _, _⟩ := ids_besideBarred
  refine ⟨reachable_barred.2.versioned, reachable_barred.1.versioned, barred_looksLike "oops" "{}",
    barred_sharesNamed "oops" "{}", ?_, unreadable_besideBarred, hplain⟩
  rw [unreadable_besideBarred]
  exact fun heq => ne_error_of_map hplain _ heq.symm

end Store

end VersionedGraph
