import VersionedGraph.Proofs.Unfolding

/-!
# Detours

A search that notes every path notes the first path to what it expands with each hop from there. So
of the walks that are no longer than its depth it notes exactly those that go by the first path to
where their last hop starts (`Search.Ground.noted_concat_iff`), and the others, which make a detour
before it, are not noted. To the start it notes, besides the path without hops, a path for each hop
that leads back to it, so the path without hops is the only one exactly if no walk within the depth
leads back (`Search.Ground.paths_of_start_iff`).
-/

namespace VersionedGraph

namespace Search

namespace Ground

variable {g : Ground} {s : Search} {maxDepth : Nat} {path : List Step} {step : Step}
  {x id : String}

/-- Where a walk within the depth leads was reached, and no later. -/
theorem Finished.exists_visit_of_walk (h : g.Finished maxDepth s) (hfound : s.found = false)
    (hwalk : Walk g.hop g.start.id path x) (hle : path.length ≤ maxDepth) :
    ∃ v ∈ s.visits, v.entity.id = x ∧ v.depth ≤ path.length := by
  obtain ⟨depth, _, hclosed, _, hall⟩ := h.closed
  rw [hall hfound] at hclosed
  obtain ⟨_, hdepth, v, hv, hid, rfl⟩ := hclosed.within_of_walk h.toSound hwalk hle
  exact ⟨v, hv, hid, hdepth⟩

/-- A walk is noted exactly if it goes by the first path to where its last hop starts. -/
theorem noted_concat_iff (hends : ∀ a step b, g.hop a step b → step.entity = b)
    (h : g.Finished maxDepth s) (hfound : s.found = false) (hrecorded : g.Recorded maxDepth s)
    (hwalk : Walk g.hop g.start.id path x) (hhop : g.hop x step id)
    (hlt : path.length < maxDepth) :
    s.Noted id (path ++ [step]) ↔ s.firstPath? x = some path := by
  obtain ⟨v, hv, rfl, hdepth⟩ := h.exists_visit_of_walk hfound hwalk (Nat.le_of_lt hlt)
  rw [hrecorded, h.firstPath?_of_mem hv, Option.some_inj]
  constructor
  · rintro (⟨_, hnil⟩ | ⟨u, hu, _, _, _, hpath⟩)
    · exact absurd hnil (List.concat_ne_nil step path)
    · obtain ⟨rfl, _⟩ := List.append_inj' hpath rfl
      -- Both entities are where the walk leads, and an entity is reached once.
      have huwalk := h.walk u hu u.node.2 (h.first u hu).1
      have hid : u.entity.id = v.entity.id :=
        (huwalk.getLastD_eq hends).symm.trans (hwalk.getLastD_eq hends)
      rw [List.inj_on_of_nodup_map h.nodup hu hv hid]
  · rintro rfl
    exact .inr ⟨v, hv, Nat.lt_of_le_of_lt hdepth hlt, step, hhop, rfl⟩

/-- The path without hops is the only one to the start exactly if no walk leads back to it. -/
theorem paths_of_start_iff (h : g.Finished maxDepth s) (hrecorded : g.Recorded maxDepth s)
    (htidy : Tidy maxDepth s) {v : Visit} (hv : v ∈ s.visits) (hid : v.entity.id = g.start.id) :
    v.paths = [[]] ↔
      ∀ path, Walk g.hop g.start.id path g.start.id → path.length ≤ maxDepth → path = [] := by
  constructor
  · intro hpaths path hwalk hle
    rcases List.eq_nil_or_concat' path with hnil | ⟨before, last, rfl⟩
    · exact hnil
    · obtain ⟨x, hbefore, hlast⟩ := hwalk.exists_of_concat
      rw [List.length_append, List.length_singleton] at hle
      -- Where the last hop starts was reached, so its first path with this hop is one to the start.
      obtain ⟨u, hu, rfl, hdepth⟩ :=
        h.exists_visit_of_walk htidy.searching hbefore (Nat.le_of_succ_le hle)
      have hnoted : s.Noted v.entity.id (u.node.2 ++ [last]) :=
        (hrecorded _ _).2 (.inr ⟨u, hu, by omega, last, hid ▸ hlast, rfl⟩)
      rw [h.noted_iff hv, hpaths, List.mem_singleton] at hnoted
      exact absurd hnoted (List.concat_ne_nil last u.node.2)
  · intro hback
    have hnil : ∀ path ∈ v.paths, path = [] := fun path hpath =>
      hback path (hid ▸ h.walk v hv path hpath) (htidy.bounded v hv path hpath)
    have hall : v.paths = List.replicate v.paths.length [] := List.eq_replicate_of_mem hnil
    have hnodup : (List.replicate v.paths.length ([] : List Step)).Nodup := hall ▸ htidy.nodup v hv
    have hone : v.paths.length = 1 :=
      Nat.le_antisymm (List.nodup_replicate.1 hnodup) (List.length_pos_iff.2 (htidy.paths v hv))
    rw [hall, hone]
    rfl

end Ground

end Search

namespace Store

variable {s : Store} {settings : SearchSettings} {r : TraversalRequest} {t : Traversal}
  {rule : HopRule} {directions : List HopDirection} {record : Record .entity}
  {goal : Option String} {search : Search}

theorem entity_of_ground_hop {a b : String} {step : Step}
    (h : (s.ground rule directions record goal).hop a step b) : step.entity = b := by
  obtain ⟨_, _, rfl, rfl⟩ := h
  rfl

/-- What was reached under the id of a row is the record of that row. -/
theorem decode_of_visit (h : s.Versioned .entity)
    (hsound : (s.ground rule directions record goal).Sound search) {v : Visit}
    (hv : v ∈ search.visits) {row : Row .entity} (hrow : row ∈ s.rows .entity)
    (hid : v.entity.id = row.id) : row.decode = .ok v.entity := by
  obtain ⟨row', hrow', _, hdecode⟩ := hsound.known v hv
  rw [← h.eq_of_id_eq hrow' hrow ((id_of_decode hdecode).symm.trans hid)]
  exact hdecode

/-- No walk of latest entities leads back to where it starts exactly if none of ids does. -/
theorem forall_walk_back_iff (h : s.Versioned .entity) {start : Row .entity}
    (hstart : start ∈ s.rows .entity) (hlatest : start.isLatest = true)
    (hdecode : start.decode = .ok record) {maxDepth : Nat} :
    (∀ path, Walk (s.ground rule directions record goal).hop record.id path record.id →
        path.length ≤ maxDepth → path = []) ↔
      ∀ hops, Walk (s.Crosses rule directions) start hops start →
        hops.length ≤ maxDepth → hops = [] := by
  rw [id_of_decode hdecode]
  constructor
  · intro hids hops hwalk hle
    have hnil := hids (hops.map NeighborRow.step)
      (walk_ground_iff.2 ⟨hops, start, hwalk, rfl, rfl⟩) (by rwa [List.length_map])
    exact List.map_eq_nil_iff.1 hnil
  · intro hrows path hwalk hle
    obtain ⟨hops, last, hcrosses, rfl, hid⟩ := walk_ground_iff.1 hwalk
    rw [h.eq_of_id_eq (latest_of_walk hstart hlatest hcrosses).1 hstart hid] at hcrosses
    rw [List.length_map] at hle
    rw [hrows hops hcrosses hle, List.map_nil]

namespace Searches

variable {start row : Row .entity} {hops : List NeighborRow}

theorem walk_ids (h : s.Searches r t start record search)
    (hwalk : Walk (s.Crosses (r.rule s) t.direction.hops) start hops row) :
    Walk (s.ground (r.rule s) t.direction.hops record none).hop record.id
      (hops.map NeighborRow.step) row.id := by
  rw [id_of_decode h.decode]
  exact walk_ground_iff.2 ⟨hops, row, hwalk, rfl, rfl⟩

/-- Where a walk within the depth leads is listed. -/
theorem exists_visit_of_walk (h : s.Searches r t start record search) (hs : s.Versioned .entity)
    (hwalk : Walk (s.Crosses (r.rule s) t.direction.hops) start hops row)
    (hle : hops.length ≤ t.maxDepth) :
    ∃ v ∈ search.visits, v.entity.id = row.id ∧ row.decode = .ok v.entity := by
  obtain ⟨v, hv, hid, _⟩ := h.finished.exists_visit_of_walk h.searching (h.walk_ids hwalk)
    (by rwa [List.length_map])
  have hrow := latest_of_walk h.accepts.entity h.accepts.latest hwalk
  exact ⟨v, hv, hid, decode_of_visit hs h.finished.toSound hv hrow.1 hid⟩

end Searches

/-- To the start of a traversal, which is listed first and only once, the first path is the one
without hops. It is the only one if one path to each entity is asked for, and otherwise exactly if
no walk within the depth leads back to the start. -/
theorem Reachable.traverse_paths_of_start (h : s.Reachable) (ht : s.traverse settings r = .ok t) :
    Direction.given? r.direction = .ok (some t.direction) ∧
    requestedDepth r.maxDepth settings.traversalDepth = .ok t.maxDepth ∧
    ∃ start first rest, s.Accepts r.user r.includeDeleted r.start start ∧
      t.visits = first :: rest ∧ start.decode = .ok first.entity ∧
      (∀ v ∈ rest, v.entity.id ≠ first.entity.id) ∧
      first.paths.head? = some [] ∧
      (first.paths = [[]] ↔ r.allPaths = false ∨
        ∀ hops, Walk (s.Crosses (r.rule s) t.direction.hops) start hops start →
          hops.length ≤ t.maxDepth → hops = []) := by
  have hv := h.versioned
  obtain ⟨hdirection, hdepth, _⟩ := traverse_eq_ok hv ht
  obtain ⟨start, record, search, hsearch⟩ := exists_searches hv ht
  have hfinished := hsearch.finished
  obtain ⟨first, rest, hlisted, hentity, hzero⟩ := hfinished.head
  have hfirst : first ∈ search.visits := hlisted ▸ List.mem_cons_self
  have hempty : first.node.2 = [] :=
    List.eq_nil_of_length_eq_zero ((hfinished.first first hfirst).2.trans hzero)
  have hhead : first.paths.head? = some [] := hempty ▸ hfinished.head?_paths hfirst
  have hids := hfinished.nodup
  rw [hlisted, List.map_cons, List.nodup_cons] at hids
  refine ⟨hdirection, hdepth, start, first, rest, hsearch.accepts, hsearch.visits ▸ hlisted, ?_,
    fun v hv hid => hids.1 (hid ▸ List.mem_map_of_mem hv), hhead, ?_⟩
  · rw [hentity]
    exact hsearch.decode
  · cases hpaths : r.allPaths with
    | false =>
      obtain ⟨_, _, hrun⟩ := hsearch.run
      rw [hpaths] at hrun
      have honce := Search.firstOnly_of_run hrun
      rw [hlisted, List.map_cons, List.cons.injEq] at honce
      have honly : first.paths.take 1 = first.paths := congrArg Visit.paths honce.1
      refine iff_of_true ?_ (.inl rfl)
      rw [← honly, List.take_one, hhead]
      rfl
    | true =>
      obtain ⟨hrecorded, htidy⟩ := hsearch.recorded hpaths
      rw [Search.Ground.paths_of_start_iff hfinished hrecorded htidy hfirst
        (congrArg Version.id hentity), or_iff_right Bool.noConfusion]
      exact forall_walk_back_iff (hv .entity) hsearch.accepts.entity hsearch.accepts.latest
        hsearch.decode

/-- The traversal around one of two notes that cite each other notes how it comes back to it, as
there is a way back. -/
theorem way_back_around_circuit :
    let request : TraversalRequest := { start := .str "a", maxDepth := .int 2, allPaths := true }
    ∃ t start hops, circuit.traverse {} request = .ok t ∧ start.id = "a" ∧
      Walk (circuit.Crosses (request.rule circuit) t.direction.hops) start hops start ∧
      hops.length ≤ 2 ∧ hops ≠ [] := by
  intro request
  have hlisted : (circuit.traverse {} request).map (fun t => (t.maxDepth,
      t.visits.map fun v => (v.entity.id, v.paths))) =
        .ok (2, [("a", [[], [⟨"ab", "b"⟩, ⟨"ba", "a"⟩]]), ("b", [[⟨"ab", "b"⟩]])]) := by cbv
  obtain ⟨t, ht, hlisted⟩ := map_eq_ok_iff.1 hlisted
  obtain ⟨hdepth, hvisits⟩ := Prod.mk.inj hlisted
  obtain ⟨_, _, start, first, rest, haccepts, hfirst, hdecode, _, _, hiff⟩ :=
    Reachable.traverse_paths_of_start reachable_circuit ht
  rw [hfirst, List.map_cons, List.cons.injEq] at hvisits
  obtain ⟨hid, hpaths⟩ := Prod.mk.inj hvisits.1
  have hmore : first.paths ≠ [[]] := by
    rw [hpaths]
    decide
  rw [ne_eq, hiff, not_or] at hmore
  obtain ⟨hops, hback⟩ := not_forall.1 hmore.2
  simp only [Classical.not_imp] at hback
  obtain ⟨hwalk, hle, hne⟩ := hback
  exact ⟨t, start, hops, ht, (id_of_decode hdecode).symm.trans hid, hwalk, hdepth ▸ hle, hne⟩

/-- To one of two notes that cite each other the traversal around it notes a second path, which
leads around. -/
theorem start_of_circuit_has_two_paths :
    let request : TraversalRequest := { start := .str "a", maxDepth := .int 2, allPaths := true }
    circuit.Reachable ∧ ∃ t v, circuit.traverse {} request = .ok t ∧ v ∈ t.visits ∧
      v.entity.id = t.start ∧ v.paths = [[], [⟨"ab", "b"⟩, ⟨"ba", "a"⟩]] ∧ v.paths ≠ [[]] := by
  intro request
  have hlisted : (circuit.traverse {} request).map (fun t => (t.start,
      t.visits[0]?.map fun v => (v.entity.id, v.paths))) =
        .ok ("a", some ("a", [[], [⟨"ab", "b"⟩, ⟨"ba", "a"⟩]])) := by cbv
  obtain ⟨t, ht, hlisted⟩ := map_eq_ok_iff.1 hlisted
  obtain ⟨hstart, hfirst⟩ := Prod.mk.inj hlisted
  obtain ⟨v, hv, hnoted⟩ := Option.map_eq_some_iff.1 hfirst
  obtain ⟨hid, hpaths⟩ := Prod.mk.inj hnoted
  refine ⟨reachable_circuit, t, v, ht, List.mem_of_getElem? hv, hid.trans hstart.symm, hpaths, ?_⟩
  rw [hpaths]
  decide

/-- A traversal that notes every path notes, of the walks with at least one hop and no more than it
may go, exactly those that go by the first path which it notes to where their last hop starts. -/
theorem Reachable.traverse_notes_walk_iff (h : s.Reachable) (hpaths : r.allPaths = true)
    (ht : s.traverse settings r = .ok t) :
    Direction.given? r.direction = .ok (some t.direction) ∧
    requestedDepth r.maxDepth settings.traversalDepth = .ok t.maxDepth ∧
    ∃ start, s.Accepts r.user r.includeDeleted r.start start ∧
      ∀ hops hop row,
        Walk (s.Crosses (r.rule s) t.direction.hops) start (hops ++ [hop]) row →
        (hops ++ [hop]).length ≤ t.maxDepth →
        ∃ origin, ∃ u ∈ t.visits, ∃ v ∈ t.visits,
          Walk (s.Crosses (r.rule s) t.direction.hops) start hops origin ∧
          s.Crosses (r.rule s) t.direction.hops origin hop row ∧
          origin.decode = .ok u.entity ∧ row.decode = .ok v.entity ∧
          ((hops ++ [hop]).map NeighborRow.step ∈ v.paths ↔
            u.paths.head? = some (hops.map NeighborRow.step)) := by
  have hv := h.versioned
  obtain ⟨hdirection, hdepth, _⟩ := traverse_eq_ok hv ht
  obtain ⟨start, record, search, hsearch⟩ := exists_searches hv ht
  have hfinished := hsearch.finished
  obtain ⟨hrecorded, _⟩ := hsearch.recorded hpaths
  rw [← hsearch.visits]
  refine ⟨hdirection, hdepth, start, hsearch.accepts, fun hops hop row hwalk hle => ?_⟩
  obtain ⟨origin, hbefore, hlast⟩ := hwalk.exists_of_concat
  have hlt : hops.length < t.maxDepth := by simpa using hle
  obtain ⟨u, hu, huid, hudecode⟩ :=
    hsearch.exists_visit_of_walk (hv .entity) hbefore (Nat.le_of_lt hlt)
  obtain ⟨v, hvisit, hvid, hvdecode⟩ := hsearch.exists_visit_of_walk (hv .entity) hwalk hle
  have hhop : (s.ground (r.rule s) t.direction.hops record none).hop origin.id hop.step row.id := by
    obtain ⟨rfl, hhop⟩ := hlast
    exact ⟨hop, hhop, rfl, rfl⟩
  have hnoted := Search.Ground.noted_concat_iff (fun _ _ _ => entity_of_ground_hop) hfinished
    hsearch.searching hrecorded (hsearch.walk_ids hbefore) hhop (by rwa [List.length_map])
  rw [← huid, ← hvid, hfinished.noted_iff hvisit, hfinished.firstPath?_of_mem hu] at hnoted
  refine ⟨origin, u, hu, v, hvisit, hbefore, hlast, hudecode, hvdecode, ?_⟩
  rw [List.map_append, List.map_singleton, hnoted, hfinished.head?_paths hu]

/-- Five notes, of which the fourth one is cited by two of the others and cites the last one. -/
def kite : Store where
  entities := diamond.entities ++
    [⟨"e", "note", (), "{}", .integer 1, none, .integer 9, none, false, true, none⟩]
  links := diamond.links ++
    [⟨"de", "cites", ⟨"d", "e"⟩, "{}", .integer 1, none, .integer 10, none, false, true, none⟩]

theorem reachable_kite : kite.Reachable := by
  obtain ⟨log, hlog⟩ := reachable_diamond
  refine ⟨log ++ [(.create (k := .entity) { typeId := .str "note", ends := () }, ⟨"e", 9⟩),
    (.create (k := .link) { typeId := .str "cites", ends := ⟨.str "d", .str "e"⟩ }, ⟨"de", 10⟩)],
    ?_⟩
  rw [after_append, hlog]
  decide +kernel

namespace kite

/-- Every path with at most three links from the first note is asked for. -/
def request : TraversalRequest := { start := .str "a", maxDepth := .int 3, allPaths := true }

/-- The hops from the first note to the fourth one by way of the third one, to which the first one
was linked after the second one. -/
def detour : List NeighborRow :=
  [⟨kite.links[1], kite.entities[2]⟩, ⟨kite.links[2], kite.entities[3]⟩]

/-- The hop from the fourth note to the last one. -/
def onward : NeighborRow := ⟨kite.links[4], kite.entities[4]⟩

theorem accepts_first :
    kite.Accepts request.user request.includeDeleted request.start kite.entities[0] :=
  ⟨⟨"a", rfl, .refl _⟩, List.getElem_mem _, rfl, .inr rfl, rfl⟩

theorem admits_of_acl_eq_none {k : Kind} {row : Row k} (hdeleted : row.isDeleted = false)
    (hacl : row.acl = none) : (request.rule kite).Admits row := by
  refine ⟨.inr hdeleted, ⟨[], by cases k <;> rfl, .inl rfl⟩, by cases k <;> exact nofun, ?_⟩
  rw [hacl]
  rfl

theorem walk_detour_onward : Walk (kite.Crosses (request.rule kite) [.outbound]) kite.entities[0]
    (detour ++ [onward]) kite.entities[4] := by
  have hcrosses (i j k : Fin 5) (hsource : kite.links[j].ends.source = kite.entities[i].id)
      (htarget : kite.links[j].ends.target = kite.entities[k].id) :
      kite.Crosses (request.rule kite) [.outbound] kite.entities[i]
        ⟨kite.links[j], kite.entities[k]⟩ kite.entities[k] := by
    have hplain : (∀ l ∈ kite.links, l.isLatest = true ∧ l.isDeleted = false ∧ l.acl = none) ∧
        ∀ v ∈ kite.entities, v.isLatest = true ∧ v.isDeleted = false ∧ v.acl = none := by decide
    obtain ⟨hlatest, hdeleted, hacl⟩ := hplain.1 _ (List.getElem_mem j.2)
    obtain ⟨hlatest', hdeleted', hacl'⟩ := hplain.2 _ (List.getElem_mem k.2)
    exact ⟨rfl, .outbound, List.mem_singleton_self _, List.getElem_mem _, hlatest,
      hsource ▸ .refl _, List.getElem_mem _, hlatest', htarget ▸ .refl _,
      admits_of_acl_eq_none hdeleted hacl, admits_of_acl_eq_none hdeleted' hacl'⟩
  have hfirst := hcrosses 0 1 2 rfl rfl
  have hsecond := hcrosses 2 2 3 rfl rfl
  have hlast := hcrosses 3 4 4 rfl rfl
  exact .onward (.onward (.onward (.here _) hfirst) hsecond) hlast

end kite

/-- The way on from the fourth note of the kite is not noted after the detour, as the first path to
that note is another one. -/
theorem detour_of_kite_not_noted :
    ∃ t u v, kite.traverse {} kite.request = .ok t ∧ u ∈ t.visits ∧ v ∈ t.visits ∧
      u.entity.id = "d" ∧ u.paths.head? = some [⟨"ab", "b"⟩, ⟨"bd", "d"⟩] ∧ v.entity.id = "e" ∧
      (kite.detour ++ [kite.onward]).map NeighborRow.step ∉ v.paths := by
  have hlisted : (kite.traverse {} kite.request).map (fun t => (t.direction, t.maxDepth,
      t.visits.map fun v => (v.entity.id, v.paths.head?))) =
        .ok (.outbound, 3, [("a", some []), ("b", some [⟨"ab", "b"⟩]), ("c", some [⟨"ac", "c"⟩]),
          ("d", some [⟨"ab", "b"⟩, ⟨"bd", "d"⟩]),
          ("e", some [⟨"ab", "b"⟩, ⟨"bd", "d"⟩, ⟨"de", "e"⟩])]) := by cbv
  obtain ⟨t, ht, hlisted⟩ := map_eq_ok_iff.1 hlisted
  obtain ⟨hdirection, hrest⟩ := Prod.mk.inj hlisted
  obtain ⟨hdepth, hvisits⟩ := Prod.mk.inj hrest
  obtain ⟨_, _, start, haccepts, hwalks⟩ := Reachable.traverse_notes_walk_iff reachable_kite rfl ht
  rw [haccepts.eq (reachable_kite.versioned .entity) kite.accepts_first, hdirection, hdepth]
    at hwalks
  obtain ⟨origin, u, hu, v, hv, hdetour, _, hudecode, hvdecode, hiff⟩ :=
    hwalks kite.detour kite.onward kite.entities[4] kite.walk_detour_onward (by decide)
  have horigin : (kite.detour.map NeighborRow.entity).getLastD kite.entities[0] = origin :=
    hdetour.getLastD_eq fun _ _ _ hhop => hhop.1
  rw [← horigin] at hudecode
  have huid : u.entity.id = "d" := id_of_decode hudecode
  have hfirst : (u.entity.id, u.paths.head?) ∈
      t.visits.map fun v => (v.entity.id, v.paths.head?) := List.mem_map_of_mem hu
  rw [hvisits, huid] at hfirst
  have hpath : u.paths.head? = some [⟨"ab", "b"⟩, ⟨"bd", "d"⟩] := by simpa using hfirst
  refine ⟨t, u, v, ht, hu, hv, huid, hpath, id_of_decode hvdecode, ?_⟩
  rw [hiff, hpath]
  decide

/-- Of the two walks to the last note of the kite, neither of which is too long or comes to a note
twice, the one with the detour is not noted. -/
theorem walk_of_kite_not_noted :
    kite.Reachable ∧ kite.request.allPaths = true ∧
    ∃ t start hops row v, kite.traverse {} kite.request = .ok t ∧
      kite.Accepts kite.request.user kite.request.includeDeleted kite.request.start start ∧
      Walk (kite.Crosses (kite.request.rule kite) t.direction.hops) start hops row ∧
      (start.id :: hops.map (·.entity.id)).Nodup ∧ 1 ≤ hops.length ∧ hops.length ≤ t.maxDepth ∧
      v ∈ t.visits ∧ row.decode = .ok v.entity ∧ hops.map NeighborRow.step ∉ v.paths := by
  have hlisted : (kite.traverse {} kite.request).map (fun t => (t.direction, t.maxDepth,
      t.visits[4]?.map fun v => (v.entity, v.paths))) =
        .ok (.outbound, 3, some (kite.entities[4].withProperties (.obj []),
          [[⟨"ab", "b"⟩, ⟨"bd", "d"⟩, ⟨"de", "e"⟩]])) := by cbv
  obtain ⟨t, ht, hlisted⟩ := map_eq_ok_iff.1 hlisted
  obtain ⟨hdirection, hrest⟩ := Prod.mk.inj hlisted
  obtain ⟨hdepth, hlast⟩ := Prod.mk.inj hrest
  obtain ⟨v, hv, hnoted⟩ := Option.map_eq_some_iff.1 hlast
  obtain ⟨hentity, hpaths⟩ := Prod.mk.inj hnoted
  refine ⟨reachable_kite, rfl, t, kite.entities[0], kite.detour ++ [kite.onward], kite.entities[4],
    v, ht, kite.accepts_first, ?_, by decide, by decide, ?_, List.mem_of_getElem? hv, ?_, ?_⟩
  · rw [hdirection]
    exact kite.walk_detour_onward
  · rw [hdepth]
    decide
  · rw [hentity]
    exact Version.decode_of_empty rfl
  · rw [hpaths]
    decide

end Store

end VersionedGraph
