import VersionedGraph.Proofs.ShortestPath
import VersionedGraph.Proofs.Stopping

/-!
# Shortest paths among what a traversal lists

A path is the first path by which a traversal around its source, as far and across the same hops,
lists its target. The two searches are separate: the one for a path stops at the target
(`Search.Outruns`), and all that it has crossed by then can be looked up again (`Store.LooksUp`).
-/

namespace VersionedGraph

/-- The traversal around the source of a path, as far as the path may go. -/
def PathRequest.around (r : PathRequest) (allPaths : Bool) : TraversalRequest where
  start := r.source
  user := r.user
  maxDepth := r.maxDepth
  linkTypes := r.linkTypes
  includeDeleted := r.includeDeleted
  allPaths := allPaths

theorem PathRequest.request_around (r : PathRequest) (allPaths : Bool) :
    (r.around allPaths).request = .ok r.request :=
  rfl

/-- The step by which a place of a path was reached, if it was by any. -/
def PathHop.step? (h : PathHop) : Option Step :=
  h.link.map fun link => ⟨link.id, h.entity.id⟩

namespace ShortestPath

def steps (p : ShortestPath) : List Step :=
  p.hops.filterMap PathHop.step?

/-- The number of links that are crossed. -/
def length (p : ShortestPath) : Nat :=
  p.hops.length - 1

end ShortestPath

namespace Search

variable {g : Ground}

/-- A ground on which only some steps are hops. -/
def Ground.restrict (g : Ground) (P : Step → Prop) : Ground :=
  { g with hop := fun id step id' => g.hop id step id' ∧ P step }

theorem Ground.Lists.restrict {P : Step → Prop}
    {list : HopDirection → String → Except Fault (List Neighbor)} {directions : List HopDirection}
    (h : g.Lists list directions)
    (hP : ∀ d ∈ directions, ∀ e, g.known e → ∀ ns, list d e.id = .ok ns → ∀ n ∈ ns, P n.step) :
    (g.restrict P).Lists list directions where
  known := h.known
  hop d hd e he ns hns n hn := ⟨h.hop d hd e he ns hns n hn, hP d hd e he ns hns n hn⟩
  complete e he step id hhop := h.complete e he step id hhop.1

end Search

namespace Store

/-- A step can be looked up, and the place that is found tells it. -/
def LooksUp (s : Store) (step : Step) : Prop :=
  ∃ place, (PathLookup.ofStore s).hop step = .ok place ∧ place.step? = some step

variable {s : Store} {access : AclFilter Int} {r : HopRequest} {origin target : Row .entity}
  {record : Record .entity} {directions : List HopDirection} {allPaths : Bool}
  {goal : Option String} {depth : Nat}

theorem looksUp_of_readableNeighbors (h : ∀ k, s.Versioned k) {u : Row .entity}
    (hu : u ∈ s.rows .entity) (hlatest : u.isLatest = true) {d : HopDirection} {ns : List Neighbor}
    (hns : s.readableNeighbors access r d u.id = .ok ns) {n : Neighbor} (hn : n ∈ ns) :
    s.LooksUp n.step := by
  obtain ⟨row, hdecode, hhop⟩ := (readableNeighbors_spec h hu hlatest hns).1 n hn
  obtain ⟨hlink, hentity⟩ := NeighborRow.decode_eq_ok_iff.1 hdecode
  refine ⟨⟨n.entity, some n.link⟩, ?_, rfl⟩
  rw [(NeighborRow.step_of_decode hdecode).1, hop_step h hhop.link hhop.entity, NeighborRow.place,
    hentity, hlink]
  rfl

/-- All that a search crosses on its way to anything can be looked up again. -/
theorem looksUp_of_run (h : ∀ k, s.Versioned k) (horigin : origin ∈ s.rows .entity)
    (hlatest : origin.isLatest = true) (hdecode : origin.decode = .ok record)
    (hgoal : goal ≠ some record.id) {search : Search}
    (hsearch : Search.run (s.readableNeighbors access r) allPaths goal directions depth record =
      .ok search) {id : String} {steps : List Step} (hfirst : search.firstPath? id = some steps) :
    ∀ step ∈ steps, s.LooksUp step := by
  have hlists : (s.ground (r.rule access.Lets) directions record goal).Lists
      (s.readableNeighbors access r) directions := lists_ground h
  have hkept := hlists.restrict (P := s.LooksUp) (by
    rintro d _ e ⟨u, hu, hulatest, he⟩ ns hns n hn
    rw [id_of_decode he] at hns
    exact looksUp_of_readableNeighbors h hu hulatest hns hn)
  have hfinished := Search.Ground.finished_run hkept ⟨origin, horigin, hlatest, hdecode⟩ hgoal
    hsearch
  obtain ⟨v, hv, _, hhead⟩ := Search.exists_of_firstPath? hfirst
  intro step hstep
  obtain ⟨_, _, _, _, _, _, hlooks⟩ :=
    (hfinished.walk v hv steps (List.mem_of_mem_head? hhead)).exists_hop_of_mem hstep
  exact hlooks

/-- Where a search for nothing in particular comes to an end, so does one that stops at a goal, with
the same first path to it. -/
theorem exists_run_of_run (h : ∀ k, s.Versioned k) (horigin : origin ∈ s.rows .entity)
    (hlatest : origin.isLatest = true) (hdecode : origin.decode = .ok record) {goal : String}
    (hgoal : record.id ≠ goal) {search : Search}
    (hsearch : Search.run (s.readableNeighbors access r) allPaths none directions depth record =
      .ok search) :
    ∃ stopped, Search.run (s.readableNeighbors access r) false (some goal) directions depth record =
      .ok stopped ∧ stopped.firstPath? goal = search.firstPath? goal := by
  have houtruns := Search.Outruns.run (s.readableNeighbors access r) allPaths goal directions depth
    record
  rw [hsearch] at houtruns
  cases hstop : Search.run (s.readableNeighbors access r) false (some goal) directions depth
      record with
  | error f =>
    rw [hstop] at houtruns
    cases houtruns
  | ok stopped =>
    rw [hstop] at houtruns
    cases houtruns with
    | ok hheralds =>
      have hfinished := finished_of_run h horigin hlatest hdecode
        (fun hsome => hgoal (Option.some.inj hsome).symm) hstop
      refine ⟨stopped, rfl, hheralds.firstPath?_eq fun hfound => ?_⟩
      obtain ⟨v, hv, hsome⟩ := hfinished.found.1 hfound
      exact ⟨v, hv, (Option.some.inj hsome).symm⟩

/-- Where a search for nothing in particular fails, one that stops at a goal has found it before or
fails, too. -/
theorem run_of_run_eq_error (h : ∀ k, s.Versioned k) (horigin : origin ∈ s.rows .entity)
    (hlatest : origin.isLatest = true) (hdecode : origin.decode = .ok record) {goal : String}
    (hgoal : record.id ≠ goal) {f : Fault}
    (hf : Search.run (s.readableNeighbors access r) allPaths none directions depth record =
      .error f) :
    Search.run (s.readableNeighbors access r) false (some goal) directions depth record = .error f ∨
      ∃ stopped steps, Search.run (s.readableNeighbors access r) false (some goal) directions depth
        record = .ok stopped ∧ stopped.firstPath? goal = some steps := by
  have houtruns := Search.Outruns.run (s.readableNeighbors access r) allPaths goal directions depth
    record
  rw [hf] at houtruns
  cases hstop : Search.run (s.readableNeighbors access r) false (some goal) directions depth
      record with
  | error f' =>
    rw [hstop] at houtruns
    cases houtruns
    exact .inl rfl
  | ok stopped =>
    rw [hstop] at houtruns
    cases houtruns with
    | found hfound =>
      have hfinished := finished_of_run h horigin hlatest hdecode
        (fun hsome => hgoal (Option.some.inj hsome).symm) hstop
      obtain ⟨v, hv, hsome⟩ := hfinished.found.1 hfound
      have hpath := hfinished.firstPath?_of_mem hv
      rw [← Option.some.inj hsome] at hpath
      exact .inr ⟨stopped, _, rfl, hpath⟩

theorem filterMap_step?_of_looksUp {steps : List Step} {places : List PathHop}
    (hplaces : steps.mapM (PathLookup.ofStore s).hop = .ok places)
    (hlooks : ∀ step ∈ steps, s.LooksUp step) : places.filterMap PathHop.step? = steps := by
  rw [mapM_eq_ok_iff] at hplaces
  induction hplaces with
  | nil => rfl
  | @cons step place _ _ hplace _ ih =>
    obtain ⟨place', hplace', hstep⟩ := hlooks step List.mem_cons_self
    rw [hplace] at hplace'
    cases hplace'
    have hrest := ih fun step hstep => hlooks step (List.mem_cons_of_mem _ hstep)
    rw [List.filterMap_cons_some hstep, hrest]

variable {settings : SearchSettings} {r : PathRequest} {originRecord targetRecord : Record .entity}

/-- What a traversal around the source of a path does. -/
theorem traverse_around_eq_bind (h : s.Versioned .entity)
    (horigin : s.Accepts r.user r.includeDeleted r.source origin) (allPaths : Bool) :
    s.traverse settings (r.around allPaths) = do
      let depth ← requestedDepth r.maxDepth settings.traversalDepth
      let record ← origin.decode
      let access ← s.readFilter r.user settings.aclCap
      let search ← Search.run (s.readableNeighbors access r.request) allPaths none [.outbound] depth
        record
      return ⟨record.id, .outbound, depth, search.visits, allPaths, search.expanded⟩ := by
  exact traverse_eq_bind (r := r.around allPaths) h horigin rfl

theorem spoiled_around (allPaths : Bool)
    (hdepth : requestedDepth r.maxDepth settings.traversalDepth = .ok depth)
    {access : AclFilter Int} (haccess : s.readFilter r.user settings.aclCap = .ok access)
    {f : Fault} (hfrom : s.SpoiledFrom r.request.filters (r.request.rule access.Lets) [.outbound]
      origin depth f) : (r.around allPaths).Spoiled s settings origin .outbound f := by
  have hrule : r.request.rule access.Lets = (r.around allPaths).rule s :=
    rule_of_request (r.request_around allPaths) haccess
  rw [hrule] at hfrom
  exact .inr ⟨depth, r.request, hdepth, r.request_around allPaths, hfrom⟩

section

variable (h : ∀ k, s.Versioned k)
  (hdepth : requestedDepth r.maxDepth settings.shortestPathDepth = .ok depth)
  (horigin : s.Accepts r.user r.includeDeleted r.source origin)
  (htarget : s.Accepts r.user r.includeDeleted r.target target)
  (horiginDecode : origin.decode = .ok originRecord)

include h hdepth horigin htarget horiginDecode

/-- The first path that the search finds to the target is handed out. -/
theorem exists_shortestPath
    (htargetDecode : target.decode = .ok targetRecord) (hdiffer : originRecord.id ≠ targetRecord.id)
    {access : AclFilter Int} (haccess : s.readFilter r.user settings.aclCap = .ok access)
    {search : Search}
    (hsearch : Search.run (s.readableNeighbors access r.request) false (some targetRecord.id)
      [.outbound] depth originRecord = .ok search) {steps : List Step}
    (hfirst : search.firstPath? targetRecord.id = some steps) :
    ∃ p, s.shortestPath settings (.ofStore s) r = .ok p ∧ p.steps = steps ∧
      p.length = steps.length := by
  have hlooks := looksUp_of_run h horigin.entity horigin.latest horiginDecode
    (fun hsome => hdiffer (Option.some.inj hsome).symm) hsearch hfirst
  have hplace (step : Step) (hstep : step ∈ steps) :
      ∃ place, (PathLookup.ofStore s).hop step = .ok place := by
    obtain ⟨place, hplace, _⟩ := hlooks step hstep
    exact ⟨place, hplace⟩
  obtain ⟨places, hplaces⟩ := exists_mapM_eq_ok hplace
  have hfirst' : (PathLookup.ofStore s).requireEntity originRecord.id = .ok originRecord := by
    rw [id_of_decode horiginDecode, requireEntity_self (h .entity) horigin.entity, horiginDecode]
  refine ⟨⟨originRecord.id, targetRecord.id, ⟨originRecord, none⟩ :: places, search.expanded⟩, ?_,
    (List.filterMap_cons_none rfl).trans (filterMap_step?_of_looksUp hplaces hlooks),
    (List.Forall₂.length_eq (mapM_eq_ok_iff.1 hplaces)).symm⟩
  rw [shortestPath_eq_bind (h .entity) hdepth horigin htarget, horiginDecode, htargetDecode,
    ok_bind, ok_bind, if_neg hdiffer, haccess, ok_bind, hsearch, ok_bind, hfirst]
  simp only [hfirst', hplaces, ok_bind]
  rfl

/-- Where the source and the target are one, there is a path that crosses nothing. -/
theorem exists_shortestPath_of_eq
    (htargetDecode : target.decode = .ok targetRecord) (hsame : originRecord.id = targetRecord.id)
    (lookup : PathLookup) :
    ∃ p, s.shortestPath settings lookup r = .ok p ∧ p.steps = [] ∧ p.length = 0 := by
  refine ⟨⟨originRecord.id, targetRecord.id, [⟨originRecord, none⟩], []⟩, ?_, rfl, rfl⟩
  rw [shortestPath_eq_bind (h .entity) hdepth horigin htarget, horiginDecode, htargetDecode,
    ok_bind, ok_bind, if_pos hsame]
  rfl

/-- Where the traversal comes to an end and lists the target, the search for a path hands out the
first path to it. -/
theorem shortestPath_of_visit {access : AclFilter Int}
    (haccess : s.readFilter r.user settings.aclCap = .ok access) {search : Search}
    (hsearch : Search.run (s.readableNeighbors access r.request) allPaths none [.outbound] depth
      originRecord = .ok search) {v : Visit} (hv : v ∈ search.visits)
    (htargetDecode : target.decode = .ok v.entity) :
    ∃ p, s.shortestPath settings (.ofStore s) r = .ok p ∧ v.paths.head? = some p.steps ∧
      p.length = v.depth := by
  have hfinished := finished_of_run h horigin.entity horigin.latest horiginDecode
    (Option.some_ne_none _).symm hsearch
  have hlength := (hfinished.first v hv).2
  rw [hfinished.head?_paths hv]
  by_cases hsame : originRecord.id = v.entity.id
  · obtain ⟨p, hp, hsteps, hzero⟩ := exists_shortestPath_of_eq h hdepth horigin htarget
      horiginDecode htargetDecode hsame (.ofStore s)
    obtain ⟨first, rest, hvisits, hentity, hfirst⟩ := hfinished.head
    have hv' : v = first := by
      refine List.inj_on_of_nodup_map hfinished.nodup hv (by simp [hvisits]) ?_
      rw [hentity]
      exact hsame.symm
    rw [← hv'] at hfirst
    rw [hfirst, List.length_eq_zero_iff] at hlength
    exact ⟨p, hp, by rw [hsteps, hlength], hzero.trans hfirst.symm⟩
  · obtain ⟨stopped, hstop, hfirst⟩ := exists_run_of_run h horigin.entity horigin.latest
      horiginDecode hsame hsearch
    rw [hfinished.firstPath?_of_mem hv] at hfirst
    obtain ⟨p, hp, hsteps, hsame⟩ := exists_shortestPath h hdepth horigin htarget horiginDecode
      htargetDecode hsame haccess hstop hfirst
    exact ⟨p, hp, by rw [hsteps], hsame.trans hlength⟩

/-- Where the traversal comes to an end and a path is handed out, the target is listed. -/
theorem exists_visit_of_shortestPath {access : AclFilter Int}
    (haccess : s.readFilter r.user settings.aclCap = .ok access) {search : Search}
    (hsearch : Search.run (s.readableNeighbors access r.request) allPaths none [.outbound] depth
      originRecord = .ok search) {lookup : PathLookup} {p : ShortestPath}
    (hp : s.shortestPath settings lookup r = .ok p) :
    ∃ v ∈ search.visits, target.decode = .ok v.entity := by
  have hfinished := finished_of_run h horigin.entity horigin.latest horiginDecode
    (Option.some_ne_none _).symm hsearch
  have hlisted : ∃ v ∈ search.visits, v.entity.id = target.id := by
    by_contra hmissed
    push Not at hmissed
    rw [shortestPath_eq_bind (h .entity) hdepth horigin htarget, horiginDecode, ok_bind,
      bind_eq_ok_iff] at hp
    obtain ⟨targetRecord, htargetDecode, hp⟩ := hp
    rw [id_of_decode htargetDecode] at hp
    have hdiffer : originRecord.id ≠ target.id := by
      obtain ⟨first, rest, hvisits, hentity, _⟩ := hfinished.head
      have hfirst := hmissed first (by simp [hvisits])
      rw [hentity] at hfirst
      exact hfirst
    obtain ⟨stopped, hstop, hfirst⟩ := exists_run_of_run h horigin.entity horigin.latest
      horiginDecode hdiffer hsearch
    rw [Search.firstPath?_eq_none hmissed] at hfirst
    rw [if_neg hdiffer, haccess, ok_bind, hstop, ok_bind, hfirst] at hp
    cases hp
  obtain ⟨v, hv, hid⟩ := hlisted
  obtain ⟨row, hrow, _, hdecode⟩ := hfinished.known v hv
  have hsame : row = target :=
    (h .entity).eq_of_id_eq hrow htarget.entity ((id_of_decode hdecode).symm.trans hid)
  rw [hsame] at hdecode
  exact ⟨v, hv, hdecode⟩

/-- What a search for a path comes to beside a traversal that fails, given what it comes to where
the target can be read and is not the source. -/
theorem shortestPath_cases (lookup : PathLookup) {f : Fault} {P : Prop}
    (hdiffer : ∀ targetRecord, target.decode = .ok targetRecord →
      originRecord.id ≠ targetRecord.id → s.shortestPath settings lookup r = .error f ∨
        (∃ p, s.shortestPath settings lookup r = .ok p) ∧ P) :
    s.shortestPath settings lookup r = .error f ∨
      (∃ f', target.decode = .error f' ∧ s.shortestPath settings lookup r = .error f') ∨
      (∃ p, s.shortestPath settings lookup r = .ok p) ∧ (origin.id = target.id ∨ P) := by
  cases htargetDecode : target.decode with
  | error f' =>
    refine .inr (.inl ⟨f', rfl, ?_⟩)
    rw [shortestPath_eq_bind (h .entity) hdepth horigin htarget, horiginDecode, htargetDecode]
    rfl
  | ok targetRecord =>
    by_cases hsame : originRecord.id = targetRecord.id
    · obtain ⟨p, hp, _⟩ := exists_shortestPath_of_eq h hdepth horigin htarget horiginDecode
        htargetDecode hsame lookup
      rw [id_of_decode horiginDecode, id_of_decode htargetDecode] at hsame
      exact .inr (.inr ⟨⟨p, hp⟩, .inl hsame⟩)
    · rcases hdiffer targetRecord htargetDecode hsame with hf | ⟨hp, hP⟩
      · exact .inl hf
      · exact .inr (.inr ⟨hp, .inr hP⟩)

/-- Where the traversal fails in its search, the search for a path fails with the same fault, unless
the target cannot be read or is found before. -/
theorem shortestPath_of_run_eq_error
    (htargetDecode : target.decode = .ok targetRecord) (hdiffer : originRecord.id ≠ targetRecord.id)
    {access : AclFilter Int} (haccess : s.readFilter r.user settings.aclCap = .ok access)
    {f : Fault} (hf : Search.run (s.readableNeighbors access r.request) allPaths none [.outbound]
      depth originRecord = .error f) :
    s.shortestPath settings (.ofStore s) r = .error f ∨
      ((∃ p, s.shortestPath settings (.ofStore s) r = .ok p) ∧
        s.SpoiledFrom r.request.filters (r.request.rule access.Lets) [.outbound] origin depth
          f) := by
  have hfails (hstop : Search.run (s.readableNeighbors access r.request) false
      (some targetRecord.id) [.outbound] depth originRecord = .error f) :
      s.shortestPath settings (.ofStore s) r = .error f := by
    rw [shortestPath_eq_bind (h .entity) hdepth horigin htarget, horiginDecode, htargetDecode,
      ok_bind, ok_bind, if_neg hdiffer, haccess, ok_bind, hstop]
    rfl
  rcases spoiledFrom_of_run h horigin.entity horigin.latest horiginDecode (by exact nofun) hf with
    ⟨hpos, hrefused⟩ | hspoiled
  · exact .inl (hfails (run_of_prepare_eq_error hrefused hpos (List.cons_ne_nil _ _) _))
  · rcases run_of_run_eq_error h horigin.entity horigin.latest horiginDecode hdiffer hf with
      hstop | ⟨stopped, steps, hstop, hfirst⟩
    · exact .inl (hfails hstop)
    · obtain ⟨p, hp, _⟩ := exists_shortestPath h hdepth horigin htarget horiginDecode htargetDecode
        hdiffer haccess hstop hfirst
      exact .inr ⟨⟨p, hp⟩, hspoiled⟩

end

theorem requestedDepth_int (d : Int) (configured : Json) :
    requestedDepth (.int d) configured =
      if 0 ≤ d ∧ d ≤ maxSearchDepth then .ok d.toNat else .error .depthOutOfRange := by
  change checkDepth (.int d) = _
  rw [checkDepth]
  simp only [Bool.and_eq_true, decide_eq_true_eq]

section

variable (h : ∀ k, s.Versioned k) {depth : Nat}
  (hdepth : ∀ configured, requestedDepth r.maxDepth configured = .ok depth)
  (horigin : s.Accepts r.user r.includeDeleted r.source origin)
  (htarget : s.Accepts r.user r.includeDeleted r.target target) (allPaths : Bool)

include h hdepth horigin htarget

/-- Beside a traversal that comes to an end. -/
theorem shortestPath_of_traverse {found : Traversal}
    (hfound : s.traverse settings (r.around allPaths) = .ok found) :
    ((∃ p, s.shortestPath settings (.ofStore s) r = .ok p) ↔
      ∃ v ∈ found.visits, target.decode = .ok v.entity) ∧
    ∀ p, s.shortestPath settings (.ofStore s) r = .ok p →
      ∀ v ∈ found.visits, target.decode = .ok v.entity →
        p.length = v.depth ∧ v.paths.head? = some p.steps := by
  rw [traverse_around_eq_bind (h .entity) horigin, hdepth, ok_bind] at hfound
  simp only [bind_eq_ok_iff, pure_eq_ok_iff] at hfound
  obtain ⟨originRecord, horiginDecode, access, haccess, search, hsearch, rfl⟩ := hfound
  have hvisit {v : Visit} (hv : v ∈ search.visits) (hdecode : target.decode = .ok v.entity) :=
    shortestPath_of_visit h (hdepth _) horigin htarget horiginDecode haccess hsearch hv hdecode
  refine ⟨⟨?_, ?_⟩, ?_⟩
  · rintro ⟨p, hp⟩
    exact exists_visit_of_shortestPath h (hdepth _) horigin htarget horiginDecode haccess hsearch hp
  · rintro ⟨v, hv, hdecode⟩
    obtain ⟨p, hp, _⟩ := hvisit hv hdecode
    exact ⟨p, hp⟩
  · intro p hp v hv hdecode
    obtain ⟨p', hp', hpath, hlength⟩ := hvisit hv hdecode
    rw [hp] at hp'
    cases hp'
    exact ⟨hlength, hpath⟩

/-- Beside a traversal that fails on its way. -/
theorem shortestPath_of_traverse_eq_error {user : Option String} (huser : r.user = .ofText? user)
    {cap : Int} (hcap : settings.aclCap = .int cap) {f : Fault}
    (hf : s.traverse settings (r.around allPaths) = .error f) :
    (f = .tooManyPrincipals ∧ (∃ u, user = some u ∧ maxPrincipals < (s.principalsOf u).length) ∨
      r.request.prepare origin.id = .error f ∨
      (r.around allPaths).Spoiled s settings origin .outbound f) ∧
    (s.shortestPath settings (.ofStore s) r = .error f ∨
      (∃ f', target.decode = .error f' ∧ s.shortestPath settings (.ofStore s) r = .error f') ∨
      (∃ p, s.shortestPath settings (.ofStore s) r = .ok p) ∧
        (origin.id = target.id ∨ (r.around allPaths).Spoiled s settings origin .outbound f)) := by
  rw [traverse_around_eq_bind (h .entity) horigin, hdepth, ok_bind] at hf
  rcases bind_eq_error_iff.1 hf with hf | ⟨originRecord, horiginDecode, hf⟩
  · refine ⟨.inr (.inr (.inl hf)), .inl ?_⟩
    rw [shortestPath_eq_bind (h .entity) (hdepth _) horigin htarget, hf]
    rfl
  have hresult {P : Prop} := shortestPath_cases (f := f) (P := P) h
    (hdepth settings.shortestPathDepth) horigin htarget horiginDecode (.ofStore s)
  rcases bind_eq_error_iff.1 hf with hrefused | ⟨access, haccess, hf⟩
  · have hmany : f = .tooManyPrincipals ∧
        ∃ u, user = some u ∧ maxPrincipals < (s.principalsOf u).length := by
      rw [huser, hcap] at hrefused
      exact many_of_readFilter_eq_error hrefused
    refine ⟨.inl hmany, hresult fun targetRecord htargetDecode hdiffer => .inl ?_⟩
    rw [shortestPath_eq_bind (h .entity) (hdepth _) horigin htarget, horiginDecode,
      htargetDecode, ok_bind, ok_bind, if_neg hdiffer, hrefused]
    rfl
  · rcases bind_eq_error_iff.1 hf with hrun | ⟨_, _, hf⟩
    swap
    · cases hf
    refine ⟨.inr ?_, hresult fun targetRecord htargetDecode hdiffer => ?_⟩
    · rcases spoiledFrom_of_run h horigin.entity horigin.latest horiginDecode
        (Option.some_ne_none _).symm hrun with ⟨_, hrefused⟩ | hfrom
      · exact .inl hrefused
      · exact .inr (spoiled_around allPaths (hdepth _) haccess hfrom)
    · exact (shortestPath_of_run_eq_error h (hdepth _) horigin htarget horiginDecode
        htargetDecode hdiffer haccess hrun).imp_right
          (And.imp_right (spoiled_around allPaths (hdepth _) haccess))

end

/-- Four notes, of which the first one leads to the last one by way of either of the others. -/
def diamond : Store where
  entities :=
    [⟨"a", "note", (), "{}", .integer 1, none, .integer 1, none, false, true, none⟩,
      ⟨"b", "note", (), "{}", .integer 1, none, .integer 2, none, false, true, none⟩,
      ⟨"c", "note", (), "{}", .integer 1, none, .integer 3, none, false, true, none⟩,
      ⟨"d", "note", (), "{}", .integer 1, none, .integer 4, none, false, true, none⟩]
  links :=
    [⟨"ab", "cites", ⟨"a", "b"⟩, "{}", .integer 1, none, .integer 5, none, false, true, none⟩,
      ⟨"ac", "cites", ⟨"a", "c"⟩, "{}", .integer 1, none, .integer 6, none, false, true, none⟩,
      ⟨"cd", "cites", ⟨"c", "d"⟩, "{}", .integer 1, none, .integer 7, none, false, true, none⟩,
      ⟨"bd", "cites", ⟨"b", "d"⟩, "{}", .integer 1, none, .integer 8, none, false, true, none⟩]

theorem reachable_diamond : diamond.Reachable := by
  let note (id : String) (time : Int) : Operation × Stamp :=
    (.create (k := .entity) { typeId := .str "note", ends := () }, ⟨id, time⟩)
  let link (id source target : String) (time : Int) : Operation × Stamp :=
    (.create (k := .link) { typeId := .str "cites", ends := ⟨.str source, .str target⟩ },
      ⟨id, time⟩)
  refine ⟨[note "a" 1, note "b" 2, note "c" 3, note "d" 4, link "ab" "a" "b" 5, link "ac" "a" "c" 6,
    link "cd" "c" "d" 7, link "bd" "b" "d" 8], ?_⟩
  decide +kernel

end Store

end VersionedGraph
