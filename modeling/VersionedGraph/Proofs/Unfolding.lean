import VersionedGraph.Proofs.Recording
import VersionedGraph.Proofs.Resolution

/-!
# How a search unfolds

A search that is not after anything goes on wave by wave. A wave asks for the neighbors of all that
it holds, one direction after the other, and puts what is new, which is one hop further, behind what
was reached before (`Search.Unfolds`). So a search that goes less far is the beginning of one that
goes further, and in the end the neighbors of exactly what is not as far as the greatest depth were
asked for, once and in the order in which it is listed (`Search.Asked`).
-/

namespace VersionedGraph

/-- The listings of neighbors that expanding an entity asks for. -/
def Visit.listings (directions : List HopDirection) (v : Visit) : List (String × HopDirection) :=
  directions.map fun d => (v.entity.id, d)

theorem Visit.id_of_mem_listings {directions : List HopDirection} {v : Visit} {id : String}
    {d : HopDirection} (h : (id, d) ∈ v.listings directions) : v.entity.id = id := by
  obtain ⟨_, _, hlisting⟩ := List.mem_map.1 h
  exact congrArg Prod.fst hlisting

/-- Different entities are asked about in different listings, and each of them once in a
direction. -/
theorem nodup_listings (direction : Direction) {vs : List Visit}
    (h : (vs.map (·.entity.id)).Nodup) : (vs.flatMap (Visit.listings direction.hops)).Nodup := by
  rw [List.nodup_flatMap]
  refine ⟨fun v _ => ?_, (List.pairwise_map.1 h).imp fun {v w} hne => ?_⟩
  · have hhops : direction.hops.Nodup := by cases direction <;> decide
    exact hhops.map fun d d' heq => congrArg Prod.snd heq
  · rintro ⟨id, d⟩ hv hw
    exact hne ((Visit.id_of_mem_listings hv).trans (Visit.id_of_mem_listings hw).symm)

theorem length_listings_le (direction : Direction) (vs : List Visit) :
    (vs.flatMap (Visit.listings direction.hops)).length ≤ 2 * vs.length := by
  have hhops : direction.hops.length ≤ 2 := by cases direction <;> decide
  induction vs with
  | nil => exact Nat.le_refl 0
  | cons v rest ih =>
    rw [List.flatMap_cons, List.length_append, Visit.listings, List.length_map, List.length_cons]
    omega

theorem Visit.firstOnly_firstOnly (v : Visit) : v.firstOnly.firstOnly = v.firstOnly := by
  simp [firstOnly]

namespace Search

/-- A search has found nothing that it is after, and some path to all that it reached is noted. -/
structure Underway (s : Search) : Prop where
  searching : s.found = false
  paths : ∀ v ∈ s.visits, v.paths ≠ []

/-- A part of a search leads from one state to another: some listings are asked for, and what is new
comes behind what was there, of which the first paths stay. It is further than one depth and at most
as far as another. -/
structure Unfolds (low high : Nat) (listings : List (String × HopDirection)) (s t : Search) : Prop
    extends Underway t where
  visits : ∃ more, t.visits.map Visit.firstOnly = s.visits.map Visit.firstOnly ++ more ∧
    ∀ v ∈ more, low < v.depth ∧ v.depth ≤ high
  expanded : t.expanded = s.expanded ++ listings

variable {s t u : Search} {depth : Nat} {path : List Step} {allPaths : Bool}
  {list : HopDirection → String → Except Fault (List Neighbor)} {directions : List HopDirection}
  {wave : List (String × List Step)} {node : String × List Step}

theorem underway_start (e : Record .entity) : Underway (start e) :=
  ⟨rfl, List.forall_mem_singleton.2 (List.cons_ne_nil _ _)⟩

namespace Unfolds

variable {low high low' high' : Nat} {listings listings' : List (String × HopDirection)}

theorem refl (h : Underway s) : Unfolds low high [] s s :=
  ⟨h, ⟨[], (List.append_nil _).symm, List.forall_mem_nil _⟩, (List.append_nil _).symm⟩

theorem trans (h : Unfolds low high listings s t) (h' : Unfolds low' high' listings' t u)
    (hlow : low ≤ low') (hhigh : high ≤ high') :
    Unfolds low high' (listings ++ listings') s u := by
  obtain ⟨more, hmore, hdepth⟩ := h.visits
  obtain ⟨more', hmore', hdepth'⟩ := h'.visits
  refine ⟨h'.toUnderway, ⟨more ++ more', ?_, List.forall_mem_append.2 ⟨?_, ?_⟩⟩, ?_⟩
  · rw [hmore', hmore, List.append_assoc]
  · exact fun v hv => ⟨(hdepth v hv).1, Nat.le_trans (hdepth v hv).2 hhigh⟩
  · exact fun v hv => ⟨Nat.lt_of_le_of_lt hlow (hdepth' v hv).1, (hdepth' v hv).2⟩
  · rw [h'.expanded, h.expanded, List.append_assoc]

/-- Steps one after the other ask for what each of them asks for. -/
theorem foldlM {α : Type} {f : Search → α → Except Fault Search}
    {listings : α → List (String × HopDirection)} {items : List α}
    (hstep : ∀ a s t, Underway s → f s a = .ok t → Unfolds low high (listings a) s t)
    (hs : Underway s) (h : items.foldlM f s = .ok t) :
    Unfolds low high (items.flatMap listings) s t := by
  induction items generalizing s with
  | nil =>
    cases h
    exact refl hs
  | cons a rest ih =>
    rw [List.foldlM_cons, bind_eq_ok_iff] at h
    obtain ⟨u, hu, h⟩ := h
    have hfirst := hstep a s u hs hu
    exact hfirst.trans (ih hfirst.toUnderway h) (Nat.le_refl _) (Nat.le_refl _)

end Unfolds

/-! One wave. -/

theorem unfolds_cross (hs : Underway s) (n : Neighbor) :
    Unfolds depth (depth + 1) [] s (s.cross allPaths none depth path n) := by
  have hpaths : ∀ v ∈ (s.cross allPaths none depth path n).visits, v.paths ≠ [] :=
    paths_cross hs.paths none n
  cases hvisited : (s.visit? n.entity.id).isSome with
  | false =>
    rw [cross_of_new hs.searching allPaths none depth path hvisited] at hpaths ⊢
    refine ⟨⟨rfl, hpaths⟩, ⟨[⟨n.entity, depth + 1, [path ++ [n.step]]⟩], ?_, ?_⟩, ?_⟩
    · rw [List.map_append]
      rfl
    · exact List.forall_mem_singleton.2 ⟨Nat.lt_succ_self depth, Nat.le_refl _⟩
    · exact (List.append_nil _).symm
  | true =>
    cases allPaths with
    | true =>
      rw [cross_of_known hs.searching none hvisited] at hpaths ⊢
      refine ⟨⟨hs.searching, hpaths⟩, ⟨[], ?_, List.forall_mem_nil _⟩, (List.append_nil _).symm⟩
      rw [List.append_nil, List.map_map]
      exact List.map_congr_left fun v hv => Skims.firstOnly_addPath (hs.paths v hv)
    | false =>
      rw [cross_of_known_once hs.searching none hvisited]
      exact .refl hs

theorem unfolds_foldl_cross (allPaths : Bool) (depth : Nat) (path : List Step) (hs : Underway s)
    (ns : List Neighbor) :
    Unfolds depth (depth + 1) [] s (ns.foldl (cross allPaths none depth path) s) := by
  induction ns generalizing s with
  | nil => exact .refl hs
  | cons n rest ih =>
    have hfirst : Unfolds depth (depth + 1) [] s (s.cross allPaths none depth path n) :=
      unfolds_cross hs n
    exact hfirst.trans (ih hfirst.toUnderway) (Nat.le_refl _) (Nat.le_refl _)

theorem unfolds_expand (d : HopDirection) (hs : Underway s)
    (h : expand list allPaths none depth node s d = .ok t) :
    Unfolds depth (depth + 1) [(node.1, d)] s t := by
  unfold expand at h
  rw [hs.searching, if_neg Bool.false_ne_true, bind_eq_ok_iff] at h
  obtain ⟨ns, _, h⟩ := h
  cases h
  have hbegun : Underway { s with expanded := s.expanded ++ [(node.1, d)], found := false } :=
    ⟨rfl, hs.paths⟩
  have hcrossed := unfolds_foldl_cross allPaths depth node.2 hbegun ns
  refine ⟨hcrossed.toUnderway, hcrossed.visits, ?_⟩
  rw [hcrossed.expanded, List.append_nil]

/-- A wave asks for the neighbors of all that it holds. -/
theorem unfolds_wave (hs : Underway s)
    (h : wave.foldlM (expandAll list allPaths none directions depth) s = .ok t) :
    Unfolds depth (depth + 1) (wave.flatMap fun node => directions.map fun d => (node.1, d))
      s t := by
  refine .foldlM (fun node s t hs h => ?_) hs h
  rw [List.map_eq_flatMap]
  exact .foldlM (fun d _ _ hs h => unfolds_expand d hs h) hs h

/-! Wave after wave. -/

theorem exists_unfolds_waves {remaining : Nat} (hs : Underway s)
    (h : waves list allPaths none directions remaining depth wave s = .ok t) :
    ∃ listings, Unfolds depth (depth + remaining) listings s t := by
  induction remaining generalizing depth wave s with
  | zero =>
    cases h
    exact ⟨[], .refl hs⟩
  | succ remaining ih =>
    rw [waves, bind_eq_ok_iff] at h
    obtain ⟨u, hu, h⟩ := h
    have hbegun : Underway { s with next := [] } := ⟨hs.searching, hs.paths⟩
    have hwave := unfolds_wave hbegun hu
    obtain ⟨listings, hrest⟩ := ih hwave.toUnderway h
    rw [Nat.add_right_comm, Nat.add_assoc] at hrest
    have hall := hwave.trans hrest (Nat.le_succ depth) (by omega)
    exact ⟨_, hall.toUnderway, hall.visits, hall.expanded⟩

/-- The first waves of a search are a search by themselves, which the others carry on. -/
theorem exists_waves_of_add {goal : Option String} {m n : Nat}
    (h : waves list allPaths goal directions (m + n) depth wave s = .ok t) :
    ∃ u wave', waves list allPaths goal directions m depth wave s = .ok u ∧
      waves list allPaths goal directions n (depth + m) wave' u = .ok t := by
  induction m generalizing depth wave s with
  | zero =>
    rw [Nat.zero_add] at h
    exact ⟨s, wave, rfl, h⟩
  | succ m ih =>
    rw [Nat.add_right_comm, waves, bind_eq_ok_iff] at h
    obtain ⟨u, hu, h⟩ := h
    obtain ⟨v, wave', hv, hrest⟩ := ih h
    rw [Nat.add_right_comm, Nat.add_assoc] at hrest
    refine ⟨v, wave', ?_, hrest⟩
    rw [waves, hu]
    exact hv

/-- A search that goes less far comes to an end where one that goes further does, and the latter
only puts what is further behind. -/
theorem exists_run_of_le {m n : Nat} (hle : m ≤ n) {e : Record .entity}
    (h : run list allPaths none directions n e = .ok t) :
    ∃ u, run list allPaths none directions m e = .ok u ∧ (∀ v ∈ u.visits, v.depth ≤ m) ∧
      ∃ listings, Unfolds m n listings u t := by
  obtain ⟨k, rfl⟩ := Nat.exists_eq_add_of_le hle
  obtain ⟨u, wave, hu, hrest⟩ := exists_waves_of_add h
  rw [Nat.zero_add] at hrest
  obtain ⟨_, hbefore⟩ := exists_unfolds_waves (underway_start e) hu
  refine ⟨u, hu, fun v hv => ?_, exists_unfolds_waves hbefore.toUnderway hrest⟩
  obtain ⟨more, hmore, hdepth⟩ := hbefore.visits
  rw [Nat.zero_add] at hdepth
  have hfirst : v.firstOnly ∈ (start e).visits.map Visit.firstOnly ++ more :=
    hmore ▸ List.mem_map_of_mem hv
  rcases List.mem_append.1 hfirst with hfirst | hfirst
  · have hzero : v.firstOnly.depth = 0 := by
      rw [List.mem_singleton.1 hfirst]
      rfl
    exact hzero ▸ Nat.zero_le m
  · exact (hdepth _ hfirst).2

/-- A search that is asked for one path to each entity notes no more. -/
theorem firstOnly_of_run {goal : Option String} {maxDepth : Nat} {e : Record .entity}
    (h : run list false goal directions maxDepth e = .ok t) :
    t.visits.map Visit.firstOnly = t.visits := by
  have hskims := Skims.run list goal directions maxDepth e
  rw [h] at hskims
  obtain ⟨s, _, hs⟩ := hskims.exists_of_eq_ok
  rw [hs.visits, List.map_map]
  exact List.map_congr_left fun v _ => v.firstOnly_firstOnly

/-! What is asked for. -/

/-- The neighbors of exactly what is not as far as a depth were asked for, in the order in which it
was reached. -/
def Asked (directions : List HopDirection) (depth : Nat) (s : Search) : Prop :=
  s.expanded = (s.visits.filter (·.depth < depth)).flatMap (Visit.listings directions)

theorem filter_lt_append_filter_eq {vs : List Visit}
    (hsorted : vs.Pairwise fun a b => a.depth ≤ b.depth) (hbounded : ∀ v ∈ vs, v.depth ≤ depth) :
    vs.filter (·.depth < depth) ++ vs.filter (·.depth = depth) = vs := by
  induction vs with
  | nil => rfl
  | cons v rest ih =>
    obtain ⟨hv, hrest⟩ := List.forall_mem_cons.1 hbounded
    obtain ⟨hfirst, hsorted⟩ := List.pairwise_cons.1 hsorted
    have hsplit := ih hsorted hrest
    rcases Nat.lt_or_eq_of_le hv with hlt | heq
    · rw [List.filter_cons_of_pos (by simpa using hlt),
        List.filter_cons_of_neg (by simpa using Nat.ne_of_lt hlt), List.cons_append, hsplit]
    · have hnone : rest.filter (·.depth < depth) = [] := by
        rw [List.filter_eq_nil_iff]
        intro w hw
        have hle := hfirst w hw
        rw [decide_eq_true_eq]
        omega
      rw [hnone, List.nil_append] at hsplit
      rw [List.filter_cons_of_neg (by simp [heq]), List.filter_cons_of_pos (by simpa using heq),
        hnone, List.nil_append, hsplit]

/-- What expanding asks for depends on ids and depths only. -/
theorem flatMap_listings_firstOnly (vs : List Visit) (depth : Nat) :
    ((vs.map Visit.firstOnly).filter (·.depth < depth)).flatMap (Visit.listings directions) =
      (vs.filter (·.depth < depth)).flatMap (Visit.listings directions) := by
  rw [List.filter_map, List.flatMap_map]
  rfl

namespace Ground

variable {g : Ground}

theorem asked_next (hready : g.Ready depth wave s) (hs : s.Asked directions depth)
    (hwave : Unfolds depth (depth + 1)
      (wave.flatMap fun node => directions.map fun d => (node.1, d)) { s with next := [] } t) :
    t.Asked directions (depth + 1) := by
  -- The wave holds what is as far as it is, which was put behind what is less far.
  have hlistings : (wave.flatMap fun node => directions.map fun d => (node.1, d)) =
      (s.visits.filter (·.depth = depth)).flatMap (Visit.listings directions) := by
    rw [hready.wave, List.flatMap_map]
    rfl
  have hbefore : t.expanded = s.visits.flatMap (Visit.listings directions) := by
    rw [hwave.expanded, hlistings]
    change s.expanded ++ _ = _
    rw [hs, ← List.flatMap_append, filter_lt_append_filter_eq hready.sorted hready.bounded]
  obtain ⟨more, hmore, hdepth⟩ := hwave.visits
  have hnone : more.filter (·.depth < depth + 1) = [] := by
    rw [List.filter_eq_nil_iff]
    intro v hv
    have hlow := (hdepth v hv).1
    rw [decide_eq_true_eq]
    omega
  have hall : s.visits.filter (·.depth < depth + 1) = s.visits := by
    rw [List.filter_eq_self]
    exact fun v hv => decide_eq_true (Nat.lt_succ_of_le (hready.bounded v hv))
  unfold Asked
  rw [hbefore, ← flatMap_listings_firstOnly, hmore, List.filter_append, hnone, List.append_nil,
    flatMap_listings_firstOnly, hall]

theorem asked_waves (hlists : g.Lists list directions) (hgoal : g.goal = none) {remaining : Nat}
    (hready : g.Ready depth wave s) (hs : Underway s) (hasked : s.Asked directions depth)
    (h : waves list allPaths none directions remaining depth wave s = .ok t) :
    t.Asked directions (depth + remaining) := by
  induction remaining generalizing depth wave s with
  | zero =>
    cases h
    exact hasked
  | succ remaining ih =>
    rw [waves, bind_eq_ok_iff] at h
    obtain ⟨u, hu, h⟩ := h
    have hbegun : Underway { s with next := [] } := ⟨hs.searching, hs.paths⟩
    have hwave := unfolds_wave hbegun hu
    rw [← hgoal] at hu
    have hadvances := advances_wave hlists hready.inWave (fun _ => hready.isNode) hu
    have hrest := ih (hready.next hadvances hwave.searching) hwave.toUnderway
      (asked_next hready hasked hwave) h
    rw [Nat.add_right_comm, Nat.add_assoc] at hrest
    exact hrest

/-- In the end the neighbors of all that is not as far as the greatest depth were asked for. -/
theorem asked_run (hlists : g.Lists list directions) (hstart : g.known g.start)
    (hgoal : g.goal = none) {maxDepth : Nat}
    (h : run list allPaths none directions maxDepth g.start = .ok t) :
    t.Asked directions maxDepth := by
  have hready : g.Ready 0 [(g.start.id, [])] (Search.start g.start) :=
    ready_start hstart (by rw [hgoal]; exact nofun)
  have hrun := asked_waves hlists hgoal hready (underway_start g.start) rfl h
  rw [Nat.zero_add] at hrun
  exact hrun

end Ground

end Search

namespace Store

variable {s : Store} {k : Kind}

/-- The version chains of a kind, each as the ids of its versions in order. -/
def chains (s : Store) (k : Kind) : List (List String) :=
  ((s.rows k).map fun row => (s.chain k row.id).map (·.id)).dedup

/-- A latest row is in its own chain, and no other latest row is in it. -/
theorem Versioned.eq_of_chain_eq (h : s.Versioned k) {a b : Row k} (ha : a ∈ s.rows k)
    (hb : b ∈ s.rows k) (halatest : a.isLatest = true) (hblatest : b.isLatest = true)
    (hids : (s.chain k a.id).map (·.id) = (s.chain k b.id).map (·.id)) : a = b := by
  have hown : a.id ∈ (s.chain k a.id).map (·.id) :=
    List.mem_map_of_mem (h.mem_chain_iff.2 ⟨ha, .refl _⟩)
  rw [hids] at hown
  obtain ⟨q, hq, hid⟩ := List.mem_map.1 hown
  have hsame : s.SameChain k b.id a.id := hid ▸ (h.mem_chain_iff.1 hq).2
  exact (h.eq_of_isLatest hb ha hblatest halatest hsame).symm

/-- There are as many chains as latest rows. -/
theorem Versioned.length_chains (h : s.Versioned k) :
    (s.chains k).length = ((s.rows k).filter (·.isLatest)).length := by
  have hnodup : (((s.rows k).filter (·.isLatest)).map fun row =>
      (s.chain k row.id).map (·.id)).Nodup := by
    refine (h.nodup_ids.of_map.filter _).map_on fun a ha b hb hids => ?_
    obtain ⟨ha, halatest⟩ := List.mem_filter.1 ha
    obtain ⟨hb, hblatest⟩ := List.mem_filter.1 hb
    exact h.eq_of_chain_eq ha hb halatest hblatest hids
  have hmem (ids : List String) : ids ∈ s.chains k ↔
      ids ∈ ((s.rows k).filter (·.isLatest)).map fun row => (s.chain k row.id).map (·.id) := by
    unfold chains
    simp only [List.mem_dedup, List.mem_map, List.mem_filter]
    constructor
    · rintro ⟨row, hrow, rfl⟩
      obtain ⟨latest, hlatest, hmarked, hway⟩ := h.exists_latest hrow
      refine ⟨latest, ⟨hlatest, hmarked⟩, ?_⟩
      rw [chain_congr (h.latest?_congr (sameChain_of_reflTransGen hway))]
    · rintro ⟨row, ⟨hrow, _⟩, rfl⟩
      exact ⟨row, hrow, rfl⟩
  have hperm := (List.perm_ext_iff_of_nodup (List.nodup_dedup _) hnodup).2 hmem
  exact hperm.length_eq.trans (List.length_map _)

variable {settings : SearchSettings} {r : TraversalRequest} {t : Traversal}

/-- A traversal is a search around a latest entity across the hops that it may cross. -/
structure Searches (s : Store) (r : TraversalRequest) (t : Traversal) (start : Row .entity)
    (record : Record .entity) (search : Search) : Prop where
  accepts : s.Accepts r.user r.includeDeleted r.start start
  decode : start.decode = .ok record
  run : ∃ list, (s.ground (r.rule s) t.direction.hops record none).Lists list t.direction.hops ∧
    Search.run list r.allPaths none t.direction.hops t.maxDepth record = .ok search
  visits : search.visits = t.visits
  expanded : search.expanded = t.expanded

theorem exists_searches (h : ∀ k, s.Versioned k) (ht : s.traverse settings r = .ok t) :
    ∃ start record search, s.Searches r t start record search := by
  obtain ⟨hdirection, hdepth, start, record, access, haccepts, hdecode, _, haccess, request,
    search, hrequest, hsearch, hvisits⟩ := traverse_eq_ok h ht
  have hlists : (s.ground (request.rule access.Lets) t.direction.hops record none).Lists
      (s.readableNeighbors access request) t.direction.hops := lists_ground h
  rw [rule_of_request hrequest haccess] at hlists
  rw [traverse_eq_bind (h .entity) haccepts hdirection, hdepth, hrequest, hdecode, haccess] at ht
  simp only [ok_bind] at ht
  rw [hsearch] at ht
  have hexpanded : search.expanded = t.expanded :=
    congrArg Traversal.expanded (Except.ok.inj ht)
  exact ⟨start, record, search, haccepts, hdecode, ⟨_, hlists, hsearch⟩, hvisits, hexpanded⟩

namespace Searches

variable {start : Row .entity} {record : Record .entity} {search : Search}

theorem known (h : s.Searches r t start record search) :
    (s.ground (r.rule s) t.direction.hops record none).known record :=
  ⟨start, h.accepts.entity, h.accepts.latest, h.decode⟩

theorem finished (h : s.Searches r t start record search) :
    (s.ground (r.rule s) t.direction.hops record none).Finished t.maxDepth search := by
  obtain ⟨_, hlists, hsearch⟩ := h.run
  exact Search.Ground.finished_run hlists h.known (by exact nofun) hsearch

theorem searching (h : s.Searches r t start record search) : search.found = false := by
  rw [← Bool.not_eq_true, h.finished.found]
  rintro ⟨_, _, hgoal⟩
  cases hgoal

theorem asked (h : s.Searches r t start record search) :
    t.expanded =
      (t.visits.filter (·.depth < t.maxDepth)).flatMap (Visit.listings t.direction.hops) := by
  obtain ⟨_, hlists, hsearch⟩ := h.run
  rw [← h.expanded, ← h.visits]
  exact Search.Ground.asked_run hlists h.known rfl hsearch

theorem recorded (h : s.Searches r t start record search) (hpaths : r.allPaths = true) :
    (s.ground (r.rule s) t.direction.hops record none).Recorded t.maxDepth search ∧
      search.Tidy t.maxDepth := by
  obtain ⟨_, hlists, hsearch⟩ := h.run
  rw [hpaths] at hsearch
  exact Search.Ground.recorded_run hlists h.known rfl hsearch

theorem nodup_ids (h : s.Searches r t start record search) :
    (t.visits.map (·.entity.id)).Nodup :=
  h.visits ▸ h.finished.nodup

/-- What is listed are latest entities, and so of no more chains than there are. -/
theorem length_visits_le (h : s.Searches r t start record search) (hs : s.Versioned .entity) :
    t.visits.length ≤ (s.chains .entity).length := by
  have hids : t.visits.map (·.entity.id) ⊆ ((s.rows .entity).filter (·.isLatest)).map (·.id) := by
    intro id hid
    obtain ⟨v, hv, rfl⟩ := List.mem_map.1 hid
    obtain ⟨row, hrow, hlatest, hdecode⟩ := h.finished.known v (h.visits ▸ hv)
    rw [id_of_decode hdecode]
    exact List.mem_map_of_mem (List.mem_filter.2 ⟨hrow, hlatest⟩)
  have hle := (h.nodup_ids.subperm hids).length_le
  rw [List.length_map, List.length_map] at hle
  rwa [hs.length_chains]

end Searches

/-- A traversal asks for the neighbors of exactly what it lists before its greatest depth, in the
order in which it lists it and for each in the order of the hops that its direction allows. So it
asks for nothing twice and for nothing around what is as deep as it may go, and however the links
run in circles there is no more to ask for than two listings for each chain. -/
theorem Reachable.traverse_asks_once (h : s.Reachable) (ht : s.traverse settings r = .ok t) :
    Direction.given? r.direction = .ok (some t.direction) ∧
    requestedDepth r.maxDepth settings.traversalDepth = .ok t.maxDepth ∧
    t.expanded =
      (t.visits.filter (·.depth < t.maxDepth)).flatMap (Visit.listings t.direction.hops) ∧
    t.expanded.Nodup ∧
    (∀ v ∈ t.visits, v.depth = t.maxDepth → ∀ d, (v.entity.id, d) ∉ t.expanded) ∧
    t.expanded.length ≤ 2 * (s.chains .entity).length := by
  have hv := h.versioned
  obtain ⟨hdirection, hdepth, _⟩ := traverse_eq_ok hv ht
  obtain ⟨start, record, search, hsearch⟩ := exists_searches hv ht
  have hasked := hsearch.asked
  refine ⟨hdirection, hdepth, hasked, ?_, ?_, ?_⟩
  · rw [hasked]
    exact nodup_listings t.direction (hsearch.nodup_ids.sublist (List.filter_sublist.map _))
  · intro v hvisit hdeepest d hmem
    rw [hasked, List.mem_flatMap] at hmem
    obtain ⟨w, hw, hlisting⟩ := hmem
    obtain ⟨hw, hlt⟩ := List.mem_filter.1 hw
    have hid : w.entity.id = v.entity.id := Visit.id_of_mem_listings hlisting
    rw [List.inj_on_of_nodup_map hsearch.nodup_ids hw hvisit hid, decide_eq_true_eq] at hlt
    omega
  · calc
      t.expanded.length ≤ 2 * (t.visits.filter (·.depth < t.maxDepth)).length := by
        rw [hasked]
        exact length_listings_le t.direction _
      _ ≤ 2 * t.visits.length := Nat.mul_le_mul_left 2 (List.length_filter_le _ _)
      _ ≤ 2 * (s.chains .entity).length :=
        Nat.mul_le_mul_left 2 (hsearch.length_visits_le (hv .entity))

/-- Two notes that cite each other. -/
def circuit : Store where
  entities :=
    [⟨"a", "note", (), "{}", .integer 1, none, .integer 1, none, false, true, none⟩,
      ⟨"b", "note", (), "{}", .integer 1, none, .integer 2, none, false, true, none⟩]
  links :=
    [⟨"ab", "cites", ⟨"a", "b"⟩, "{}", .integer 1, none, .integer 3, none, false, true, none⟩,
      ⟨"ba", "cites", ⟨"b", "a"⟩, "{}", .integer 1, none, .integer 4, none, false, true, none⟩]

theorem reachable_circuit : circuit.Reachable := by
  refine ⟨[(.create (k := .entity) { typeId := .str "note", ends := () }, ⟨"a", 1⟩),
    (.create (k := .entity) { typeId := .str "note", ends := () }, ⟨"b", 2⟩),
    (.create (k := .link) { typeId := .str "cites", ends := ⟨.str "a", .str "b"⟩ }, ⟨"ab", 3⟩),
    (.create (k := .link) { typeId := .str "cites", ends := ⟨.str "b", .str "a"⟩ }, ⟨"ba", 4⟩)], ?_⟩
  decide +kernel

/-- Around two notes that cite each other four listings are asked for, however far a traversal may
go. -/
theorem listings_around_circuit :
    let request : TraversalRequest :=
      { start := .str "a", direction := .str "both", maxDepth := .int 10 }
    ∃ t, circuit.traverse {} request = .ok t ∧ t.maxDepth = 10 ∧
      t.expanded = [("a", .outbound), ("a", .inbound), ("b", .outbound), ("b", .inbound)] ∧
      t.expanded.Nodup ∧ t.expanded.length ≤ 2 * (circuit.chains .entity).length := by
  intro request
  have hasked : (circuit.traverse {} request).map (fun t => (t.maxDepth, t.expanded)) =
      .ok (10, [("a", .outbound), ("a", .inbound), ("b", .outbound), ("b", .inbound)]) := by cbv
  obtain ⟨t, ht, hasked⟩ := map_eq_ok_iff.1 hasked
  obtain ⟨hdepth, hexpanded⟩ := Prod.mk.inj hasked
  obtain ⟨_, _, _, hnodup, _, hfew⟩ := Reachable.traverse_asks_once reachable_circuit ht
  exact ⟨t, ht, hdepth, hexpanded, hnodup, hfew⟩

theorem requestedDepth_natCast {n : Nat} (h : n ≤ maxSearchDepth) (configured : Json) :
    requestedDepth (.int n) configured = .ok n := by
  rw [requestedDepth_int, if_pos ⟨Int.natCast_nonneg n, Int.ofNat_le.2 h⟩, Int.toNat_natCast]

theorem eq_of_requestedDepth_natCast {n depth : Nat} {configured : Json}
    (h : requestedDepth (.int n) configured = .ok depth) : n = depth ∧ n ≤ maxSearchDepth := by
  rw [requestedDepth_int] at h
  split at h
  · next hfar => exact ⟨Except.ok.inj h, Int.ofNat_le.1 hfar.2⟩
  · cases h

/-- A traversal that is asked for one path to each entity comes to an end where one that goes
further does, and what the latter lists begins with all that the former lists, which is no further
than that may go, in the same order, at the same depths and with the same paths. All that comes
behind is further. -/
theorem traverse_prefix_of_le (s : Store) (settings : SearchSettings) (r : TraversalRequest)
    {m n : Nat} (hle : m ≤ n) {t' : Traversal}
    (ht' : s.traverse settings { r with maxDepth := .int n, allPaths := false } = .ok t') :
    ∃ t rest, s.traverse settings { r with maxDepth := .int m, allPaths := false } = .ok t ∧
      t'.visits = t.visits ++ rest ∧ (∀ v ∈ t.visits, v.depth ≤ m) ∧
      ∀ v ∈ rest, m < v.depth := by
  unfold traverse at ht' ⊢
  simp only [bind_eq_ok_iff] at ht'
  obtain ⟨direction?, hdirection, depth, hdepth, entityFilters, hentity, linkFilters, hlink, start,
    hstart, access, haccess, ht'⟩ := ht'
  cases direction? with
  | none => cases ht'
  | some direction =>
    simp only [bind_eq_ok_iff, pure_eq_ok_iff] at ht'
    obtain ⟨search', hsearch', rfl⟩ := ht'
    obtain ⟨rfl, hfar⟩ := eq_of_requestedDepth_natCast hdepth
    -- Up to the search both traversals do the same, so it is the searches that are compared.
    obtain ⟨search, hsearch, hbounded, _, hunfolds⟩ := Search.exists_run_of_le hle hsearch'
    obtain ⟨rest, hrest, hdeeper⟩ := hunfolds.visits
    rw [Search.firstOnly_of_run hsearch', Search.firstOnly_of_run hsearch] at hrest
    refine ⟨⟨start.id, direction, m, search.visits, false, search.expanded⟩, rest, ?_, hrest,
      hbounded, fun v hv => (hdeeper v hv).1⟩
    simp only [hdirection, requestedDepth_natCast (Nat.le_trans hle hfar), hentity, hlink, hstart,
      haccess, hsearch, ok_bind]
    rfl

/-- Around the first note of the diamond what is one hop away is listed before the last note. -/
theorem traversal_begins_next_to_diamond :
    let request : TraversalRequest := { start := .str "a" }
    ∃ t t' rest, diamond.traverse {} { request with maxDepth := .int 1 } = .ok t ∧
      diamond.traverse {} { request with maxDepth := .int 2 } = .ok t' ∧
      t'.visits = t.visits ++ rest ∧ t.visits.map (·.entity.id) = ["a", "b", "c"] ∧
      rest.map (·.entity.id) = ["d"] := by
  intro request
  have hnear : (diamond.traverse {} { request with maxDepth := .int 1 }).map
      (fun t => t.visits.map (·.entity.id)) = .ok ["a", "b", "c"] := by cbv
  have hfar : (diamond.traverse {} { request with maxDepth := .int 2 }).map
      (fun t => t.visits.map (·.entity.id)) = .ok ["a", "b", "c", "d"] := by cbv
  obtain ⟨t', ht', hids'⟩ := map_eq_ok_iff.1 hfar
  obtain ⟨t, rest, ht, hvisits, _⟩ :=
    traverse_prefix_of_le diamond {} request (m := 1) (by decide : 1 ≤ 2) ht'
  obtain ⟨u, hu, hids⟩ := map_eq_ok_iff.1 hnear
  obtain rfl : u = t := Except.ok.inj (hu.symm.trans ht)
  rw [hvisits, List.map_append, hids] at hids'
  exact ⟨u, t', rest, ht, ht', hvisits, hids, List.append_cancel_left hids'⟩

end Store

end VersionedGraph
