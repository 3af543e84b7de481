import VersionedGraph.Graph.Search
import VersionedGraph.Proofs.Outcome
import VersionedGraph.Proofs.Walk

/-!
# What a breadth-first search reaches

A search is over some ground: the entities that can be met, the hops between their ids, a start
and perhaps a goal. Provided that the neighbors that are listed are exactly the hops of the
ground, what is reached in a wave is one hop further than what is expanded in it
(`Ground.InWave`), and everything that is one hop further is reached unless the goal is
(`Ground.Advances`). This goes through the hops of an entity, through the directions, and through
a wave, each a run of the one before; the waves then close what is reached under hops level by
level.
-/

namespace VersionedGraph

def Neighbor.step (n : Neighbor) : Step :=
  ⟨n.link.id, n.entity.id⟩

/-- What a wave knows of a visit: its id and its first path. -/
def Visit.node (v : Visit) : String × List Step :=
  (v.entity.id, v.paths.headD [])

namespace Search

/-- An entity was reached under an id and at a depth. -/
def At (s : Search) (id : String) (n : Nat) : Prop :=
  ∃ v ∈ s.visits, v.entity.id = id ∧ v.depth = n

/-- An entity was reached under an id and at some depth or before. -/
def Within (s : Search) (id : String) (n : Nat) : Prop :=
  ∃ m ≤ n, s.At id m

/-- The first path by which an entity was reached. -/
def firstPath? (s : Search) (id : String) : Option (List Step) :=
  (s.visit? id).bind (·.paths.head?)

/-- A search goes on from a state in which some depth is being expanded: nothing is forgotten and
nothing is found any more that is not deeper. -/
structure Grows (depth : Nat) (s t : Search) : Prop where
  found : s.found = true → t.found = true
  kept : ∀ id n, s.At id n → t.At id n
  old : ∀ id n, n ≤ depth → t.At id n → s.At id n

theorem visit?_isSome_iff {s : Search} {id : String} :
    (s.visit? id).isSome = true ↔ ∃ v ∈ s.visits, v.entity.id = id := by
  simp [visit?]

theorem firstPath?_eq_none {s : Search} {id : String} (h : ∀ v ∈ s.visits, v.entity.id ≠ id) :
    s.firstPath? id = none := by
  have hnone : s.visit? id = none := List.find?_eq_none.2 fun v hv => by simpa using h v hv
  rw [firstPath?, hnone, Option.bind_none]

theorem exists_of_firstPath? {s : Search} {id : String} {path : List Step}
    (h : s.firstPath? id = some path) :
    ∃ v ∈ s.visits, v.entity.id = id ∧ v.paths.head? = some path := by
  obtain ⟨v, hvisit, hhead⟩ := Option.bind_eq_some_iff.1 h
  exact ⟨v, List.mem_of_find?_eq_some hvisit, by simpa using List.find?_some hvisit, hhead⟩

namespace Grows

variable {depth : Nat} {s t u : Search}

theorem refl (s : Search) : Grows depth s s :=
  ⟨id, fun _ _ h => h, fun _ _ _ h => h⟩

theorem trans (h : Grows depth s t) (h' : Grows depth t u) : Grows depth s u :=
  ⟨fun hs => h'.found (h.found hs), fun id n hs => h'.kept id n (h.kept id n hs),
    fun id n hn hu => h.old id n hn (h'.old id n hn hu)⟩

theorem within (h : Grows depth s t) {id : String} {n : Nat} (hs : s.Within id n) :
    t.Within id n := by
  obtain ⟨m, hm, hat⟩ := hs
  exact ⟨m, hm, h.kept id m hat⟩

end Grows

/-! A path that is added to a visit changes nothing else. -/

section

variable (id : String) (path : List Step) (v : Visit)

@[simp] theorem addPath_entity : (addPath id path v).entity = v.entity := by
  unfold addPath
  split <;> rfl

@[simp] theorem addPath_depth : (addPath id path v).depth = v.depth := by
  unfold addPath
  split <;> rfl

theorem addPath_paths :
    (addPath id path v).paths = v.paths ∨
      v.entity.id = id ∧ (addPath id path v).paths = v.paths ++ [path] := by
  unfold addPath
  split
  · next h =>
    rw [Bool.and_eq_true, decide_eq_true_eq] at h
    exact .inr ⟨h.1, rfl⟩
  · exact .inl rfl

theorem addPath_node (h : v.paths ≠ []) : (addPath id path v).node = v.node := by
  unfold Visit.node
  rw [addPath_entity]
  rcases addPath_paths id path v with hsame | ⟨_, hmore⟩
  · rw [hsame]
  · obtain ⟨first, rest, hpaths⟩ := List.exists_cons_of_ne_nil h
    rw [hmore, hpaths]
    rfl

end

/-! Once the goal is found nothing more is done. -/

section

variable {s : Search} {list : HopDirection → String → Except Fault (List Neighbor)}
  {allPaths : Bool} {goal : Option String} {directions : List HopDirection} {depth : Nat}

theorem foldlM_of_found {α : Type} {f : Search → α → Except Fault Search}
    (hstill : ∀ s a, s.found = true → f s a = .ok s) (hfound : s.found = true) (items : List α) :
    items.foldlM f s = .ok s := by
  induction items with
  | nil => rfl
  | cons a rest ih =>
    rw [List.foldlM_cons, hstill s a hfound]
    exact ih

theorem expand_of_found (hfound : s.found = true) (node : String × List Step) (d : HopDirection) :
    s.expand list allPaths goal depth node d = .ok s :=
  if_pos hfound

theorem expandAll_of_found (s : Search) (node : String × List Step) (hfound : s.found = true) :
    expandAll list allPaths goal directions depth s node = .ok s :=
  foldlM_of_found (fun _ d hfound => expand_of_found hfound node d) hfound directions

theorem wave_of_found (hfound : s.found = true) (wave : List (String × List Step)) :
    wave.foldlM (expandAll list allPaths goal directions depth) s = .ok s :=
  foldlM_of_found expandAll_of_found hfound wave

theorem waves_of_found {remaining : Nat} {wave : List (String × List Step)}
    (hfound : s.found = true) :
    ∃ t, waves list allPaths goal directions remaining depth wave s = .ok t ∧
      t.visits = s.visits ∧ t.found = s.found := by
  induction remaining generalizing depth wave s with
  | zero => exact ⟨s, rfl, rfl, rfl⟩
  | succ remaining ih =>
    rw [waves, wave_of_found (s := { s with next := [] }) hfound]
    exact ih (s := { s with next := [] }) hfound

end

/-- What a search is over. -/
structure Ground where
  known : Record .entity → Prop
  hop : String → Step → String → Prop
  start : Record .entity
  goal : Option String

namespace Ground

/-- What is listed of known entities are their hops, to known entities. -/
structure Lists (g : Ground) (list : HopDirection → String → Except Fault (List Neighbor))
    (directions : List HopDirection) : Prop where
  known : ∀ d ∈ directions, ∀ e, g.known e → ∀ ns, list d e.id = .ok ns → ∀ n ∈ ns, g.known n.entity
  hop : ∀ d ∈ directions, ∀ e, g.known e → ∀ ns, list d e.id = .ok ns →
    ∀ n ∈ ns, g.hop e.id n.step n.entity.id
  complete : ∀ e, g.known e → ∀ step id, g.hop e.id step id →
    ∃ d ∈ directions, ∀ ns, list d e.id = .ok ns → ∃ n ∈ ns, n.step = step ∧ n.entity.id = id

/-- What was reached was reached by walks from the start, once each and in order of depth, which is
the length of the first path; and the goal is found when it was reached. -/
structure Sound (g : Ground) (s : Search) : Prop where
  nodup : (s.visits.map (·.entity.id)).Nodup
  known : ∀ v ∈ s.visits, g.known v.entity
  walk : ∀ v ∈ s.visits, ∀ path ∈ v.paths, Walk g.hop g.start.id path v.entity.id
  first : ∀ v ∈ s.visits, v.node.2 ∈ v.paths ∧ v.node.2.length = v.depth
  head : ∃ v rest, s.visits = v :: rest ∧ v.entity = g.start ∧ v.depth = 0
  sorted : s.visits.Pairwise fun a b => a.depth ≤ b.depth
  found : s.found = true ↔ ∃ v ∈ s.visits, g.goal = some v.entity.id

/-- While a depth is being expanded, nothing is more than one hop further, and what is one hop
further makes up the next wave. -/
structure InWave (g : Ground) (depth : Nat) (s : Search) : Prop extends Sound g s where
  bounded : ∀ v ∈ s.visits, v.depth ≤ depth + 1
  next : s.next = (s.visits.filter (·.depth = depth + 1)).map Visit.node

/-- A part of a wave leads from one state to another, in which the goal is found or everything of
some sort was reached. -/
structure Advances (g : Ground) (depth : Nat) (sort : String → Prop) (s t : Search) : Prop where
  inWave : g.InWave depth t
  grows : Grows depth s t
  covers : t.found = true ∨ ∀ id, sort id → t.Within id (depth + 1)

variable {g : Ground} {depth : Nat} {s t : Search}

theorem advances_foldlM {α : Type} {f : Search → α → Except Fault Search}
    {sort : α → String → Prop} {items : List α}
    (hstep : ∀ a ∈ items, ∀ s t, g.InWave depth s → f s a = .ok t →
      g.Advances depth (sort a) s t)
    (hs : g.InWave depth s) (h : items.foldlM f s = .ok t) :
    g.Advances depth (fun id => ∃ a ∈ items, sort a id) s t := by
  induction items generalizing s with
  | nil =>
    cases h
    exact ⟨hs, .refl _, .inr fun _ ⟨_, ha, _⟩ => absurd ha List.not_mem_nil⟩
  | cons a rest ih =>
    rw [List.foldlM_cons, bind_eq_ok_iff] at h
    obtain ⟨u, hu, h⟩ := h
    have hfirst := hstep a List.mem_cons_self s u hs hu
    have hrest := ih (fun b hb => hstep b (List.mem_cons_of_mem a hb)) hfirst.inWave h
    refine ⟨hrest.inWave, hfirst.grows.trans hrest.grows, ?_⟩
    rcases hrest.covers with hfound | hcovers
    · exact .inl hfound
    · rcases hfirst.covers with hfound | hfirst'
      · exact .inl (hrest.grows.found hfound)
      · refine .inr fun id ⟨b, hb, hsort⟩ => ?_
        rcases List.mem_cons.1 hb with rfl | hb
        · exact hrest.grows.within (hfirst' id hsort)
        · exact hcovers id ⟨b, hb, hsort⟩

/-! Crossing one hop. -/

theorem at_map_addPath {id : String} {path : List Step} {x : String} {n : Nat} :
    ({ s with visits := s.visits.map (addPath id path) } : Search).At x n ↔ s.At x n := by
  simp [At]

/-- One more path to what was reached. -/
theorem InWave.addPath (hs : g.InWave depth s) {id : String} {path : List Step}
    (hwalk : Walk g.hop g.start.id path id) :
    g.InWave depth { s with visits := s.visits.map (addPath id path) } := by
  have hnode : ∀ v ∈ s.visits, (Search.addPath id path v).node = v.node := by
    intro v hv
    exact addPath_node id path v (List.ne_nil_of_mem (hs.first v hv).1)
  refine ⟨⟨?_, ?_, ?_, ?_, ?_, ?_, ?_⟩, ?_, ?_⟩
  · have hids : (s.visits.map (Search.addPath id path)).map (·.entity.id) =
        s.visits.map (·.entity.id) := by simp [Function.comp_def]
    rw [hids]
    exact hs.nodup
  · rw [List.forall_mem_map]
    intro v hv
    rw [addPath_entity]
    exact hs.known v hv
  · rw [List.forall_mem_map]
    intro v hv other hother
    rw [addPath_entity]
    rcases addPath_paths id path v with hsame | ⟨rfl, hmore⟩
    · rw [hsame] at hother
      exact hs.walk v hv other hother
    · rw [hmore, List.mem_append, List.mem_singleton] at hother
      rcases hother with hother | rfl
      · exact hs.walk v hv other hother
      · exact hwalk
  · rw [List.forall_mem_map]
    intro v hv
    obtain ⟨hmem, hlength⟩ := hs.first v hv
    rw [hnode v hv, addPath_depth]
    refine ⟨?_, hlength⟩
    rcases addPath_paths id path v with hsame | ⟨_, hmore⟩
    · rw [hsame]
      exact hmem
    · rw [hmore]
      exact List.mem_append_left _ hmem
  · obtain ⟨v, rest, hvisits, hentity, hdepth⟩ := hs.head
    refine ⟨Search.addPath id path v, rest.map (Search.addPath id path), ?_, ?_, ?_⟩
    · rw [hvisits]
      rfl
    · rw [addPath_entity]
      exact hentity
    · rw [addPath_depth]
      exact hdepth
  · rw [List.pairwise_map]
    simpa using hs.sorted
  · simpa using hs.found
  · rw [List.forall_mem_map]
    simpa using hs.bounded
  · rw [List.filter_map, List.map_map, hs.next]
    have hdepth : ((fun v : Visit => decide (v.depth = depth + 1)) ∘ Search.addPath id path) =
        fun v => decide (v.depth = depth + 1) := by
      funext v
      simp
    rw [hdepth]
    refine List.map_congr_left fun v hv => ?_
    exact (hnode v (List.mem_of_mem_filter hv)).symm

/-- A first path to what had not been reached. -/
theorem InWave.visit (hs : g.InWave depth s) (hfound : s.found = false) {e : Record .entity}
    {path : List Step} (hnew : ∀ v ∈ s.visits, v.entity.id ≠ e.id) (hknown : g.known e)
    (hwalk : Walk g.hop g.start.id path e.id) (hlength : path.length = depth + 1) :
    g.InWave depth
      { s with
        visits := s.visits ++ [⟨e, depth + 1, [path]⟩]
        next := s.next ++ [(e.id, path)]
        found := decide (g.goal = some e.id) } := by
  refine ⟨⟨?_, ?_, ?_, ?_, ?_, ?_, ?_⟩, ?_, ?_⟩
  · rw [List.map_append, List.nodup_append]
    refine ⟨hs.nodup, List.nodup_singleton _, ?_⟩
    intro id hid id' hid' heq
    obtain ⟨v, hv, rfl⟩ := List.mem_map.1 hid
    exact hnew v hv (heq.trans (List.mem_singleton.1 hid'))
  · rw [List.forall_mem_append, List.forall_mem_singleton]
    exact ⟨hs.known, hknown⟩
  · rw [List.forall_mem_append, List.forall_mem_singleton, List.forall_mem_singleton]
    exact ⟨hs.walk, hwalk⟩
  · rw [List.forall_mem_append, List.forall_mem_singleton]
    exact ⟨hs.first, List.mem_singleton_self path, hlength⟩
  · obtain ⟨v, rest, hvisits, hstart⟩ := hs.head
    refine ⟨v, rest ++ [⟨e, depth + 1, [path]⟩], ?_, hstart⟩
    rw [hvisits]
    rfl
  · rw [List.pairwise_append]
    refine ⟨hs.sorted, List.pairwise_singleton _ _, ?_⟩
    intro v hv w hw
    rw [List.mem_singleton.1 hw]
    exact hs.bounded v hv
  · have hnone : ¬∃ v ∈ s.visits, g.goal = some v.entity.id := by
      rw [← hs.found, hfound]
      exact Bool.false_ne_true
    rw [decide_eq_true_eq]
    constructor
    · intro hgoal
      exact ⟨_, List.mem_append_right _ (List.mem_singleton_self _), hgoal⟩
    · rintro ⟨v, hv, hgoal⟩
      rcases List.mem_append.1 hv with hv | hv
      · exact absurd ⟨v, hv, hgoal⟩ hnone
      · rw [List.mem_singleton.1 hv] at hgoal
        exact hgoal
  · rw [List.forall_mem_append, List.forall_mem_singleton]
    exact ⟨hs.bounded, Nat.le_refl _⟩
  · rw [List.filter_append, List.map_append, hs.next]
    simp [Visit.node]

/-- After a hop was crossed from the end of a walk, its entity was reached. -/
theorem advances_cross (hs : g.InWave depth s) (allPaths : Bool) {x : String} {path : List Step}
    (hwalk : Walk g.hop g.start.id path x) (hlength : path.length = depth) {n : Neighbor}
    (hknown : g.known n.entity) (hhop : g.hop x n.step n.entity.id) :
    g.Advances depth (· = n.entity.id) s (cross allPaths g.goal depth path s n) := by
  have hlonger : Walk g.hop g.start.id (path ++ [n.step]) n.entity.id := .onward hwalk hhop
  unfold cross
  dsimp only
  by_cases hfound : s.found = true
  · rw [if_pos hfound]
    exact ⟨hs, .refl s, .inl hfound⟩
  rw [if_neg hfound]
  by_cases hvisited : (s.visit? n.entity.id).isSome = true
  · have hwithin : s.Within n.entity.id (depth + 1) := by
      obtain ⟨v, hv, hid⟩ := visit?_isSome_iff.1 hvisited
      exact ⟨v.depth, hs.bounded v hv, v, hv, hid, rfl⟩
    rw [if_pos hvisited]
    cases allPaths with
    | true =>
      have hgrows : Grows depth s
          { s with visits := s.visits.map (Search.addPath n.entity.id (path ++ [n.step])) } :=
        ⟨id, fun _ _ => at_map_addPath.2, fun _ _ _ => at_map_addPath.1⟩
      refine ⟨hs.addPath hlonger, hgrows, .inr ?_⟩
      rintro _ rfl
      exact hgrows.within hwithin
    | false =>
      refine ⟨hs, .refl s, .inr ?_⟩
      rintro _ rfl
      exact hwithin
  · have hnew : ∀ v ∈ s.visits, v.entity.id ≠ n.entity.id := by
      intro v hv hid
      exact hvisited (visit?_isSome_iff.2 ⟨v, hv, hid⟩)
    rw [if_neg hvisited]
    refine ⟨hs.visit (by simpa using hfound) hnew hknown hlonger (by simp [hlength]), ?_, .inr ?_⟩
    · refine ⟨fun h => absurd h hfound, ?_, ?_⟩
      · rintro id m ⟨v, hv, hat⟩
        exact ⟨v, List.mem_append_left _ hv, hat⟩
      · rintro id m hm ⟨v, hv, hid, hdepth⟩
        rcases List.mem_append.1 hv with hv | hv
        · exact ⟨v, hv, hid, hdepth⟩
        · rw [List.mem_singleton.1 hv] at hdepth
          dsimp only at hdepth
          omega
    · rintro _ rfl
      exact ⟨depth + 1, Nat.le_refl _, _, List.mem_append_right _ (List.mem_singleton_self _), rfl,
        rfl⟩

/-! Expanding an entity, and all that a wave holds. -/

/-- Something that a wave at some depth may hold: the end of a walk of that many hops. -/
def IsNode (g : Ground) (depth : Nat) (node : String × List Step) : Prop :=
  ∃ e, g.known e ∧ e.id = node.1 ∧ Walk g.hop g.start.id node.2 node.1 ∧ node.2.length = depth

theorem Sound.congr (h : g.Sound s) (hvisits : t.visits = s.visits) (hfound : t.found = s.found) :
    g.Sound t := by
  refine ⟨?_, ?_, ?_, ?_, ?_, ?_, ?_⟩
  · rw [hvisits]
    exact h.nodup
  · rw [hvisits]
    exact h.known
  · rw [hvisits]
    exact h.walk
  · rw [hvisits]
    exact h.first
  · rw [hvisits]
    exact h.head
  · rw [hvisits]
    exact h.sorted
  · rw [hvisits, hfound]
    exact h.found

theorem Advances.mono {sort sort' : String → Prop} (h : g.Advances depth sort s t)
    (hsort : ∀ id, sort' id → sort id) : g.Advances depth sort' s t :=
  ⟨h.inWave, h.grows, h.covers.imp_right fun hcovers id hid => hcovers id (hsort id hid)⟩

variable {list : HopDirection → String → Except Fault (List Neighbor)}
  {directions : List HopDirection} {allPaths : Bool} {node : String × List Step}

theorem advances_expand (hlists : g.Lists list directions) (hs : g.InWave depth s)
    (hnode : g.IsNode depth node) {d : HopDirection} (hd : d ∈ directions)
    (h : expand list allPaths g.goal depth node s d = .ok t) :
    g.Advances depth (fun id => ∀ ns, list d node.1 = .ok ns → ∃ n ∈ ns, n.entity.id = id) s t := by
  unfold expand at h
  split at h
  · next hfound =>
    cases h
    exact ⟨hs, .refl _, .inl hfound⟩
  · rw [bind_eq_ok_iff] at h
    obtain ⟨ns, hns, h⟩ := h
    obtain ⟨e, hknown, hid, hwalk, hlength⟩ := hnode
    have hbegun : g.InWave depth { s with expanded := s.expanded ++ [(node.1, d)] } :=
      ⟨hs.toSound.congr rfl rfl, hs.bounded, hs.next⟩
    have hfold : ns.foldlM
        (fun s n => (Except.ok (cross allPaths g.goal depth node.2 s n) : Except Fault Search))
        { s with expanded := s.expanded ++ [(node.1, d)] } = .ok t := by
      rw [← h]
      exact List.foldlM_pure
    rw [← hid] at hns
    have hcrossed : ∀ n ∈ ns, ∀ s t, g.InWave depth s →
        (Except.ok (cross allPaths g.goal depth node.2 s n) : Except Fault Search) = .ok t →
        g.Advances depth (· = n.entity.id) s t := by
      intro n hn s t hs h
      cases h
      refine advances_cross hs allPaths hwalk hlength (hlists.known d hd e hknown ns hns n hn) ?_
      rw [← hid]
      exact hlists.hop d hd e hknown ns hns n hn
    obtain ⟨hwave, hgrows, hcovers⟩ := advances_foldlM hcrossed hbegun hfold
    refine ⟨hwave, ⟨hgrows.found, hgrows.kept, hgrows.old⟩,
      hcovers.imp_right fun hall id hsort => ?_⟩
    rw [← hid] at hsort
    obtain ⟨n, hn, rfl⟩ := hsort ns hns
    exact hall _ ⟨n, hn, rfl⟩

theorem advances_expandAll (hlists : g.Lists list directions) (hs : g.InWave depth s)
    (hnode : g.IsNode depth node)
    (h : expandAll list allPaths g.goal directions depth s node = .ok t) :
    g.Advances depth (fun id => ∃ step, g.hop node.1 step id) s t := by
  have hrun := advances_foldlM (fun d hd _ _ hs h => advances_expand hlists hs hnode hd h) hs h
  refine hrun.mono ?_
  rintro id ⟨step, hhop⟩
  obtain ⟨e, hknown, hid, _, _⟩ := hnode
  rw [← hid] at hhop
  obtain ⟨d, hd, hcomplete⟩ := hlists.complete e hknown step id hhop
  refine ⟨d, hd, fun ns hns => ?_⟩
  rw [← hid] at hns
  obtain ⟨n, hn, _, hentity⟩ := hcomplete ns hns
  exact ⟨n, hn, hentity⟩

theorem advances_wave (hlists : g.Lists list directions) (hs : g.InWave depth s)
    {wave : List (String × List Step)} (hwave : ∀ node ∈ wave, g.IsNode depth node)
    (h : wave.foldlM (expandAll list allPaths g.goal directions depth) s = .ok t) :
    g.Advances depth (fun id => ∃ node ∈ wave, ∃ step, g.hop node.1 step id) s t :=
  advances_foldlM
    (fun node hnode _ _ hs h => advances_expandAll hlists hs (hwave node hnode) h) hs h

/-! Wave after wave. -/

/-- What is one hop from what was reached before some depth was reached, too. -/
def Closed (g : Ground) (depth : Nat) (s : Search) : Prop :=
  ∀ id n, s.At id n → n < depth → ∀ step id', g.hop id step id' → s.Within id' (n + 1)

/-- Before a depth is expanded, everything up to it was reached and what has it is the wave. -/
structure Ready (g : Ground) (depth : Nat) (wave : List (String × List Step)) (s : Search) : Prop
    extends Sound g s where
  bounded : ∀ v ∈ s.visits, v.depth ≤ depth
  wave : wave = (s.visits.filter (·.depth = depth)).map Visit.node
  closed : g.Closed depth s
  searching : s.found = false

/-- In the end what was reached is closed up to the greatest depth, or up to the one before the last
if the goal was found. -/
structure Finished (g : Ground) (maxDepth : Nat) (s : Search) : Prop extends Sound g s where
  bounded : ∀ v ∈ s.visits, v.depth ≤ maxDepth
  closed : ∃ d ≤ maxDepth, g.Closed d s ∧ (∀ v ∈ s.visits, v.depth ≤ d + 1) ∧
    (s.found = false → d = maxDepth)

theorem Ready.inWave {wave : List (String × List Step)} (h : g.Ready depth wave s) :
    g.InWave depth { s with next := [] } := by
  refine ⟨h.toSound.congr rfl rfl, fun v hv => Nat.le_succ_of_le (h.bounded v hv), ?_⟩
  have hnone : s.visits.filter (·.depth = depth + 1) = [] := by
    rw [List.filter_eq_nil_iff]
    intro v hv
    have hle := h.bounded v hv
    rw [decide_eq_true_eq]
    omega
  rw [hnone]
  rfl

theorem Ready.isNode {wave : List (String × List Step)} (h : g.Ready depth wave s)
    (hnode : node ∈ wave) : g.IsNode depth node := by
  rw [h.wave] at hnode
  obtain ⟨v, hv, rfl⟩ := List.mem_map.1 hnode
  obtain ⟨hvisit, hdepth⟩ := List.mem_filter.1 hv
  obtain ⟨hpath, hlength⟩ := h.first v hvisit
  exact ⟨v.entity, h.known v hvisit, rfl, h.walk v hvisit _ hpath,
    hlength.trans (of_decide_eq_true hdepth)⟩

theorem Closed.grows (h : g.Closed depth s) (hgrows : Grows depth s t) : g.Closed depth t :=
  fun id n hat hn step id' hhop =>
    hgrows.within (h id n (hgrows.old id n (Nat.le_of_lt hn) hat) hn step id' hhop)

/-- A wave that does not find the goal leads to the next one. -/
theorem Ready.next {wave : List (String × List Step)} (h : g.Ready depth wave s)
    (hadvances : g.Advances depth (fun id => ∃ node ∈ wave, ∃ step, g.hop node.1 step id)
      { s with next := [] } t) (hfound : t.found = false) : g.Ready (depth + 1) t.next t := by
  obtain ⟨hwave, hgrows, hcovers⟩ := hadvances
  refine ⟨hwave.toSound, hwave.bounded, hwave.next, ?_, hfound⟩
  intro id n hat hn step id' hhop
  have hbefore := hgrows.old id n (Nat.le_of_lt_succ hn) hat
  rcases Nat.lt_or_eq_of_le (Nat.le_of_lt_succ hn) with hlt | rfl
  · exact hgrows.within (h.closed id n hbefore hlt step id' hhop)
  · rcases hcovers with htrue | hcovers
    · rw [hfound] at htrue
      cases htrue
    · obtain ⟨v, hv, hid, hdepth⟩ := hbefore
      refine hcovers id' ⟨v.node, ?_, step, ?_⟩
      · rw [h.wave]
        exact List.mem_map_of_mem (List.mem_filter.2 ⟨hv, decide_eq_true hdepth⟩)
      · rw [Visit.node, hid]
        exact hhop

theorem finished_waves (hlists : g.Lists list directions) {remaining : Nat}
    {wave : List (String × List Step)} (hs : g.Ready depth wave s)
    (h : waves list allPaths g.goal directions remaining depth wave s = .ok t) :
    g.Finished (depth + remaining) t := by
  induction remaining generalizing depth wave s with
  | zero =>
    cases h
    exact ⟨hs.toSound, hs.bounded, depth, Nat.le_refl _, hs.closed,
      fun v hv => Nat.le_succ_of_le (hs.bounded v hv), fun _ => rfl⟩
  | succ remaining ih =>
    rw [waves, bind_eq_ok_iff] at h
    obtain ⟨u, hu, h⟩ := h
    have hadvances := advances_wave hlists hs.inWave (fun _ => hs.isNode) hu
    cases hfound : u.found with
    | false =>
      have hfinished := ih (hs.next hadvances hfound) h
      rw [Nat.add_right_comm, Nat.add_assoc] at hfinished
      exact hfinished
    | true =>
      obtain ⟨t', ht', hvisits, hsame⟩ := waves_of_found hfound
      rw [ht'] at h
      cases h
      have hsound := hadvances.inWave.toSound.congr hvisits hsame
      have hclosed := Closed.grows (s := { s with next := [] }) hs.closed hadvances.grows
      refine ⟨hsound, ?_, depth, Nat.le_add_right _ _, ?_, ?_, ?_⟩
      · rw [hvisits]
        intro v hv
        exact Nat.le_trans (hadvances.inWave.bounded v hv) (by omega)
      · unfold Closed Within At at hclosed ⊢
        rw [hvisits]
        exact hclosed
      · rw [hvisits]
        exact hadvances.inWave.bounded
      · intro hfalse
        rw [hsame, hfound] at hfalse
        cases hfalse

theorem ready_start (hstart : g.known g.start) (hgoal : g.goal ≠ some g.start.id) :
    g.Ready 0 [(g.start.id, [])] (Search.start g.start) := by
  refine ⟨⟨?_, ?_, ?_, ?_, ?_, ?_, ?_⟩, ?_, rfl, ?_, rfl⟩
  · exact List.nodup_singleton _
  · exact List.forall_mem_singleton.2 hstart
  · exact List.forall_mem_singleton.2 (List.forall_mem_singleton.2 (.here _))
  · exact List.forall_mem_singleton.2 ⟨List.mem_singleton_self _, rfl⟩
  · exact ⟨_, [], rfl, rfl, rfl⟩
  · exact List.pairwise_singleton _ _
  · constructor
    · exact nofun
    · rintro ⟨v, hv, hsome⟩
      rw [List.mem_singleton.1 hv] at hsome
      exact absurd hsome hgoal
  · exact List.forall_mem_singleton.2 (Nat.le_refl 0)
  · exact fun _ _ _ hn => absurd hn (Nat.not_lt_zero _)

/-- What holds at the end of every search from a known start that is not the goal. -/
theorem finished_run (hlists : g.Lists list directions) (hstart : g.known g.start)
    (hgoal : g.goal ≠ some g.start.id) {maxDepth : Nat}
    (h : run list allPaths g.goal directions maxDepth g.start = .ok t) : g.Finished maxDepth t := by
  have hfinished := finished_waves hlists (ready_start hstart hgoal) h
  rw [Nat.zero_add] at hfinished
  exact hfinished

theorem exists_of_waves_eq_error (hlists : g.Lists list directions) {remaining : Nat}
    {wave : List (String × List Step)} (hs : g.Ready depth wave s) {f : Fault}
    (h : waves list allPaths g.goal directions remaining depth wave s = .error f) :
    ∃ d ∈ directions, ∃ e path, g.known e ∧ Walk g.hop g.start.id path e.id ∧
      path.length < depth + remaining ∧ list d e.id = .error f := by
  induction remaining generalizing depth wave s with
  | zero => cases h
  | succ remaining ih =>
    rw [waves, bind_eq_error_iff] at h
    rcases h with h | ⟨u, hu, h⟩
    · obtain ⟨node, hnode, _, hexpand⟩ := exists_mem_of_foldlM_eq_error h
      obtain ⟨d, hd, v, hlist⟩ := exists_mem_of_foldlM_eq_error hexpand
      obtain ⟨e, hknown, hid, hwalk, hlength⟩ := hs.isNode hnode
      unfold expand at hlist
      split at hlist
      · cases hlist
      · rcases bind_eq_error_iff.1 hlist with hlist | ⟨_, _, hdone⟩
        · rw [← hid] at hlist hwalk
          exact ⟨d, hd, e, node.2, hknown, hwalk, by omega, hlist⟩
        · cases hdone
    · have hadvances := advances_wave hlists hs.inWave (fun _ => hs.isNode) hu
      cases hfound : u.found with
      | false =>
        obtain ⟨d, hd, e, path, hknown, hwalk, hlength, hlist⟩ := ih (hs.next hadvances hfound) h
        exact ⟨d, hd, e, path, hknown, hwalk, by omega, hlist⟩
      | true =>
        obtain ⟨t, ht, _⟩ : ∃ t, waves list allPaths g.goal directions remaining (depth + 1) u.next
            u = .ok t ∧ t.visits = u.visits ∧ t.found = u.found := waves_of_found hfound
        rw [ht] at h
        cases h

/-- A search fails only where the neighbors of something within reach cannot be listed. -/
theorem exists_of_run_eq_error (hlists : g.Lists list directions) (hstart : g.known g.start)
    (hgoal : g.goal ≠ some g.start.id) {maxDepth : Nat} {f : Fault}
    (h : run list allPaths g.goal directions maxDepth g.start = .error f) :
    ∃ d ∈ directions, ∃ e path, g.known e ∧ Walk g.hop g.start.id path e.id ∧
      path.length < maxDepth ∧ list d e.id = .error f := by
  obtain ⟨d, hd, e, path, hknown, hwalk, hlength, hlist⟩ :=
    exists_of_waves_eq_error hlists (ready_start hstart hgoal) h
  rw [Nat.zero_add] at hlength
  exact ⟨d, hd, e, path, hknown, hwalk, hlength, hlist⟩

/-! What was reached is nearest. -/

theorem Sound.eq_of_at (hs : g.Sound s) {id : String} {m n : Nat} (hm : s.At id m)
    (hn : s.At id n) : m = n := by
  obtain ⟨v, hv, hvid, rfl⟩ := hm
  obtain ⟨w, hw, hwid, rfl⟩ := hn
  rw [List.inj_on_of_nodup_map hs.nodup hv hw (hvid.trans hwid.symm)]

theorem Sound.head?_paths (hs : g.Sound s) {v : Visit} (hv : v ∈ s.visits) :
    v.paths.head? = some v.node.2 := by
  obtain ⟨first, rest, hpaths⟩ := List.exists_cons_of_ne_nil (List.ne_nil_of_mem (hs.first v hv).1)
  rw [Visit.node, hpaths]
  rfl

theorem Sound.firstPath?_of_mem (hs : g.Sound s) {v : Visit} (hv : v ∈ s.visits) :
    s.firstPath? v.entity.id = some v.node.2 := by
  obtain ⟨w, hw⟩ := Option.isSome_iff_exists.1 (visit?_isSome_iff.2 ⟨v, hv, rfl⟩)
  have hid : w.entity.id = v.entity.id := by simpa using List.find?_some hw
  have hwv : w = v := List.inj_on_of_nodup_map hs.nodup (List.mem_of_find?_eq_some hw) hv hid
  rw [firstPath?, hw, hwv]
  exact hs.head?_paths hv

theorem Closed.within_of_walk (h : g.Closed depth s) (hs : g.Sound s) {path : List Step}
    {id : String} (hwalk : Walk g.hop g.start.id path id) (hle : path.length ≤ depth) :
    s.Within id path.length := by
  induction hwalk with
  | here =>
    obtain ⟨v, rest, hvisits, hentity, hdepth⟩ := hs.head
    refine ⟨0, Nat.le_refl 0, v, ?_, congrArg _ hentity, hdepth⟩
    rw [hvisits]
    exact List.mem_cons_self
  | onward _ last ih =>
    rw [List.length_append, List.length_singleton] at hle ⊢
    obtain ⟨m, hm, hat⟩ := ih (Nat.le_of_succ_le hle)
    obtain ⟨k, hk, hnext⟩ := h _ m hat (by omega) _ _ last
    exact ⟨k, by omega, hnext⟩

namespace Finished

variable {maxDepth : Nat}

theorem isShortest (h : g.Finished maxDepth s) {v : Visit} (hv : v ∈ s.visits) :
    Walk.IsShortest g.hop g.start.id v.node.2 v.entity.id := by
  obtain ⟨hpath, hlength⟩ := h.first v hv
  refine ⟨h.walk v hv _ hpath, fun other hother => ?_⟩
  obtain ⟨d, _, hclosed, hlast, _⟩ := h.closed
  have hdepth := hlast v hv
  by_contra hlt
  obtain ⟨m, hm, hat⟩ := hclosed.within_of_walk h.toSound hother (by omega)
  have heq := h.toSound.eq_of_at hat ⟨v, hv, rfl, rfl⟩
  omega

/-- A search for nothing in particular reaches exactly what is within its depth, and each at the
length of a shortest walk. -/
theorem at_iff (h : g.Finished maxDepth s) (hfound : s.found = false) {id : String} {n : Nat} :
    s.At id n ↔
      n ≤ maxDepth ∧ ∃ path, Walk.IsShortest g.hop g.start.id path id ∧ path.length = n := by
  constructor
  · rintro ⟨v, hv, rfl, rfl⟩
    exact ⟨h.bounded v hv, v.node.2, h.isShortest hv, (h.first v hv).2⟩
  · rintro ⟨hle, path, hshortest, rfl⟩
    obtain ⟨d, _, hclosed, _, hall⟩ := h.closed
    rw [hall hfound] at hclosed
    obtain ⟨m, hm, v, hv, rfl, rfl⟩ := hclosed.within_of_walk h.toSound hshortest.walk hle
    have hleast := hshortest.least _ (h.isShortest hv).walk
    rw [(h.first v hv).2] at hleast
    exact ⟨v, hv, rfl, Nat.le_antisymm hm hleast⟩

/-- The first path to the goal is a shortest walk, and there is one if a walk is within the
depth. -/
theorem firstPath_spec (h : g.Finished maxDepth s) {id : String} (hgoal : g.goal = some id) :
    (∀ path, s.firstPath? id = some path →
      Walk.IsShortest g.hop g.start.id path id ∧ path.length ≤ maxDepth) ∧
    (s.firstPath? id = none →
      ∀ path, Walk g.hop g.start.id path id → maxDepth < path.length) := by
  constructor
  · intro path hpath
    obtain ⟨v, hv, rfl, _⟩ := exists_of_firstPath? hpath
    rw [h.firstPath?_of_mem hv] at hpath
    cases hpath
    refine ⟨h.isShortest hv, ?_⟩
    rw [(h.first v hv).2]
    exact h.bounded v hv
  · intro hnone path hwalk
    have hmissed : ∀ v ∈ s.visits, v.entity.id ≠ id := by
      rintro v hv rfl
      rw [h.firstPath?_of_mem hv] at hnone
      cases hnone
    have hfound : s.found = false := by
      rw [← Bool.not_eq_true, h.found]
      rintro ⟨v, hv, hsome⟩
      rw [hgoal] at hsome
      exact hmissed v hv (Option.some.inj hsome).symm
    obtain ⟨d, _, hclosed, _, hall⟩ := h.closed
    rw [hall hfound] at hclosed
    by_contra hle
    obtain ⟨_, _, v, hv, hid, _⟩ := hclosed.within_of_walk h.toSound hwalk (by omega)
    exact hmissed v hv hid

end Finished

end Ground

end Search

end VersionedGraph
