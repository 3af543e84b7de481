import VersionedGraph.Proofs.Breadth

/-!
# Searches that stop at a goal

A search that stops at a goal and notes one path to each entity goes the same way, for as long as it
has not found the goal, as one that is not after anything and may note every path
(`Search.Heralds`). So where the latter comes to an end the former has the same first path to the
goal, and where the latter fails the former does, too, unless it has found the goal before.
-/

namespace VersionedGraph

/-- What two searches have in common of a visit, whether or not they note every path. -/
def Visit.outline (v : Visit) : String × Nat × Option (List Step) :=
  (v.entity.id, v.depth, v.paths.head?)

namespace Search

/-- A search that stops is in the same state as one that does not, or it has stopped before. -/
structure Heralds (t s : Search) : Prop where
  searching : s.found = false
  paths : ∀ v ∈ s.visits, v.paths ≠ []
  outlines : t.visits.map Visit.outline <+: s.visits.map Visit.outline
  along : t.found = false →
    t.visits.map Visit.outline = s.visits.map Visit.outline ∧ t.next = s.next

variable {s t : Search} {depth : Nat} {goal : String} {allPaths : Bool} {path : List Step}
  {list : HopDirection → String → Except Fault (List Neighbor)} {directions : List HopDirection}

theorem outline_addPath {v : Visit} (h : v.paths ≠ []) (id : String) (path : List Step) :
    (addPath id path v).outline = v.outline := by
  unfold Visit.outline
  rw [addPath_entity, addPath_depth]
  rcases addPath_paths id path v with hsame | ⟨_, hmore⟩
  · rw [hsame]
  · rw [hmore, List.head?_append_of_ne_nil _ h]

theorem firstPath?_eq (s : Search) (id : String) :
    s.firstPath? id = ((s.visits.map Visit.outline).find? fun o => o.1 = id).bind (·.2.2) := by
  unfold firstPath? visit?
  rw [List.find?_map, Option.bind_map]
  rfl

theorem cross_of_found (h : t.found = true) (goal : Option String) (n : Neighbor) :
    t.cross allPaths goal depth path n = t := by
  unfold cross
  exact if_pos h

theorem foldl_cross_of_found (h : t.found = true) (goal : Option String) (ns : List Neighbor) :
    ns.foldl (cross allPaths goal depth path) t = t := by
  induction ns with
  | nil => rfl
  | cons n rest ih =>
    rw [List.foldl_cons, cross_of_found h]
    exact ih

theorem visit?_isSome_eq (h : t.visits.map Visit.outline = s.visits.map Visit.outline)
    (id : String) : (t.visit? id).isSome = (s.visit? id).isSome := by
  have hids : t.visits.map (·.entity.id) = s.visits.map (·.entity.id) := by
    simpa [Function.comp_def, Visit.outline] using congrArg (List.map Prod.fst) h
  rw [Bool.eq_iff_iff, visit?_isSome_iff, visit?_isSome_iff, ← List.mem_map, ← List.mem_map, hids]

theorem paths_cross (h : ∀ v ∈ s.visits, v.paths ≠ []) (goal : Option String) (n : Neighbor) :
    ∀ v ∈ (s.cross allPaths goal depth path n).visits, v.paths ≠ [] := by
  unfold cross
  dsimp only
  split
  · exact h
  · split
    · split
      · rw [List.forall_mem_map]
        intro v hv
        rcases addPath_paths n.entity.id (path ++ [⟨n.link.id, n.entity.id⟩]) v with
          hsame | ⟨_, hmore⟩
        · rw [hsame]
          exact h v hv
        · rw [hmore]
          exact List.append_ne_nil_of_left_ne_nil (h v hv) _
      · exact h
    · rw [List.forall_mem_append, List.forall_mem_singleton]
      exact ⟨h, List.cons_ne_nil _ _⟩

/-- A hop to what was reached before leaves all as it is, but for one more path perhaps. -/
theorem cross_of_visited (h : ∀ v ∈ s.visits, v.paths ≠ []) (allPaths : Bool)
    (goal : Option String) (depth : Nat) (path : List Step) {n : Neighbor}
    (hvisited : (s.visit? n.entity.id).isSome = true) :
    (s.cross allPaths goal depth path n).visits.map Visit.outline = s.visits.map Visit.outline ∧
      (s.cross allPaths goal depth path n).next = s.next ∧
      (s.cross allPaths goal depth path n).found = s.found := by
  unfold cross
  dsimp only
  rw [if_pos hvisited]
  split
  · exact ⟨rfl, rfl, rfl⟩
  · split
    · refine ⟨?_, rfl, rfl⟩
      rw [List.map_map]
      exact List.map_congr_left fun v hv => outline_addPath (h v hv) _ _
    · exact ⟨rfl, rfl, rfl⟩

theorem cross_of_new (hfound : s.found = false) (allPaths : Bool) (goal : Option String)
    (depth : Nat) (path : List Step) {n : Neighbor}
    (hnew : (s.visit? n.entity.id).isSome = false) :
    s.cross allPaths goal depth path n =
      { s with
        visits := s.visits ++ [⟨n.entity, depth + 1, [path ++ [n.step]]⟩]
        next := s.next ++ [(n.entity.id, path ++ [n.step])]
        found := goal = some n.entity.id } := by
  unfold cross
  dsimp only
  rw [hfound, hnew]
  rfl

namespace Heralds

theorem start (e : Record .entity) : Heralds (start e) (start e) :=
  ⟨rfl, List.forall_mem_singleton.2 (List.cons_ne_nil _ _), List.prefix_refl _,
    fun _ => ⟨rfl, rfl⟩⟩

theorem rest (h : Heralds t s) : Heralds { t with next := [] } { s with next := [] } :=
  ⟨h.searching, h.paths, h.outlines, fun hfound => ⟨(h.along hfound).1, rfl⟩⟩

theorem of_eq (hsearching : s.found = false) (hpaths : ∀ v ∈ s.visits, v.paths ≠ [])
    (houtlines : t.visits.map Visit.outline = s.visits.map Visit.outline)
    (hnext : t.next = s.next) : Heralds t s :=
  ⟨hsearching, hpaths, houtlines ▸ List.prefix_rfl, fun _ => ⟨houtlines, hnext⟩⟩

theorem of_found (h : Heralds t s) (hfound : t.found = true) {s' : Search}
    (hsearching : s'.found = false) (hpaths : ∀ v ∈ s'.visits, v.paths ≠ [])
    (hmore : s.visits.map Visit.outline <+: s'.visits.map Visit.outline) : Heralds t s' := by
  refine ⟨hsearching, hpaths, h.outlines.trans hmore, fun hfalse => ?_⟩
  rw [hfound] at hfalse
  cases hfalse

theorem expanded (h : Heralds t s) (listed listed' : List (String × HopDirection)) :
    Heralds { t with expanded := listed } { s with expanded := listed' } :=
  ⟨h.searching, h.paths, h.outlines, h.along⟩

/-- A path to something is noted in both searches or in neither. -/
theorem paths_ne_nil (h : Heralds t s) : ∀ v ∈ t.visits, v.paths ≠ [] := by
  intro v hv hnil
  obtain ⟨w, hw, houtline⟩ := List.mem_map.1 (h.outlines.subset (List.mem_map_of_mem hv))
  have hhead : w.paths.head? = v.paths.head? := congrArg (·.2.2) houtline
  rw [hnil, List.head?_nil, List.head?_eq_none_iff] at hhead
  exact h.paths w hw hhead

/-- Crossing a hop: once the goal is found the one search stands still, and before that both reach
the same. -/
theorem cross (h : Heralds t s) (n : Neighbor) :
    Heralds (t.cross false (some goal) depth path n) (s.cross allPaths none depth path n) := by
  have hpaths : ∀ v ∈ (s.cross allPaths none depth path n).visits, v.paths ≠ [] :=
    paths_cross h.paths none n
  cases hvisited : (s.visit? n.entity.id).isSome with
  | true =>
    obtain ⟨houtlines, hnext, hfound⟩ :=
      cross_of_visited h.paths allPaths none depth path hvisited
    rw [h.searching] at hfound
    cases htfound : t.found with
    | true =>
      rw [cross_of_found htfound]
      exact h.of_found htfound hfound hpaths (houtlines ▸ List.prefix_rfl)
    | false =>
      obtain ⟨hsame, htnext⟩ := h.along htfound
      have htvisited : (t.visit? n.entity.id).isSome = true := by
        rw [visit?_isSome_eq hsame, hvisited]
      obtain ⟨htoutlines, htnext', _⟩ :=
        cross_of_visited h.paths_ne_nil false (some goal) depth path htvisited
      refine of_eq hfound hpaths ?_ ?_
      · rw [htoutlines, houtlines, hsame]
      · rw [htnext', hnext, htnext]
  | false =>
    have hcrossed := cross_of_new h.searching allPaths none depth path hvisited
    rw [hcrossed] at hpaths ⊢
    cases htfound : t.found with
    | true =>
      rw [cross_of_found htfound]
      refine h.of_found htfound rfl hpaths ?_
      rw [List.map_append]
      exact List.prefix_append _ _
    | false =>
      obtain ⟨hsame, htnext⟩ := h.along htfound
      have htvisited : (t.visit? n.entity.id).isSome = false := by
        rw [visit?_isSome_eq hsame, hvisited]
      rw [cross_of_new htfound false (some goal) depth path htvisited]
      refine of_eq rfl hpaths ?_ ?_
      · rw [List.map_append, List.map_append, hsame]
      · rw [htnext]

theorem foldl_cross (h : Heralds t s) (goal : String) (allPaths : Bool) (depth : Nat)
    (path : List Step) (ns : List Neighbor) :
    Heralds (ns.foldl (Search.cross false (some goal) depth path) t)
      (ns.foldl (Search.cross allPaths none depth path) s) := by
  induction ns generalizing t s with
  | nil => exact h
  | cons n rest ih => exact ih (h.cross n)

/-- Both searches have the same first path to the goal if the one that stops has found nothing
else. -/
theorem firstPath?_eq (h : Heralds t s)
    (hfound : t.found = true → ∃ v ∈ t.visits, v.entity.id = goal) :
    t.firstPath? goal = s.firstPath? goal := by
  rw [Search.firstPath?_eq, Search.firstPath?_eq]
  cases htfound : t.found with
  | false => rw [(h.along htfound).1]
  | true =>
    obtain ⟨v, hv, hid⟩ := hfound htfound
    have hsome : ((t.visits.map Visit.outline).find? fun o => o.1 = goal).isSome = true :=
      List.find?_isSome.2 ⟨v.outline, List.mem_map_of_mem hv, decide_eq_true hid⟩
    obtain ⟨o, ho⟩ := Option.isSome_iff_exists.1 hsome
    rw [ho, h.outlines.find?_eq_some ho]

end Heralds

/-- How a search that stops comes out beside one that does not. -/
inductive Outruns : Except Fault Search → Except Fault Search → Prop where
  | ok {t s : Search} (h : Heralds t s) : Outruns (.ok t) (.ok s)
  | error (f : Fault) : Outruns (.error f) (.error f)
  | found {t : Search} (h : t.found = true) (f : Fault) : Outruns (.ok t) (.error f)

namespace Outruns

variable {x y : Except Fault Search}

theorem bind {f g : Search → Except Fault Search} (h : Outruns y x)
    (hnext : ∀ t s, Heralds t s → Outruns (f t) (g s))
    (hstill : ∀ t, t.found = true → ∃ t', f t = .ok t' ∧ t'.found = true) :
    Outruns (y >>= f) (x >>= g) := by
  cases h with
  | ok h => exact hnext _ _ h
  | error f' => exact .error f'
  | @found t hfound f' =>
    obtain ⟨t', ht', hfound'⟩ := hstill t hfound
    rw [ok_bind, ht']
    exact .found hfound' f'

/-- Steps one after the other, of which those of the search that stops do nothing once the goal is
found. -/
theorem foldlM {α : Type} {f g : Search → α → Except Fault Search} {items : List α}
    (hstep : ∀ a ∈ items, ∀ t s, Heralds t s → Outruns (f t a) (g s a))
    (hstill : ∀ t a, t.found = true → f t a = .ok t) (h : Heralds t s) :
    Outruns (items.foldlM f t) (items.foldlM g s) := by
  induction items generalizing t s with
  | nil => exact .ok h
  | cons a rest ih =>
    rw [List.foldlM_cons, List.foldlM_cons]
    refine (hstep a List.mem_cons_self t s h).bind (fun t s h => ?_) fun t hfound => ?_
    · exact ih (fun b hb => hstep b (List.mem_cons_of_mem a hb)) h
    · exact ⟨t, foldlM_of_found hstill hfound rest, hfound⟩

theorem expand (h : Heralds t s) (node : String × List Step) (d : HopDirection) :
    Outruns (t.expand list false (some goal) depth node d)
      (s.expand list allPaths none depth node d) := by
  have hsearching : ¬s.found = true := by
    rw [h.searching]
    exact Bool.false_ne_true
  cases hlist : list d node.1 with
  | error f =>
    unfold Search.expand
    rw [hlist, if_neg hsearching]
    split
    · next hfound => exact .found hfound f
    · exact .error f
  | ok ns =>
    unfold Search.expand
    rw [hlist, if_neg hsearching]
    split
    · next hfound =>
      have hbegun : Heralds t { s with expanded := s.expanded ++ [(node.1, d)] } :=
        h.expanded t.expanded _
      have hfold := hbegun.foldl_cross goal allPaths depth node.2 ns
      rw [foldl_cross_of_found hfound] at hfold
      exact .ok hfold
    · exact .ok ((h.expanded _ _).foldl_cross goal allPaths depth node.2 ns)

theorem wave (h : Heralds t s) (wave : List (String × List Step)) :
    Outruns (wave.foldlM (expandAll list false (some goal) directions depth) t)
      (wave.foldlM (expandAll list allPaths none directions depth) s) :=
  foldlM (fun node _ _ _ h => foldlM (fun d _ _ _ h => expand h node d)
    (fun _ d hfound => expand_of_found hfound node d) h)
    expandAll_of_found h

/-- Waves, of which the searches have the same to expand as long as the goal is not found. -/
theorem waves {remaining : Nat} {wave wave' : List (String × List Step)} (h : Heralds t s)
    (hwave : t.found = false → wave = wave') :
    Outruns (waves list false (some goal) directions remaining depth wave t)
      (waves list allPaths none directions remaining depth wave' s) := by
  induction remaining generalizing depth wave wave' t s with
  | zero => exact .ok h
  | succ remaining ih =>
    have hsame : wave.foldlM (expandAll list false (some goal) directions depth)
          { t with next := [] } =
        wave'.foldlM (expandAll list false (some goal) directions depth) { t with next := [] } := by
      by_cases hfound : ({ t with next := [] } : Search).found = true
      · rw [wave_of_found hfound, wave_of_found hfound]
      · rw [hwave (Bool.eq_false_of_not_eq_true hfound)]
    unfold Search.waves
    rw [hsame]
    refine (Outruns.wave h.rest wave').bind (fun t s h => ih h fun hfound => (h.along hfound).2) ?_
    intro t hfound
    obtain ⟨t', ht', _, hfound'⟩ : ∃ t', Search.waves list false (some goal) directions remaining
        (depth + 1) t.next t = .ok t' ∧ t'.visits = t.visits ∧ t'.found = t.found :=
      waves_of_found hfound
    exact ⟨t', ht', hfound'.trans hfound⟩

theorem run (list : HopDirection → String → Except Fault (List Neighbor)) (allPaths : Bool)
    (goal : String) (directions : List HopDirection) (maxDepth : Nat) (e : Record .entity) :
    Outruns (run list false (some goal) directions maxDepth e)
      (run list allPaths none directions maxDepth e) :=
  waves (.start e) fun _ => rfl

end Outruns

end Search

end VersionedGraph
