import VersionedGraph.Proofs.Agreement
import VersionedGraph.Proofs.Alike
import VersionedGraph.Proofs.Stopping
import VersionedGraph.Proofs.Traversal

/-!
# Which paths are noted

Of the many walks to an entity a search that notes every path notes the first paths of what it
expands, each with one more hop, and no others (`Search.Recorded`). Crossing a hop adds one path to
what is noted if it is not noted yet (`Search.Notes`), so what is expanded adds its hops, a wave adds
the hops of all that is expanded in it, and after the last wave everything that is not as far as the
greatest depth has been expanded. A search that notes one path to each entity goes the same way and
keeps the first of them (`Search.Skims`).
-/

namespace VersionedGraph

/-- A visit with its first path only. -/
def Visit.firstOnly (v : Visit) : Visit :=
  { v with paths := v.paths.take 1 }

namespace Search

/-- A path to an entity is noted. -/
def Noted (s : Search) (id : String) (path : List Step) : Prop :=
  ∃ v ∈ s.visits, v.entity.id = id ∧ path ∈ v.paths

/-- Every visit has some paths, each once and shorter ones first, none longer than a bound. -/
structure Tidy (bound : Nat) (s : Search) : Prop where
  searching : s.found = false
  paths : ∀ v ∈ s.visits, v.paths ≠ []
  nodup : ∀ v ∈ s.visits, v.paths.Nodup
  sorted : ∀ v ∈ s.visits, v.paths.Pairwise fun a b => a.length ≤ b.length
  bounded : ∀ v ∈ s.visits, ∀ path ∈ v.paths, path.length ≤ bound

/-- A part of the wave of some depth leads from one state to another: what is new is one hop
further, and exactly the paths of some sort are noted besides those that were. -/
structure Notes (depth : Nat) (sort : String → List Step → Prop) (s t : Search) : Prop where
  tidy : Tidy (depth + 1) t
  outlines : ∃ more, t.visits.map Visit.outline = s.visits.map Visit.outline ++ more ∧
    ∀ o ∈ more, o.2.1 = depth + 1
  noted : ∀ id path, t.Noted id path ↔ s.Noted id path ∨ sort id path

variable {s t u : Search} {depth : Nat} {path : List Step} {id : String}

theorem Tidy.mono {m n : Nat} (h : Tidy m s) (hle : m ≤ n) : Tidy n s :=
  ⟨h.searching, h.paths, h.nodup, h.sorted,
    fun v hv path hpath => Nat.le_trans (h.bounded v hv path hpath) hle⟩

theorem tidy_start (e : Record .entity) : Tidy 0 (start e) := by
  refine ⟨rfl, ?_, ?_, ?_, ?_⟩
  · exact List.forall_mem_singleton.2 (List.cons_ne_nil _ _)
  · exact List.forall_mem_singleton.2 (List.nodup_singleton _)
  · exact List.forall_mem_singleton.2 (List.pairwise_singleton _ _)
  · exact List.forall_mem_singleton.2 (List.forall_mem_singleton.2 (Nat.le_refl 0))

namespace Notes

variable {sort sort' : String → List Step → Prop}

theorem refl (h : Tidy (depth + 1) s) : Notes depth (fun _ _ => False) s s :=
  ⟨h, ⟨[], by simp, by simp⟩, fun _ _ => by simp⟩

theorem trans (h : Notes depth sort s t) (h' : Notes depth sort' t u) :
    Notes depth (fun id path => sort id path ∨ sort' id path) s u := by
  obtain ⟨more, hmore, hdepth⟩ := h.outlines
  obtain ⟨more', hmore', hdepth'⟩ := h'.outlines
  refine ⟨h'.tidy, ⟨more ++ more', ?_, ?_⟩, fun id path => ?_⟩
  · rw [hmore', hmore, List.append_assoc]
  · exact List.forall_mem_append.2 ⟨hdepth, hdepth'⟩
  · rw [h'.noted, h.noted, or_assoc]

theorem congr (h : Notes depth sort s t) (hsort : ∀ id path, sort id path ↔ sort' id path) :
    Notes depth sort' s t :=
  ⟨h.tidy, h.outlines, fun id path => by rw [h.noted, hsort]⟩

/-- Steps one after the other note what each of them notes. -/
theorem foldlM {α : Type} {f : Search → α → Except Fault Search}
    {sort : α → String → List Step → Prop} {items : List α}
    (hstep : ∀ a ∈ items, ∀ s t, Tidy (depth + 1) s → f s a = .ok t → Notes depth (sort a) s t)
    (hs : Tidy (depth + 1) s) (h : items.foldlM f s = .ok t) :
    Notes depth (fun id path => ∃ a ∈ items, sort a id path) s t := by
  induction items generalizing s with
  | nil =>
    cases h
    exact (refl hs).congr fun _ _ => by simp
  | cons a rest ih =>
    rw [List.foldlM_cons, bind_eq_ok_iff] at h
    obtain ⟨u, hu, h⟩ := h
    have hfirst := hstep a List.mem_cons_self s u hs hu
    have hrest := ih (fun b hb => hstep b (List.mem_cons_of_mem a hb)) hfirst.tidy h
    exact (hfirst.trans hrest).congr fun _ _ => by simp

/-- What was reached up to the depth that is expanded is the same before and after. -/
theorem exists_node_iff (h : Notes depth sort s t) {P : String × List Step → Prop} :
    (∃ v ∈ t.visits, v.depth < depth + 1 ∧ P v.node) ↔
      ∃ v ∈ s.visits, v.depth < depth + 1 ∧ P v.node := by
  have houtline (u : Search) : (∃ v ∈ u.visits, v.depth < depth + 1 ∧ P v.node) ↔
      ∃ o ∈ u.visits.map Visit.outline, o.2.1 < depth + 1 ∧ P (o.1, o.2.2.getD []) := by
    simp [Visit.outline, Visit.node, List.headD_eq_head?_getD]
  obtain ⟨more, hmore, hdepth⟩ := h.outlines
  rw [houtline, houtline, hmore]
  constructor
  · rintro ⟨o, ho, hlt, hP⟩
    rcases List.mem_append.1 ho with ho | ho
    · exact ⟨o, ho, hlt, hP⟩
    · have hnew := hdepth o ho
      omega
  · rintro ⟨o, ho, hlt, hP⟩
    exact ⟨o, List.mem_append_left more ho, hlt, hP⟩

end Notes

/-! Crossing one hop. -/

theorem mem_addPath_paths {v : Visit} {p : List Step} :
    p ∈ (addPath id path v).paths ↔ p ∈ v.paths ∨ v.entity.id = id ∧ p = path := by
  unfold addPath
  by_cases hid : v.entity.id = id
  · by_cases hmem : path ∈ v.paths
    · have hsame : p = path → p ∈ v.paths := fun h => h ▸ hmem
      simpa [hid, hmem] using hsame
    · simp [hid, hmem]
  · simp [hid]

theorem nodup_addPath {v : Visit} (h : v.paths.Nodup) : (addPath id path v).paths.Nodup := by
  unfold addPath
  split
  · next hnew =>
    rw [Bool.and_eq_true, Bool.not_eq_true', List.contains_eq_mem, decide_eq_false_iff_not] at hnew
    rw [List.nodup_append]
    refine ⟨h, List.nodup_singleton _, ?_⟩
    rintro a ha b hb rfl
    rw [List.mem_singleton.1 hb] at ha
    exact hnew.2 ha
  · exact h

/-- A path that is at least as long as the others comes last. -/
theorem sorted_addPath {v : Visit} (h : v.paths.Pairwise fun a b => a.length ≤ b.length)
    (hlast : ∀ p ∈ v.paths, p.length ≤ path.length) :
    (addPath id path v).paths.Pairwise fun a b => a.length ≤ b.length := by
  rcases addPath_paths id path v with hsame | ⟨_, hmore⟩
  · rw [hsame]
    exact h
  · rw [hmore, List.pairwise_append]
    refine ⟨h, List.pairwise_singleton _ _, fun p hp q hq => ?_⟩
    rw [List.mem_singleton.1 hq]
    exact hlast p hp

theorem cross_of_known (hfound : s.found = false) (goal : Option String) {n : Neighbor}
    (hvisited : (s.visit? n.entity.id).isSome = true) :
    s.cross true goal depth path n =
      { s with visits := s.visits.map (addPath n.entity.id (path ++ [n.step])) } := by
  unfold cross
  dsimp only
  rw [hfound, hvisited]
  rfl

theorem cross_of_known_once (hfound : s.found = false) (goal : Option String) {n : Neighbor}
    (hvisited : (s.visit? n.entity.id).isSome = true) : s.cross false goal depth path n = s := by
  unfold cross
  dsimp only
  rw [hfound, hvisited]
  rfl

theorem notes_addPath (hs : Tidy (depth + 1) s) (hlength : path.length = depth + 1)
    (hvisited : (s.visit? id).isSome = true) :
    Notes depth (fun x p => x = id ∧ p = path) s
      { s with visits := s.visits.map (addPath id path) } := by
  refine ⟨⟨hs.searching, ?_, ?_, ?_, ?_⟩, ⟨[], ?_, by simp⟩, fun x p => ?_⟩
  · rw [List.forall_mem_map]
    intro v hv
    obtain ⟨first, hfirst⟩ := List.exists_mem_of_ne_nil _ (hs.paths v hv)
    exact List.ne_nil_of_mem (mem_addPath_paths.2 (.inl hfirst))
  · rw [List.forall_mem_map]
    exact fun v hv => nodup_addPath (hs.nodup v hv)
  · rw [List.forall_mem_map]
    intro v hv
    refine sorted_addPath (hs.sorted v hv) ?_
    rw [hlength]
    exact hs.bounded v hv
  · rw [List.forall_mem_map]
    intro v hv p hp
    rcases mem_addPath_paths.1 hp with hp | ⟨_, rfl⟩
    · exact hs.bounded v hv p hp
    · exact Nat.le_of_eq hlength
  · rw [List.append_nil, List.map_map]
    exact List.map_congr_left fun v hv => outline_addPath (hs.paths v hv) id path
  · obtain ⟨v, hv, hid⟩ := visit?_isSome_iff.1 hvisited
    simp only [Noted, List.mem_map, exists_exists_and_eq_and, addPath_entity, mem_addPath_paths]
    constructor
    · rintro ⟨w, hw, rfl, hp | ⟨rfl, rfl⟩⟩
      · exact .inl ⟨w, hw, rfl, hp⟩
      · exact .inr ⟨rfl, rfl⟩
    · rintro (⟨w, hw, rfl, hp⟩ | ⟨rfl, rfl⟩)
      · exact ⟨w, hw, rfl, .inl hp⟩
      · exact ⟨v, hv, hid, .inr ⟨hid, rfl⟩⟩

theorem notes_visit (hs : Tidy (depth + 1) s) (e : Record .entity)
    (hlength : path.length = depth + 1) (next : List (String × List Step)) :
    Notes depth (fun x p => x = e.id ∧ p = path) s
      { s with visits := s.visits ++ [⟨e, depth + 1, [path]⟩], next := next } := by
  refine ⟨⟨hs.searching, ?_, ?_, ?_, ?_⟩, ⟨[(e.id, depth + 1, some path)], ?_, ?_⟩, fun x p => ?_⟩
  · exact List.forall_mem_append.2 ⟨hs.paths, List.forall_mem_singleton.2 (List.cons_ne_nil _ _)⟩
  · exact List.forall_mem_append.2 ⟨hs.nodup, List.forall_mem_singleton.2 (List.nodup_singleton _)⟩
  · exact List.forall_mem_append.2
      ⟨hs.sorted, List.forall_mem_singleton.2 (List.pairwise_singleton _ _)⟩
  · refine List.forall_mem_append.2 ⟨hs.bounded, ?_⟩
    exact List.forall_mem_singleton.2 (List.forall_mem_singleton.2 (Nat.le_of_eq hlength))
  · rw [List.map_append]
    rfl
  · exact List.forall_mem_singleton.2 rfl
  · simp only [Noted, List.mem_append, List.mem_singleton, or_and_right, exists_or, exists_eq_left]
    exact or_congr_right (and_congr_left fun _ => eq_comm)

/-- Crossing a hop notes the path that it makes longer. -/
theorem notes_cross (hs : Tidy (depth + 1) s) (hlength : path.length = depth) (n : Neighbor) :
    Notes depth (fun id p => id = n.entity.id ∧ p = path ++ [n.step]) s
      (s.cross true none depth path n) := by
  have hlonger : (path ++ [n.step]).length = depth + 1 := by simp [hlength]
  cases hvisited : (s.visit? n.entity.id).isSome with
  | true =>
    rw [cross_of_known hs.searching none hvisited]
    exact notes_addPath hs hlonger hvisited
  | false =>
    have hnew := notes_visit hs n.entity hlonger (s.next ++ [(n.entity.id, path ++ [n.step])])
    rw [cross_of_new hs.searching true none depth path hvisited]
    exact ⟨⟨rfl, hnew.tidy.paths, hnew.tidy.nodup, hnew.tidy.sorted, hnew.tidy.bounded⟩,
      hnew.outlines, hnew.noted⟩

theorem notes_foldl_cross (hs : Tidy (depth + 1) s) (hlength : path.length = depth)
    (ns : List Neighbor) :
    Notes depth (fun id p => ∃ n ∈ ns, id = n.entity.id ∧ p = path ++ [n.step]) s
      (ns.foldl (cross true none depth path) s) := by
  induction ns generalizing s with
  | nil => exact (Notes.refl hs).congr fun _ _ => by simp
  | cons n rest ih =>
    have hfirst := notes_cross hs hlength n
    exact (hfirst.trans (ih hfirst.tidy)).congr fun _ _ => by simp

namespace Ground

variable {g : Ground} {list : HopDirection → String → Except Fault (List Neighbor)}
  {directions : List HopDirection} {node : String × List Step}

/-! Expanding what a wave holds. -/

theorem notes_expand (hlists : g.Lists list directions) (hs : Tidy (depth + 1) s)
    (hnode : g.IsNode depth node) {d : HopDirection} (hd : d ∈ directions)
    (h : expand list true none depth node s d = .ok t) :
    Notes depth (fun id p => ∃ step, g.hop node.1 step id ∧
      (∀ ns, list d node.1 = .ok ns → ∃ n ∈ ns, n.step = step ∧ n.entity.id = id) ∧
      p = node.2 ++ [step]) s t := by
  obtain ⟨e, hknown, hid, _, hlength⟩ := hnode
  unfold expand at h
  rw [hs.searching, if_neg Bool.false_ne_true, bind_eq_ok_iff] at h
  obtain ⟨ns, hns, h⟩ := h
  cases h
  have hbegun : Tidy (depth + 1) { s with expanded := s.expanded ++ [(node.1, d)], found := false } :=
    ⟨rfl, hs.paths, hs.nodup, hs.sorted, hs.bounded⟩
  obtain ⟨htidy, houtlines, hnoted⟩ := notes_foldl_cross hbegun hlength ns
  have hcrossed : Notes depth (fun id p => ∃ n ∈ ns, id = n.entity.id ∧ p = node.2 ++ [n.step])
      s _ := ⟨htidy, houtlines, hnoted⟩
  refine hcrossed.congr fun id p => ?_
  constructor
  · rintro ⟨n, hn, rfl, rfl⟩
    rw [← hid] at hns ⊢
    refine ⟨n.step, hlists.hop d hd e hknown ns hns n hn, fun ns' hns' => ?_, rfl⟩
    rw [hns] at hns'
    cases hns'
    exact ⟨n, hn, rfl, rfl⟩
  · rintro ⟨step, _, hlisted, rfl⟩
    obtain ⟨n, hn, rfl, rfl⟩ := hlisted ns hns
    exact ⟨n, hn, rfl, rfl⟩

/-- Expanding an entity notes the path to it with each of its hops. -/
theorem notes_expandAll (hlists : g.Lists list directions) (hs : Tidy (depth + 1) s)
    (hnode : g.IsNode depth node) (h : expandAll list true none directions depth s node = .ok t) :
    Notes depth (fun id p => ∃ step, g.hop node.1 step id ∧ p = node.2 ++ [step]) s t := by
  have hrun := Notes.foldlM (fun d hd _ _ hs h => notes_expand hlists hs hnode hd h) hs h
  refine hrun.congr fun id p => ?_
  constructor
  · rintro ⟨_, _, step, hhop, _, hp⟩
    exact ⟨step, hhop, hp⟩
  · rintro ⟨step, hhop, hp⟩
    obtain ⟨e, hknown, hid, _, _⟩ := hnode
    rw [← hid] at hhop ⊢
    obtain ⟨d, hd, hcomplete⟩ := hlists.complete e hknown step id hhop
    exact ⟨d, hd, step, hhop, hcomplete, hp⟩

theorem notes_wave (hlists : g.Lists list directions) (hs : Tidy (depth + 1) s)
    {wave : List (String × List Step)} (hwave : ∀ node ∈ wave, g.IsNode depth node)
    (h : wave.foldlM (expandAll list true none directions depth) s = .ok t) :
    Notes depth (fun id p => ∃ node ∈ wave, ∃ step, g.hop node.1 step id ∧ p = node.2 ++ [step])
      s t :=
  Notes.foldlM (fun node hnode _ _ hs h => notes_expandAll hlists hs (hwave node hnode) h) hs h

/-! Wave after wave. -/

/-- What is noted are the first paths of all that was reached before some depth, each with one more
hop, and the path to the start that makes no hop. -/
def Recorded (g : Ground) (depth : Nat) (s : Search) : Prop :=
  ∀ id path, s.Noted id path ↔ (id = g.start.id ∧ path = []) ∨
    ∃ v ∈ s.visits, v.depth < depth ∧ ∃ step, g.hop v.node.1 step id ∧ path = v.node.2 ++ [step]

theorem recorded_start : g.Recorded 0 (Search.start g.start) := by
  intro id path
  simp [Noted, Search.start, eq_comm]

theorem Recorded.next {wave : List (String × List Step)} (h : g.Recorded depth s)
    (hready : g.Ready depth wave s)
    (hnotes : Notes depth
      (fun id p => ∃ node ∈ wave, ∃ step, g.hop node.1 step id ∧ p = node.2 ++ [step])
      { s with next := [] } t) : g.Recorded (depth + 1) t := by
  intro id path
  have hwave : (∃ node ∈ wave, ∃ step, g.hop node.1 step id ∧ path = node.2 ++ [step]) ↔
      ∃ v ∈ s.visits, v.depth = depth ∧
        ∃ step, g.hop v.node.1 step id ∧ path = v.node.2 ++ [step] := by
    rw [hready.wave]
    constructor
    · rintro ⟨_, hnode, hhop⟩
      obtain ⟨v, hv, rfl⟩ := List.mem_map.1 hnode
      obtain ⟨hv, hdepth⟩ := List.mem_filter.1 hv
      exact ⟨v, hv, of_decide_eq_true hdepth, hhop⟩
    · rintro ⟨v, hv, hdepth, hhop⟩
      exact ⟨v.node, List.mem_map_of_mem (List.mem_filter.2 ⟨hv, decide_eq_true hdepth⟩), hhop⟩
  have hbefore : (∃ v ∈ s.visits, v.depth < depth + 1 ∧
        ∃ step, g.hop v.node.1 step id ∧ path = v.node.2 ++ [step]) ↔
      (∃ v ∈ s.visits, v.depth < depth ∧
        ∃ step, g.hop v.node.1 step id ∧ path = v.node.2 ++ [step]) ∨
      ∃ v ∈ s.visits, v.depth = depth ∧
        ∃ step, g.hop v.node.1 step id ∧ path = v.node.2 ++ [step] := by
    simp only [Nat.lt_succ_iff_lt_or_eq, or_and_right, and_or_left, exists_or]
  have hsame := hnotes.exists_node_iff
    (P := fun node => ∃ step, g.hop node.1 step id ∧ path = node.2 ++ [step])
  rw [hnotes.noted, hwave, hsame, hbefore, ← or_assoc]
  exact or_congr_left (h id path)

theorem recorded_waves (hlists : g.Lists list directions) (hgoal : g.goal = none) {remaining : Nat}
    {wave : List (String × List Step)} (hready : g.Ready depth wave s) (htidy : Tidy depth s)
    (hs : g.Recorded depth s)
    (h : waves list true none directions remaining depth wave s = .ok t) :
    g.Recorded (depth + remaining) t ∧ Tidy (depth + remaining) t := by
  induction remaining generalizing depth wave s with
  | zero =>
    cases h
    exact ⟨hs, htidy⟩
  | succ remaining ih =>
    rw [waves, bind_eq_ok_iff] at h
    obtain ⟨u, hu, h⟩ := h
    have hbegun : Tidy (depth + 1) { s with next := [] } :=
      let htidy := htidy.mono (Nat.le_succ depth)
      ⟨htidy.searching, htidy.paths, htidy.nodup, htidy.sorted, htidy.bounded⟩
    have hnotes := notes_wave hlists hbegun (fun _ => hready.isNode) hu
    rw [← hgoal] at hu
    have hadvances := advances_wave hlists hready.inWave (fun _ => hready.isNode) hu
    have hnext := hready.next hadvances hnotes.tidy.searching
    obtain ⟨hrecorded, htidy⟩ := ih hnext hnotes.tidy (hs.next hready hnotes) h
    rw [Nat.add_right_comm, Nat.add_assoc] at hrecorded htidy
    exact ⟨hrecorded, htidy⟩

/-- A search for nothing in particular notes the first paths of all that is not as far as its depth,
each with one more hop. -/
theorem recorded_run (hlists : g.Lists list directions) (hstart : g.known g.start)
    (hgoal : g.goal = none) {maxDepth : Nat}
    (h : run list true none directions maxDepth g.start = .ok t) :
    g.Recorded maxDepth t ∧ Tidy maxDepth t := by
  have hready : g.Ready 0 [(g.start.id, [])] (Search.start g.start) :=
    ready_start hstart (by rw [hgoal]; exact nofun)
  have hrun := recorded_waves hlists hgoal hready (tidy_start g.start) recorded_start h
  rw [Nat.zero_add] at hrun
  exact hrun

/-- The paths of a visit are what is noted. -/
theorem Sound.noted_iff (hs : g.Sound s) {v : Visit} (hv : v ∈ s.visits) :
    s.Noted v.entity.id path ↔ path ∈ v.paths := by
  constructor
  · rintro ⟨w, hw, hid, hpath⟩
    rw [← List.inj_on_of_nodup_map hs.nodup hw hv hid]
    exact hpath
  · intro hpath
    exact ⟨v, hv, rfl, hpath⟩

end Ground

/-! Searches that note one path to each entity. -/

/-- A search is in the same state as one that may have noted more paths to the same entities. -/
structure Skims (t s : Search) : Prop where
  visits : t.visits = s.visits.map Visit.firstOnly
  next : t.next = s.next
  expanded : t.expanded = s.expanded
  found : t.found = s.found
  paths : ∀ v ∈ s.visits, v.paths ≠ []

namespace Skims

theorem start (e : Record .entity) : Skims (start e) (start e) :=
  ⟨rfl, rfl, rfl, rfl, List.forall_mem_singleton.2 (List.cons_ne_nil _ _)⟩

theorem firstOnly_addPath {v : Visit} (h : v.paths ≠ []) :
    (addPath id path v).firstOnly = v.firstOnly := by
  obtain ⟨first, rest, hpaths⟩ := List.exists_cons_of_ne_nil h
  unfold addPath
  split
  · simp [Visit.firstOnly, hpaths]
  · rfl

theorem visit?_isSome (h : Skims t s) (id : String) :
    (t.visit? id).isSome = (s.visit? id).isSome := by
  rw [Bool.eq_iff_iff, visit?_isSome_iff, visit?_isSome_iff, h.visits]
  simp [Visit.firstOnly]

theorem cross (h : Skims t s) (goal : Option String) (n : Neighbor) :
    Skims (t.cross false goal depth path n) (s.cross true goal depth path n) := by
  cases hfound : s.found with
  | true =>
    rw [cross_of_found hfound, cross_of_found (h.found.trans hfound)]
    exact h
  | false =>
    have htfound : t.found = false := h.found.trans hfound
    have hvisit := h.visit?_isSome n.entity.id
    cases hvisited : (s.visit? n.entity.id).isSome with
    | true =>
      rw [cross_of_known_once htfound goal (hvisit.trans hvisited),
        cross_of_known hfound goal hvisited]
      refine ⟨?_, h.next, h.expanded, h.found, ?_⟩
      · rw [h.visits, List.map_map]
        exact (List.map_congr_left fun v hv => firstOnly_addPath (h.paths v hv)).symm
      · have hpaths : ∀ v ∈ (s.cross true goal depth path n).visits, v.paths ≠ [] :=
          paths_cross h.paths goal n
        rw [cross_of_known hfound goal hvisited] at hpaths
        exact hpaths
    | false =>
      rw [cross_of_new htfound false goal depth path (hvisit.trans hvisited),
        cross_of_new hfound true goal depth path hvisited]
      refine ⟨?_, ?_, h.expanded, rfl, ?_⟩
      · rw [h.visits, List.map_append]
        rfl
      · rw [h.next]
      · exact List.forall_mem_append.2
          ⟨h.paths, List.forall_mem_singleton.2 (List.cons_ne_nil _ _)⟩

theorem foldl_cross (h : Skims t s) (goal : Option String) (depth : Nat) (path : List Step)
    (ns : List Neighbor) :
    Skims (ns.foldl (Search.cross false goal depth path) t)
      (ns.foldl (Search.cross true goal depth path) s) := by
  induction ns generalizing t s with
  | nil => exact h
  | cons n rest ih => exact ih (h.cross goal n)

/-- How two searches come out of which one notes fewer paths: alike. -/
abbrev Runs (x y : Except Fault Search) : Prop :=
  Alike (fun _ => False) (fun _ => False) Skims x y

variable {list : HopDirection → String → Except Fault (List Neighbor)} {goal : Option String}
  {directions : List HopDirection}

theorem expand (h : Skims t s) (node : String × List Step) (d : HopDirection) :
    Runs (t.expand list false goal depth node d) (s.expand list true goal depth node d) := by
  cases hfound : s.found with
  | true =>
    rw [expand_of_found hfound, expand_of_found (h.found.trans hfound)]
    exact .ok h
  | false =>
    unfold Search.expand
    rw [hfound, h.found.trans hfound]
    refine Alike.bind_same fun ns _ => .ok ?_
    have hbegun : Skims { t with expanded := t.expanded ++ [(node.1, d)], found := false }
        { s with expanded := s.expanded ++ [(node.1, d)], found := false } :=
      ⟨h.visits, h.next, by rw [h.expanded], rfl, h.paths⟩
    exact hbegun.foldl_cross goal depth node.2 ns

theorem waves {remaining : Nat} {wave : List (String × List Step)} (h : Skims t s) :
    Runs (waves list false goal directions remaining depth wave t)
      (waves list true goal directions remaining depth wave s) := by
  induction remaining generalizing depth wave t s with
  | zero => exact .ok h
  | succ remaining ih =>
    have hbegun : Skims { t with next := [] } { s with next := [] } :=
      ⟨h.visits, rfl, h.expanded, h.found, h.paths⟩
    have hwave : Runs (wave.foldlM (expandAll list false goal directions depth) { t with next := [] })
        (wave.foldlM (expandAll list true goal directions depth) { s with next := [] }) :=
      Alike.foldlM (fun node _ _ _ h => Alike.foldlM (fun d _ _ _ h => expand h node d) h) hbegun
    refine hwave.bind fun t s _ _ h => ?_
    rw [h.next]
    exact ih h

theorem run (list : HopDirection → String → Except Fault (List Neighbor)) (goal : Option String)
    (directions : List HopDirection) (maxDepth : Nat) (e : Record .entity) :
    Runs (run list false goal directions maxDepth e) (run list true goal directions maxDepth e) :=
  waves (start e)

end Skims

end Search

namespace Store

variable {s : Store} {settings : SearchSettings} {r : TraversalRequest} {t : Traversal}

theorem hop_ground_iff (h : s.Versioned .entity) {rule : HopRule} {directions : List HopDirection}
    {record : Record .entity} {goal : Option String} {u v : Row .entity} (hv : v ∈ s.rows .entity)
    {step : Step} :
    (s.ground rule directions record goal).hop u.id step v.id ↔
      ∃ n, s.Crosses rule directions u n v ∧ n.step = step := by
  constructor
  · rintro ⟨n, ⟨d, hd, hhop⟩, hstep, hid⟩
    exact ⟨n, ⟨h.eq_of_id_eq hhop.entity hv hid, d, hd, h.eq_of_id_eq hhop.entity hv hid ▸ hhop⟩,
      hstep⟩
  · rintro ⟨n, ⟨rfl, hhop⟩, hstep⟩
    exact ⟨n, hhop, hstep, rfl⟩

/-- The paths that are noted, told by rows: where something that is not as deep as the greatest depth
was reached, and a hop from there. -/
theorem mem_paths_iff (h : s.Versioned .entity) {rule : HopRule} {directions : List HopDirection}
    {start : Row .entity} {record : Record .entity} {search : Search} {maxDepth : Nat}
    (hstart : start ∈ s.rows .entity) (hdecode : start.decode = .ok record)
    (hsound : (s.ground rule directions record none).Sound search)
    (hrecorded : (s.ground rule directions record none).Recorded maxDepth search) {v : Visit}
    (hv : v ∈ search.visits) {path : List Step} :
    path ∈ v.paths ↔ (start.decode = .ok v.entity ∧ path = []) ∨
      ∃ u ∈ search.visits, u.depth < maxDepth ∧
        ∃ origin ∈ s.rows .entity, ∃ hop row, origin.decode = .ok u.entity ∧
          row.decode = .ok v.entity ∧ s.Crosses rule directions origin hop row ∧
          path = u.node.2 ++ [hop.step] := by
  obtain ⟨row, hrow, _, hrowdecode⟩ := hsound.known v hv
  have hsame {row' : Row .entity} (hrow' : row' ∈ s.rows .entity)
      (hdecode' : row'.decode = .ok v.entity) : row' = row :=
    h.eq_of_id_eq hrow' hrow ((id_of_decode hdecode').symm.trans (id_of_decode hrowdecode))
  have hself : v.entity.id = record.id ↔ start.decode = .ok v.entity := by
    rw [id_of_decode hrowdecode, id_of_decode hdecode]
    constructor
    · intro hid
      rw [← h.eq_of_id_eq hrow hstart hid]
      exact hrowdecode
    · intro hself
      rw [hsame hstart hself]
  rw [← hsound.noted_iff hv, hrecorded]
  refine or_congr (and_congr_left fun _ => hself) (exists_congr fun u => and_congr_right fun hu =>
    and_congr_right fun _ => ?_)
  constructor
  · rintro ⟨step, hhop, rfl⟩
    obtain ⟨origin, horigin, _, hudecode⟩ := hsound.known u hu
    rw [Visit.node, id_of_decode hudecode, id_of_decode hrowdecode, hop_ground_iff h hrow] at hhop
    obtain ⟨hop, hcrosses, rfl⟩ := hhop
    exact ⟨origin, horigin, hop, row, hudecode, hrowdecode, hcrosses, rfl⟩
  · rintro ⟨origin, _, hop, row', hudecode, hrowdecode', ⟨rfl, hhop⟩, rfl⟩
    refine ⟨hop.step, ?_, rfl⟩
    rw [Visit.node, id_of_decode hudecode, id_of_decode hrowdecode']
    exact ⟨hop, hhop, rfl, rfl⟩

/-- A traversal that notes one path to each entity goes the same way as one that notes them all. -/
theorem traverse_skims (s : Store) (settings : SearchSettings) (r : TraversalRequest) :
    Alike (fun _ => False) (fun _ => False)
      (fun t' t => t' = { t with visits := t.visits.map Visit.firstOnly, allPaths := false })
      (s.traverse settings { r with allPaths := false })
      (s.traverse settings { r with allPaths := true }) := by
  unfold traverse
  refine Alike.bind_same fun direction? _ => ?_
  refine Alike.bind_same fun depth _ => ?_
  refine Alike.bind_same fun entityFilters _ => ?_
  refine Alike.bind_same fun linkFilters _ => ?_
  refine Alike.bind_same fun start _ => ?_
  refine Alike.bind_same fun access _ => ?_
  cases direction? with
  | none => exact .error _
  | some direction =>
    refine (Search.Skims.run _ none direction.hops depth start).bind fun t s _ _ h => .ok ?_
    rw [h.visits, h.expanded]

/-- A traversal that notes every path notes for each entity, each once and shorter ones first, the
walk by which it was reached, with as many hops as it is deep, and besides it, where that is another
one, the walk by which anything that is not as deep as the greatest depth was reached followed by a
hop from there to the entity. The start has the walk without hops. Asked for one path to each entity
it lists the same entities in the same order and at the same depths, each with the first path. -/
theorem Reachable.traverse_notes_first_paths (h : s.Reachable) (hpaths : r.allPaths = true)
    (ht : s.traverse settings r = .ok t) :
    Direction.given? r.direction = .ok (some t.direction) ∧
    requestedDepth r.maxDepth settings.traversalDepth = .ok t.maxDepth ∧
    (∃ start, s.Accepts r.user r.includeDeleted r.start start ∧
      ∀ v ∈ t.visits,
        v.paths.Nodup ∧
        v.paths.head? = some v.node.2 ∧ v.node.2.length = v.depth ∧
        (v.paths.Pairwise fun a b => a.length ≤ b.length) ∧
        (∀ path ∈ v.paths, path.length ≤ t.maxDepth ∧
          ∃ hops row, Walk (s.Crosses (r.rule s) t.direction.hops) start hops row ∧
            row.decode = .ok v.entity ∧ hops.map NeighborRow.step = path) ∧
        ∀ path, path ∈ v.paths ↔
          (start.decode = .ok v.entity ∧ path = []) ∨
          ∃ u ∈ t.visits, u.depth < t.maxDepth ∧
            ∃ origin ∈ s.rows .entity, ∃ hop row, origin.decode = .ok u.entity ∧
              row.decode = .ok v.entity ∧ s.Crosses (r.rule s) t.direction.hops origin hop row ∧
              path = u.node.2 ++ [hop.step]) ∧
    s.traverse settings { r with allPaths := false } =
      .ok { t with visits := t.visits.map Visit.firstOnly, allPaths := false } := by
  have hv := h.versioned
  have hself : ({ r with allPaths := true } : TraversalRequest) = r := by
    cases r
    cases hpaths
    rfl
  have hskims := traverse_skims s settings r
  rw [hself, ht] at hskims
  obtain ⟨_, hfirst, rfl⟩ := hskims.exists_eq_ok
  obtain ⟨hdirection, hdepth, start, record, access, haccepts, hdecode, _, haccess, request,
    search, hrequest, hsearch, hvisits⟩ := traverse_eq_ok hv ht
  have hlists : (s.ground (request.rule access.Lets) t.direction.hops record none).Lists
      (s.readableNeighbors access request) t.direction.hops := lists_ground hv
  have hstart : (s.ground (request.rule access.Lets) t.direction.hops record none).known record :=
    ⟨start, haccepts.entity, haccepts.latest, hdecode⟩
  have hsound := (Search.Ground.finished_run hlists hstart (by exact nofun) hsearch).toSound
  rw [hpaths] at hsearch
  obtain ⟨hrecorded, htidy⟩ := Search.Ground.recorded_run hlists hstart rfl hsearch
  rw [rule_of_request hrequest haccess] at hsound hrecorded
  rw [← hvisits] at hfirst ⊢
  refine ⟨hdirection, hdepth, ⟨start, haccepts, fun v hvisit => ⟨htidy.nodup v hvisit,
    hsound.head?_paths hvisit, (hsound.first v hvisit).2, htidy.sorted v hvisit,
    fun path hpath => ⟨htidy.bounded v hvisit path hpath, ?_⟩,
    fun path => mem_paths_iff (hv .entity) haccepts.entity hdecode hsound hrecorded hvisit⟩⟩, hfirst⟩
  have hwalk := hsound.walk v hvisit path hpath
  change Walk _ record.id path v.entity.id at hwalk
  obtain ⟨row, hrow, _, hrowdecode⟩ := hsound.known v hvisit
  rw [id_of_decode hdecode, id_of_decode hrowdecode] at hwalk
  obtain ⟨hops, last, hcrosses, hsteps, hid⟩ := walk_ground_iff.1 hwalk
  have hlast := latest_of_walk haccepts.entity haccepts.latest hcrosses
  rw [(hv .entity).eq_of_id_eq hlast.1 hrow hid] at hcrosses
  exact ⟨hops, row, hcrosses, hrowdecode, hsteps⟩

/-- Crossing links both ways, the traversal around the first note of the diamond notes how it came
back to it, and both ways to the last note; of these the one by which it got there first is left if
it is asked for no more. -/
theorem first_paths_through_diamond :
    let request : TraversalRequest :=
      { start := .str "a", direction := .str "both", maxDepth := .int 2, allPaths := true }
    let paths : List (List (List Step)) :=
      [[[], [⟨"ab", "b"⟩, ⟨"ab", "a"⟩], [⟨"ac", "c"⟩, ⟨"ac", "a"⟩]], [[⟨"ab", "b"⟩]],
        [[⟨"ac", "c"⟩]], [[⟨"ab", "b"⟩, ⟨"bd", "d"⟩], [⟨"ac", "c"⟩, ⟨"cd", "d"⟩]]]
    ∃ t, diamond.traverse {} request = .ok t ∧ t.visits.map (·.paths) = paths ∧
      (∀ v ∈ t.visits, v.paths.Nodup) ∧
      ∃ t', diamond.traverse {} { request with allPaths := false } = .ok t' ∧
        t'.visits.map (·.paths) = paths.map (·.take 1) := by
  intro request paths
  have hlisted : (diamond.traverse {} request).map (fun t => t.visits.map (·.paths)) =
      .ok paths := by cbv
  cases ht : diamond.traverse {} request with
  | error f => exact absurd ht (ne_error_of_map hlisted f)
  | ok t =>
    rw [ht] at hlisted
    have hpaths : t.visits.map (·.paths) = paths := Except.ok.inj hlisted
    obtain ⟨_, _, ⟨_, _, hvisits⟩, hfirst⟩ :=
      Reachable.traverse_notes_first_paths reachable_diamond rfl ht
    refine ⟨t, rfl, hpaths, fun v hv => (hvisits v hv).1, _, hfirst, ?_⟩
    rw [List.map_map, ← hpaths, List.map_map]
    rfl

end Store

end VersionedGraph
