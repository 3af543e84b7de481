import VersionedGraph.Graph.Search
import VersionedGraph.Proofs.Outcome

/-!
# Computations that come out alike

Two computations are alike when their results are related or their faults are the same, unless one
of them ends in a fault that it may have on its own (`Alike`). Computations made of alike steps are
alike, and so are two searches whose lists of neighbors are alike around everything that they reach.
-/

namespace VersionedGraph

/-- Two computations end with related results or with the same fault, but for the faults that each
of them may have on its own. -/
inductive Alike {ε α β : Type} (own own' : ε → Prop) (related : α → β → Prop) :
    Except ε α → Except ε β → Prop where
  | ok {a : α} {b : β} (h : related a b) : Alike own own' related (.ok a) (.ok b)
  | error (f : ε) : Alike own own' related (.error f) (.error f)
  | left {f : ε} (h : own f) (y : Except ε β) : Alike own own' related (.error f) y
  | right (x : Except ε α) {f : ε} (h : own' f) : Alike own own' related x (.error f)

namespace Alike

section

variable {ε α β γ δ : Type} {own own' : ε → Prop} {related : α → β → Prop} {next : γ → δ → Prop}
  {x : Except ε α} {y : Except ε β}

theorem of_eq {x y : Except ε α} (h : x = y) : Alike own own' Eq x y := by
  rw [h]
  cases y with
  | ok a => exact .ok rfl
  | error f => exact .error f

theorem bind {g : α → Except ε γ} {g' : β → Except ε δ} (h : Alike own own' related x y)
    (hnext : ∀ a b, x = .ok a → y = .ok b → related a b → Alike own own' next (g a) (g' b)) :
    Alike own own' next (x >>= g) (y >>= g') := by
  cases h with
  | ok h => exact hnext _ _ rfl rfl h
  | error f => exact .error f
  | left h y => exact .left h _
  | right x h => exact .right _ h

/-- Computations with the same first step are alike if what follows it is. -/
theorem bind_same {x : Except ε α} {g : α → Except ε γ} {g' : α → Except ε δ}
    (hnext : ∀ a, x = .ok a → Alike own own' next (g a) (g' a)) :
    Alike own own' next (x >>= g) (x >>= g') := by
  cases x with
  | ok a => exact hnext a rfl
  | error f => exact .error f

theorem foldlM {σ : Type} {g : α → σ → Except ε α} {g' : β → σ → Except ε β} {items : List σ}
    (hstep : ∀ i ∈ items, ∀ a b, related a b → Alike own own' related (g a i) (g' b i)) {a : α}
    {b : β} (h : related a b) :
    Alike own own' related (items.foldlM g a) (items.foldlM g' b) := by
  induction items generalizing a b with
  | nil => exact .ok h
  | cons i rest ih =>
    rw [List.foldlM_cons, List.foldlM_cons]
    refine (hstep i List.mem_cons_self a b h).bind fun a b _ _ hab => ?_
    exact ih (fun i hi => hstep i (List.mem_cons_of_mem _ hi)) hab

theorem imp {own₂ own₂' : ε → Prop} (h : Alike own own' related x y) (hown : ∀ f, own f → own₂ f)
    (hown' : ∀ f, own' f → own₂' f) : Alike own₂ own₂' related x y := by
  cases h with
  | ok h => exact .ok h
  | error f => exact .error f
  | left h y => exact .left (hown _ h) y
  | right x h => exact .right x (hown' _ h)

theorem mono {related₂ : α → β → Prop} (h : Alike own own' related x y)
    (hrelated : ∀ a b, related a b → related₂ a b) : Alike own own' related₂ x y := by
  cases h with
  | ok h => exact .ok (hrelated _ _ h)
  | error f => exact .error f
  | left h y => exact .left h y
  | right x h => exact .right x h

/-- Faults that neither computation ends in need not be reckoned with. -/
theorem of_ne {spared : ε → Prop}
    (h : Alike (fun f => spared f ∨ own f) (fun f => spared f ∨ own' f) related x y)
    (hx : ∀ f, spared f → x ≠ .error f) (hy : ∀ f, spared f → y ≠ .error f) :
    Alike own own' related x y := by
  cases h with
  | ok h => exact .ok h
  | error f => exact .error f
  | @left f h y =>
    rcases h with h | h
    · exact absurd rfl (hx f h)
    · exact .left h y
  | @right x f h =>
    rcases h with h | h
    · exact absurd rfl (hy f h)
    · exact .right x h

/-- Of alike computations that both end well the results are related. -/
theorem exists_of_map {g : α → γ} {g' : β → δ} {c : γ} {d : δ} (h : Alike own own' related x y)
    (hx : x.map g = .ok c) (hy : y.map g' = .ok d) :
    ∃ a b, x = .ok a ∧ y = .ok b ∧ related a b ∧ g a = c ∧ g' b = d := by
  cases h with
  | @ok a b h => exact ⟨a, b, rfl, rfl, h, Except.ok.inj hx, Except.ok.inj hy⟩
  | error f => cases hx
  | left h y => cases hx
  | right x h => cases hy

/-- A computation that is alike without faults of its own ends well if the other one does. -/
theorem exists_eq_ok {b : β} (h : Alike (fun _ => False) (fun _ => False) related x (.ok b)) :
    ∃ a, x = .ok a ∧ related a b := by
  generalize hy : Except.ok (ε := ε) b = y at h
  cases h with
  | ok h =>
    cases hy
    exact ⟨_, rfl, h⟩
  | error f => cases hy
  | left h y => exact h.elim
  | right x h => exact h.elim

theorem exists_of_eq_ok {a : α} (h : Alike (fun _ => False) (fun _ => False) related (.ok a) y) :
    ∃ b, y = .ok b ∧ related a b := by
  generalize hx : Except.ok (ε := ε) a = x at h
  cases h with
  | ok h =>
    cases hx
    exact ⟨_, rfl, h⟩
  | error f => cases hx
  | left h y => exact h.elim
  | right x h => exact h.elim

/-- Alike computations with equal results have the same outcome if both end well. -/
theorem eq_of_map {x y : Except ε α} (h : Alike own own' Eq x y) {g g' : α → γ} {c c' : γ}
    (hx : x.map g = .ok c) (hy : y.map g' = .ok c') : x = y := by
  obtain ⟨a, b, rfl, rfl, rfl, _⟩ := h.exists_of_map hx hy
  rfl

end

variable {own own' : Fault → Prop} {reached : Nat → String → Prop}
  {list list' : HopDirection → String → Except Fault (List Neighbor)}
  {directions : List HopDirection} {allPaths : Bool} {goal : Option String} {maxDepth : Nat}

/-- The searches are in the same state, and all that is left for the next wave was reached at its
depth. -/
def SameState (reached : Nat → String → Prop) (depth : Nat) (s t : Search) : Prop :=
  s = t ∧ ∀ node ∈ s.next, reached depth node.1

theorem next_cross_subset {depth : Nat} {path : List Step} {s : Search} {n : Neighbor}
    {node : String × List Step} (h : node ∈ (s.cross allPaths goal depth path n).next) :
    node ∈ s.next ∨ node.1 = n.entity.id := by
  unfold Search.cross at h
  dsimp only at h
  split at h
  · exact .inl h
  · split at h
    · split at h <;> exact .inl h
    · rcases List.mem_append.1 h with h | h
      · exact .inl h
      · exact .inr (by rw [List.mem_singleton.1 h])

theorem next_foldl_cross_subset {depth : Nat} {path : List Step} {ns : List Neighbor} {s : Search}
    {node : String × List Step}
    (h : node ∈ (ns.foldl (Search.cross allPaths goal depth path) s).next) :
    node ∈ s.next ∨ ∃ n ∈ ns, node.1 = n.entity.id := by
  induction ns generalizing s with
  | nil => exact .inl h
  | cons n rest ih =>
    rcases ih h with h | ⟨m, hm, hid⟩
    · rcases next_cross_subset h with h | hid
      · exact .inl h
      · exact .inr ⟨n, List.mem_cons_self, hid⟩
    · exact .inr ⟨m, List.mem_cons_of_mem n hm, hid⟩

/-- Neighbors are listed alike for everything that can be reached before the last wave, and what is
listed is reached one hop later. -/
def Lists (own own' : Fault → Prop) (reached : Nat → String → Prop) (maxDepth : Nat)
    (directions : List HopDirection)
    (list list' : HopDirection → String → Except Fault (List Neighbor)) : Prop :=
  ∀ depth < maxDepth, ∀ d ∈ directions, ∀ id, reached depth id →
    Alike own own' (fun ns ms => ns = ms ∧ ∀ n ∈ ns, reached (depth + 1) n.entity.id) (list d id)
      (list' d id)

theorem expand (hlists : Lists own own' reached maxDepth directions list list') {depth : Nat}
    (hdepth : depth < maxDepth) {d : HopDirection} (hd : d ∈ directions)
    {node : String × List Step} (hnode : reached depth node.1) {s t : Search}
    (h : SameState reached (depth + 1) s t) :
    Alike own own' (SameState reached (depth + 1)) (s.expand list allPaths goal depth node d)
      (t.expand list' allPaths goal depth node d) := by
  obtain ⟨rfl, hnext⟩ := h
  unfold Search.expand
  split
  · exact .ok ⟨rfl, hnext⟩
  · refine (hlists depth hdepth d hd node.1 hnode).bind fun ns ms _ _ hns => ?_
    obtain ⟨rfl, hns⟩ := hns
    refine .ok ⟨rfl, fun later hlater => ?_⟩
    rcases next_foldl_cross_subset hlater with hlater | ⟨n, hn, hid⟩
    · exact hnext later hlater
    · rw [hid]
      exact hns n hn

theorem waves (hlists : Lists own own' reached maxDepth directions list list')
    {remaining depth : Nat} (hdepth : depth + remaining = maxDepth)
    {wave : List (String × List Step)} (hwave : ∀ node ∈ wave, reached depth node.1)
    (s : Search) :
    Alike own own' Eq (Search.waves list allPaths goal directions remaining depth wave s)
      (Search.waves list' allPaths goal directions remaining depth wave s) := by
  induction remaining generalizing depth wave s with
  | zero => exact .ok rfl
  | succ remaining ih =>
    have hlt : depth < maxDepth := by omega
    have hexpanded : Alike own own' (SameState reached (depth + 1))
        (wave.foldlM (Search.expandAll list allPaths goal directions depth) { s with next := [] })
        (wave.foldlM (Search.expandAll list' allPaths goal directions depth)
          { s with next := [] }) := by
      refine Alike.foldlM (fun node hnode t u htu => ?_) ⟨rfl, by simp⟩
      exact Alike.foldlM (fun d hd t u htu => expand hlists hlt hd (hwave node hnode) htu) htu
    refine hexpanded.bind fun t u _ _ htu => ?_
    obtain ⟨rfl, hnext⟩ := htu
    exact ih (by omega) hnext t

/-- Searches come out alike when neighbors are listed alike around what is reached. -/
theorem run (reached : Nat → String → Prop)
    (hlists : Lists own own' reached maxDepth directions list list') {start : Record .entity}
    (hstart : reached 0 start.id) :
    Alike own own' Eq (Search.run list allPaths goal directions maxDepth start)
      (Search.run list' allPaths goal directions maxDepth start) := by
  refine waves hlists (by omega) (fun node hnode => ?_) _
  rw [List.mem_singleton.1 hnode]
  exact hstart

end Alike

end VersionedGraph
