import Mathlib.Data.List.Induction
import Mathlib.Data.List.Nodup
import Mathlib.Order.WellFounded

/-!
# Walks

A walk crosses labelled hops one after the other, each from where the one before it led. A walk is
shortest when no other walk between its ends has fewer hops; then so is what is left of it without
its last hop, and nothing is passed twice.
-/

namespace VersionedGraph

variable {α β σ τ : Type}

/-- A list of labels leads from one node to another along hops. -/
inductive Walk (hop : α → σ → α → Prop) : α → List σ → α → Prop where
  | here (a : α) : Walk hop a [] a
  | onward {a b c : α} {path : List σ} {label : σ} (walk : Walk hop a path b)
    (last : hop b label c) : Walk hop a (path ++ [label]) c

/-- A walk of which there is none with fewer hops between its ends. -/
structure Walk.IsShortest (hop : α → σ → α → Prop) (a : α) (path : List σ) (b : α) : Prop where
  walk : Walk hop a path b
  least : ∀ other, Walk hop a other b → path.length ≤ other.length

namespace Walk

variable {hop : α → σ → α → Prop} {hop' : β → τ → β → Prop} {a b c : α} {path : List σ} {label : σ}

theorem exists_of_concat (h : Walk hop a (path ++ [label]) c) :
    ∃ b, Walk hop a path b ∧ hop b label c := by
  generalize hlonger : path ++ [label] = longer at h
  cases h with
  | here => simp at hlonger
  | @onward b _ path' label' walk last =>
    obtain ⟨rfl, hlabel⟩ := List.append_inj' hlonger rfl
    cases hlabel
    exact ⟨b, walk, last⟩

theorem map (f : α → β) (g : σ → τ) (hhop : ∀ a s b, hop a s b → hop' (f a) (g s) (f b))
    (h : Walk hop a path b) : Walk hop' (f a) (path.map g) (f b) := by
  induction h with
  | here => exact .here _
  | onward _ last ih =>
    rw [List.map_append]
    exact .onward ih (hhop _ _ _ last)

theorem mono {more : α → σ → α → Prop} (hhop : ∀ a s b, hop a s b → more a s b)
    (h : Walk hop a path b) : Walk more a path b := by
  induction h with
  | here => exact .here _
  | onward _ last ih => exact .onward ih (hhop _ _ _ last)

/-- A hop comes before a walk from where it leads. -/
theorem prepend (hfirst : hop a label b) (h : Walk hop b path c) :
    Walk hop a (label :: path) c := by
  induction h with
  | here =>
    have hwalk : Walk hop a ([] ++ [label]) _ := .onward (.here a) hfirst
    exact hwalk
  | onward _ last ih => exact .onward ih last

/-- A walk leads back if each of its hops does, where what is known of its start is known of all
that it passes. -/
theorem exists_reverse (known : α → Prop) {back : α → σ → α → Prop}
    (hback : ∀ a s b, known a → hop a s b → known b ∧ ∃ s', back b s' a) (ha : known a)
    (h : Walk hop a path b) :
    known b ∧ ∃ path', Walk back b path' a ∧ path'.length = path.length := by
  induction h with
  | here => exact ⟨ha, [], .here _, rfl⟩
  | onward _ last ih =>
    obtain ⟨hknown, path', hwalk, hlength⟩ := ih
    obtain ⟨hnext, label', hlabel'⟩ := hback _ _ _ hknown last
    exact ⟨hnext, label' :: path', prepend hlabel' hwalk, by simp [hlength]⟩

/-- What a walk crosses it crosses from where a walk with fewer hops leads. -/
theorem exists_hop_of_mem (h : Walk hop a path b) (hlabel : label ∈ path) :
    ∃ before c d, Walk hop a before c ∧ before.length < path.length ∧ hop c label d := by
  induction h with
  | here => cases hlabel
  | @onward b c path last walk hlast ih =>
    rw [List.length_append, List.length_singleton]
    rcases List.mem_append.1 hlabel with hlabel | hlabel
    · obtain ⟨before, c, d, hbefore, hlt, hhop⟩ := ih hlabel
      exact ⟨before, c, d, hbefore, Nat.lt_succ_of_lt hlt, hhop⟩
    · rw [List.mem_singleton.1 hlabel]
      exact ⟨path, b, c, walk, Nat.lt_succ_self _, hlast⟩

/-- Where a walk leads is told by its labels if each of them tells where it leads. -/
theorem getLastD_eq {target : σ → α} (htarget : ∀ a s b, hop a s b → target s = b)
    (h : Walk hop a path b) : (path.map target).getLastD a = b := by
  induction h with
  | here => rfl
  | onward _ last =>
    rw [List.map_append, List.map_singleton, List.getLastD_concat]
    exact htarget _ _ _ last

theorem exists_walk_of_mem {target : σ → α} (htarget : ∀ a s b, hop a s b → target s = b)
    (h : Walk hop a path b) (hc : c ∈ a :: path.map target) :
    ∃ other, Walk hop a other c ∧ other.length ≤ path.length := by
  induction h with
  | here =>
    rw [List.mem_singleton.1 hc]
    exact ⟨[], .here _, Nat.le_refl 0⟩
  | @onward b d path label walk last ih =>
    rw [List.map_append, ← List.cons_append, List.mem_append] at hc
    rcases hc with hc | hc
    · obtain ⟨other, hother, hle⟩ := ih hc
      refine ⟨other, hother, Nat.le_trans hle ?_⟩
      simp
    · have hcd : c = d := (List.mem_singleton.1 hc).trans (htarget _ _ _ last)
      rw [hcd]
      exact ⟨path ++ [label], .onward walk last, Nat.le_refl _⟩

/-- Where there is a walk there is a shortest one. -/
theorem exists_isShortest (h : Walk hop a path b) :
    ∃ path', IsShortest hop a path' b ∧ path'.length ≤ path.length := by
  obtain ⟨path', hwalk, hleast⟩ :=
    (measure List.length).wf.has_min {path' | Walk hop a path' b} ⟨path, h⟩
  have hle (other : List σ) (hother : Walk hop a other b) : path'.length ≤ other.length :=
    Nat.le_of_not_lt (hleast other hother)
  exact ⟨path', ⟨hwalk, hle⟩, hle path h⟩

namespace IsShortest

theorem of_concat (h : IsShortest hop a (path ++ [label]) c) :
    ∃ b, IsShortest hop a path b ∧ hop b label c := by
  obtain ⟨b, hwalk, hlast⟩ := h.walk.exists_of_concat
  refine ⟨b, ⟨hwalk, fun other hother => ?_⟩, hlast⟩
  have hle := h.least _ (.onward hother hlast)
  simpa using hle

/-- A shortest walk passes nothing twice. -/
theorem nodup {target : σ → α} (htarget : ∀ a s b, hop a s b → target s = b)
    (h : IsShortest hop a path b) : (a :: path.map target).Nodup := by
  induction path using List.reverseRecOn generalizing b with
  | nil => exact List.nodup_singleton a
  | append_singleton path label ih =>
    obtain ⟨c, hc, hlast⟩ := h.of_concat
    have hnodup := ih hc
    rw [List.map_append, ← List.cons_append, List.nodup_append]
    refine ⟨hnodup, List.nodup_singleton _, ?_⟩
    intro x hx y hy hxy
    have hyb : y = b := (List.mem_singleton.1 hy).trans (htarget _ _ _ hlast)
    rw [hxy, hyb] at hx
    -- The node would be reached before the end by a walk with fewer hops.
    obtain ⟨other, hother, hle⟩ := hc.walk.exists_walk_of_mem htarget hx
    have hleast := h.least other hother
    rw [List.length_append, List.length_singleton] at hleast
    omega

end IsShortest

end Walk

end VersionedGraph
