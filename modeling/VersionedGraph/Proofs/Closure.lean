import Mathlib.Data.List.Perm.Subperm
import Mathlib.Logic.Relation
import VersionedGraph.Store.Closure

/-!
# What a closure lists

`closure next bound start` lists, each once, exactly the items that can be reached from `start` by
`next`, whether or not items lead back to each other. The bound only has to be the length of some
list that holds the start and is never left: every level but the last has an item that was not seen
before, so the levels run out first.
-/

namespace VersionedGraph

theorem nodup_eraseDups {α : Type} [DecidableEq α] (items : List α) : items.eraseDups.Nodup := by
  match items with
  | [] => simp
  | x :: rest =>
    have shorter : (rest.filter fun y => !y == x).length ≤ rest.length := List.length_filter_le _ _
    have ih := nodup_eraseDups (rest.filter fun y => !y == x)
    rw [List.eraseDups_cons, List.nodup_cons]
    refine ⟨?_, ih⟩
    intro hx
    have hmem := List.mem_eraseDups.1 hx
    simp at hmem
termination_by items.length
decreasing_by
  simp only [List.length_cons]
  omega

namespace Closure

variable {α : Type}

def LeadsTo (next : α → List α) (x y : α) : Prop :=
  y ∈ next x

variable [DecidableEq α] {next : α → List α} {level seen world : List α} {bound : Nat}

theorem nodup_newcomers (seen items : List α) : (newcomers seen items).Nodup :=
  nodup_eraseDups _

/-- What has been seen and the newcomers to it are different items. -/
theorem nodup_append_newcomers (h : seen.Nodup) (items : List α) :
    (seen ++ newcomers seen items).Nodup := by
  rw [List.nodup_append]
  refine ⟨h, nodup_newcomers seen items, ?_⟩
  intro x hx y hy heq
  rw [heq] at hx
  exact (mem_newcomers.1 hy).2 hx

theorem nodup_extend (h : seen.Nodup) : (extend next bound level seen).Nodup := by
  induction bound generalizing level seen with
  | zero => exact h
  | succ bound ih =>
    simp only [extend]
    split
    · exact h
    · exact ih (nodup_append_newcomers h _)

/-- Nothing is listed but what can be reached from what had been seen. -/
theorem exists_reaches_of_mem_extend (hlevel : ∀ x ∈ level, x ∈ seen) {y : α}
    (hy : y ∈ extend next bound level seen) :
    ∃ x ∈ seen, Relation.ReflTransGen (LeadsTo next) x y := by
  induction bound generalizing level seen with
  | zero => exact ⟨y, hy, .refl⟩
  | succ bound ih =>
    simp only [extend] at hy
    split at hy
    · exact ⟨y, hy, .refl⟩
    · have hfresh : ∀ x ∈ newcomers seen (level.flatMap next),
          x ∈ seen ++ newcomers seen (level.flatMap next) :=
        fun x hx => List.mem_append_right seen hx
      obtain ⟨x, hx, hxy⟩ := ih hfresh hy
      rcases List.mem_append.1 hx with hseen | hnew
      · exact ⟨x, hseen, hxy⟩
      · obtain ⟨z, hz, hzx⟩ := List.mem_flatMap.1 (mem_newcomers.1 hnew).1
        exact ⟨z, hlevel z hz, .head hzx hxy⟩

/-- What is listed is never left, provided that only the last level could lead out of what has been
seen, and that the bound makes up for what has not been seen of a list that is never left. -/
theorem mem_extend_of_leadsTo (hnodup : seen.Nodup) (hseen : seen ⊆ world)
    (hworld : ∀ x ∈ world, ∀ y, LeadsTo next x y → y ∈ world)
    (hbound : world.length ≤ bound + seen.length) (hlevel : level ⊆ seen)
    (hinner : ∀ x ∈ seen, x ∉ level → ∀ y, LeadsTo next x y → y ∈ seen) {x y : α}
    (hx : x ∈ extend next bound level seen) (hxy : LeadsTo next x y) :
    y ∈ extend next bound level seen := by
  induction bound generalizing level seen with
  | zero =>
    have hperm := (hnodup.subperm hseen).perm_of_length_le (by omega)
    exact hperm.mem_iff.2 (hworld x (hseen hx) y hxy)
  | succ bound ih =>
    simp only [extend] at hx ⊢
    set fresh := newcomers seen (level.flatMap next) with hfresh
    have hmem (z : α) : z ∈ fresh ↔ z ∈ level.flatMap next ∧ z ∉ seen := mem_newcomers
    split
    · next hempty =>
      rw [if_pos hempty] at hx
      by_cases hxl : x ∈ level
      · by_contra hy
        have hyfresh : y ∈ fresh := (hmem y).2 ⟨List.mem_flatMap.2 ⟨x, hxl, hxy⟩, hy⟩
        rw [List.isEmpty_iff.1 hempty] at hyfresh
        exact List.not_mem_nil hyfresh
      · exact hinner x hx hxl y hxy
    · next hempty =>
      rw [if_neg hempty] at hx
      have hpos : 0 < fresh.length := List.length_pos_iff.2 fun h => hempty (by rw [h]; rfl)
      refine ih (nodup_append_newcomers hnodup _) ?_ ?_ ?_ ?_ hx
      · intro z hz
        rcases List.mem_append.1 hz with hz | hz
        · exact hseen hz
        · obtain ⟨w, hw, hwz⟩ := List.mem_flatMap.1 ((hmem z).1 hz).1
          exact hworld w (hseen (hlevel hw)) z hwz
      · rw [List.length_append]
        omega
      · exact List.subset_append_right seen fresh
      · intro z hz hzfresh w hzw
        have hzseen : z ∈ seen := (List.mem_append.1 hz).resolve_right hzfresh
        by_cases hzl : z ∈ level
        · by_cases hw : w ∈ seen
          · exact List.mem_append_left fresh hw
          · exact List.mem_append_right seen
              ((hmem w).2 ⟨List.mem_flatMap.2 ⟨z, hzl, hzw⟩, hw⟩)
        · exact List.mem_append_left fresh (hinner z hzseen hzl w hzw)

/-- A walk that has seen all of a list which is never left has nothing new to see. -/
theorem extend_eq_self (hworld : ∀ x ∈ world, ∀ y, LeadsTo next x y → y ∈ world)
    (hperm : seen.Perm world) (hlevel : level ⊆ seen) : extend next bound level seen = seen := by
  have hnone : newcomers seen (level.flatMap next) = [] := by
    rw [List.eq_nil_iff_forall_not_mem]
    intro y hy
    obtain ⟨hnext, hnew⟩ := mem_newcomers.1 hy
    obtain ⟨x, hx, hxy⟩ := List.mem_flatMap.1 hnext
    exact hnew (hperm.mem_iff.2 (hworld x (hperm.mem_iff.1 (hlevel hx)) y hxy))
  cases bound with
  | zero => rfl
  | succ bound =>
    simp only [extend]
    rw [hnone]
    rfl

/-- A walk that has a bound which is enough is not cut off by it: any other such bound leads to the
same list. -/
theorem extend_add (hnodup : seen.Nodup) (hseen : seen ⊆ world)
    (hworld : ∀ x ∈ world, ∀ y, LeadsTo next x y → y ∈ world)
    (hbound : world.length ≤ bound + seen.length) (hlevel : level ⊆ seen) (more : Nat) :
    extend next (bound + more) level seen = extend next bound level seen := by
  induction bound generalizing level seen with
  | zero =>
    have hperm := (hnodup.subperm hseen).perm_of_length_le (by omega)
    rw [extend_eq_self hworld hperm hlevel, extend_eq_self hworld hperm hlevel]
  | succ bound ih =>
    rw [Nat.succ_add_eq_add_succ, Nat.add_succ]
    simp only [extend]
    split
    · rfl
    · next hempty =>
      have hpos : 0 < (newcomers seen (level.flatMap next)).length :=
        List.length_pos_iff.2 fun h => hempty (by rw [h]; rfl)
      refine ih (nodup_append_newcomers hnodup _) ?_ ?_ (List.subset_append_right seen _)
      · intro z hz
        rcases List.mem_append.1 hz with hz | hz
        · exact hseen hz
        · obtain ⟨w, hw, hwz⟩ := List.mem_flatMap.1 (mem_newcomers.1 hz).1
          exact hworld w (hseen (hlevel hw)) z hwz
      · rw [List.length_append]
        omega

end Closure

section

variable {α : Type} [DecidableEq α] {next : α → List α} {bound : Nat} {start : List α}

theorem nodup_closure : (closure next bound start).Nodup :=
  Closure.nodup_extend (nodup_eraseDups start)

/-- A closure lists exactly what can be reached from its start, given a bound that is the length of
a list which holds the start and is never left. -/
theorem mem_closure_iff (world : List α) (hstart : start ⊆ world)
    (hworld : ∀ x ∈ world, ∀ y, Closure.LeadsTo next x y → y ∈ world)
    (hbound : world.length ≤ bound) {y : α} :
    y ∈ closure next bound start ↔
      ∃ x ∈ start, Relation.ReflTransGen (Closure.LeadsTo next) x y := by
  have hmem (x : α) : x ∈ start.eraseDups ↔ x ∈ start := List.mem_eraseDups
  constructor
  · intro hy
    obtain ⟨x, hx, hxy⟩ := Closure.exists_reaches_of_mem_extend (fun x hx => hx) hy
    exact ⟨x, (hmem x).1 hx, hxy⟩
  · rintro ⟨x, hx, hxy⟩
    induction hxy with
    | refl =>
      exact (Closure.seen_prefix_extend next bound _ _).subset ((hmem x).2 hx)
    | tail _ hzw ih =>
      refine Closure.mem_extend_of_leadsTo (nodup_eraseDups start) ?_ hworld ?_
        (List.Subset.refl _) (fun z hz hz' => absurd hz hz') ih hzw
      · exact fun z hz => hstart ((hmem z).1 hz)
      · omega

/-- A closure comes to its end by itself: no bound from the length of such a list on cuts it off. -/
theorem closure_eq_of_le (world : List α) (hstart : start ⊆ world)
    (hworld : ∀ x ∈ world, ∀ y, Closure.LeadsTo next x y → y ∈ world)
    (hbound : world.length ≤ bound) : closure next bound start = closure next world.length start := by
  obtain ⟨more, rfl⟩ := Nat.exists_eq_add_of_le hbound
  refine Closure.extend_add (nodup_eraseDups start) ?_ hworld (by omega) (List.Subset.refl _) more
  exact fun x hx => hstart (List.mem_eraseDups.1 hx)

end

end VersionedGraph
