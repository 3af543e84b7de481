import Mathlib.Algebra.BigOperators.Group.Finset.Basic
import Mathlib.Algebra.BigOperators.Group.Finset.Piecewise
import Mathlib.Order.Bounds.Basic
import VersionedGraph.Proofs.Granting

/-!
# Searches with a worklist

What can be reached from some start can be found without regard to levels: the last item that is
pending is taken up, and unless it has been found before, it is found and what it leads to is
pending, too. Each round takes up one item, and what an item leads to becomes pending only once,
when the item is found. So what is pending together with what may still become pending
(`Worklist.ahead`) is one less after each round, whether or not items lead back to each other. The
search is over when nothing is ahead, and has then found the least set of items that holds the start
and is never left (`Worklist.after_ahead`).

The groups of a user can be found in this way, whatever the order in which the store hands out the
memberships, and they are the ones that the store finds level by level (`Store.groups_are_least`).
-/

namespace VersionedGraph

namespace Closure

/-- Items that hold a start and are never left. -/
structure Holds {α : Type} (next : α → List α) (start : List α) (items : Set α) : Prop where
  start {x : α} (h : x ∈ start) : x ∈ items
  next {x y : α} (h : x ∈ items) (hxy : LeadsTo next x y) : y ∈ items

end Closure

/-- A search that is going on: the items that are pending, the next one last, and those found. -/
structure Worklist (α : Type) where
  pending : List α
  found : Finset α

namespace Worklist

variable {α : Type}

/-- Takes up the next item, if any is pending. One that has been found before is passed over. -/
def round [DecidableEq α] (next : α → List α) (w : Worklist α) : Option (Worklist α) :=
  w.pending.getLast?.map fun x =>
    if x ∈ w.found then ⟨w.pending.dropLast, w.found⟩
    else ⟨w.pending.dropLast ++ next x, insert x w.found⟩

/-- A search after a number of rounds, unless it is over before. -/
def after [DecidableEq α] (next : α → List α) : Nat → Worklist α → Option (Worklist α)
  | 0, w => some w
  | rounds + 1, w => (w.round next).bind (after next rounds)

def Meets (w : Worklist α) (x : α) : Prop :=
  x ∈ w.found ∨ x ∈ w.pending

/-- A search from some start keeps to some items: it has met the start and all that the items found
lead to, and no other items than these. -/
structure KeepsTo (next : α → List α) (start : List α) (items : Finset α) (w : Worklist α) :
    Prop where
  mem {x : α} (h : w.Meets x) : x ∈ items
  start {x : α} (h : x ∈ start) : w.Meets x
  next {x y : α} (h : x ∈ w.found) (hxy : Closure.LeadsTo next x y) : w.Meets y

variable {next : α → List α} {start rest : List α} {items found : Finset α} {w : Worklist α} {x : α}

theorem keepsTo_start (h : Closure.Holds next start items) :
    KeepsTo next start items ⟨start, ∅⟩ where
  mem hmet := h.start (hmet.resolve_left (Finset.notMem_empty _))
  start hx := .inr hx
  next hx := absurd hx (Finset.notMem_empty _)

/-- A search with nothing pending has found all that it keeps to, if no smaller set holds the start
and is never left. -/
theorem KeepsTo.found_eq (h : KeepsTo next start items w)
    (hleast : IsLeast {held : Set α | Closure.Holds next start held} items)
    (hpending : w.pending = []) : w.found = items := by
  have hfound {y : α} (hy : w.Meets y) : y ∈ w.found := by
    rw [Meets, hpending] at hy
    exact hy.resolve_right List.not_mem_nil
  have hholds : Closure.Holds next start w.found :=
    ⟨fun hy => hfound (h.start hy), fun hy hyz => hfound (h.next hy hyz)⟩
  exact Finset.Subset.antisymm (fun y hy => h.mem (.inl hy)) (hleast.2 hholds)

/-- An item that was found stays met when it is passed over. -/
theorem meets_of_mem (hx : x ∈ found) {y : α} :
    (⟨rest, found⟩ : Worklist α).Meets y ↔ (⟨rest ++ [x], found⟩ : Worklist α).Meets y := by
  simp only [Meets, List.mem_append, List.mem_singleton]
  constructor
  · rintro (hy | hy)
    · exact .inl hy
    · exact .inr (.inl hy)
  · rintro (hy | hy | rfl)
    · exact .inl hy
    · exact .inr hy
    · exact .inl hx

variable [DecidableEq α]

/-- When an item is found, what it leads to is met besides. -/
theorem meets_insert {y : α} :
    (⟨rest ++ next x, insert x found⟩ : Worklist α).Meets y ↔
      (⟨rest ++ [x], found⟩ : Worklist α).Meets y ∨ Closure.LeadsTo next x y := by
  simp only [Meets, List.mem_append, List.mem_singleton, Finset.mem_insert, Closure.LeadsTo]
  tauto

theorem round_of_mem (h : x ∈ found) :
    (⟨rest ++ [x], found⟩ : Worklist α).round next = some ⟨rest, found⟩ := by
  simp [round, h]

theorem round_of_notMem (h : x ∉ found) :
    (⟨rest ++ [x], found⟩ : Worklist α).round next = some ⟨rest ++ next x, insert x found⟩ := by
  simp [round, h]

/-- What a search that is to find some items has still to take up: what is pending, and what becomes
pending when the rest of the items is found. -/
def ahead (next : α → List α) (items : Finset α) (w : Worklist α) : Nat :=
  w.pending.length + ∑ x ∈ items \ w.found, (next x).length

/-- As long as something is pending there is a next round. It keeps to the items, and one thing less
is ahead of it. -/
theorem KeepsTo.exists_round (h : KeepsTo next start items w)
    (hitems : Closure.Holds next start items) (hpending : w.pending ≠ []) :
    ∃ w', w.round next = some w' ∧ KeepsTo next start items w' ∧
      w.ahead next items = w'.ahead next items + 1 := by
  obtain ⟨pending, found⟩ := w
  obtain ⟨rest, x, rfl⟩ := (List.eq_nil_or_concat' pending).resolve_left hpending
  have hx : x ∈ items := h.mem (.inr (List.mem_append_right rest (List.mem_singleton_self x)))
  by_cases hfound : x ∈ found
  · refine ⟨⟨rest, found⟩, round_of_mem hfound, ⟨?_, ?_, ?_⟩, ?_⟩
    · exact fun hy => h.mem ((meets_of_mem hfound).1 hy)
    · exact fun hy => (meets_of_mem hfound).2 (h.start hy)
    · exact fun hy hyz => (meets_of_mem hfound).2 (h.next hy hyz)
    · simp only [ahead, List.length_append, List.length_singleton]
      omega
  · refine ⟨⟨rest ++ next x, insert x found⟩, round_of_notMem hfound, ⟨?_, ?_, ?_⟩, ?_⟩
    · intro y hy
      rcases meets_insert.1 hy with hy | hxy
      · exact h.mem hy
      · exact hitems.next hx hxy
    · exact fun hy => meets_insert.2 (.inl (h.start hy))
    · intro y z hy hyz
      rcases Finset.mem_insert.1 hy with rfl | hy
      · exact meets_insert.2 (.inr hyz)
      · exact meets_insert.2 (.inl (h.next hy hyz))
    · -- What the item leads to is no longer to become pending, because it is pending now.
      have hsum := Finset.add_sum_erase (items \ found) (fun y => (next y).length)
        (Finset.mem_sdiff.2 ⟨hx, hfound⟩)
      simp only [ahead, List.length_append, List.length_singleton, Finset.sdiff_insert]
      omega

theorem KeepsTo.after_eq (h : KeepsTo next start items w)
    (hleast : IsLeast {held : Set α | Closure.Holds next start held} items) :
    after next (w.ahead next items) w = some ⟨[], items⟩ := by
  induction hrounds : w.ahead next items generalizing w with
  | zero =>
    have hpending : w.pending = [] :=
      List.eq_nil_of_length_eq_zero (Nat.add_eq_zero_iff.1 hrounds).1
    rw [after, ← h.found_eq hleast hpending, ← hpending]
  | succ rounds ih =>
    have hpending : w.pending ≠ [] := by
      intro hpending
      rw [ahead, h.found_eq hleast hpending, hpending, sdiff_self] at hrounds
      exact absurd hrounds (Nat.succ_ne_zero rounds).symm
    obtain ⟨w', hround, hw', hahead⟩ := h.exists_round hleast.1 hpending
    rw [after, hround]
    exact ih hw' (by omega)

/-- A search is over after as many rounds as the start has items and the items found lead to, and
has found the least set that holds the start and is never left. -/
theorem after_ahead (hleast : IsLeast {held : Set α | Closure.Holds next start held} items) :
    after next (start.length + ∑ x ∈ items, (next x).length) ⟨start, ∅⟩ = some ⟨[], items⟩ := by
  have hover := (keepsTo_start hleast.1).after_eq hleast
  rwa [ahead, Finset.sdiff_empty] at hover

end Worklist

namespace Store

/-- Groups enclose a user when they hold every group that has the user as a member and, with each
group, every group that has this one as a member. -/
structure Encloses (s : Store) (user : String) (groups : Set String) : Prop where
  direct {group : String} (member : ⟨group, .user, user⟩ ∈ s.memberships) : group ∈ groups
  nested {inner group : String} (within : inner ∈ groups)
    (member : ⟨group, .group, inner⟩ ∈ s.memberships) : group ∈ groups

/-- How the groups that have a principal as a member are ordered when they are handed out. One search
asks for those of each principal once at most. -/
structure RowOrder (s : Store) where
  groupsWith : Principal → List String
  perm (p : Principal) : (groupsWith p).Perm (s.groupsWith p)

namespace RowOrder

variable {s : Store}

/-- The order in which the memberships are stored. -/
def stored (s : Store) : s.RowOrder :=
  ⟨s.groupsWith, fun p => .refl (s.groupsWith p)⟩

def next (order : s.RowOrder) (group : String) : List String :=
  order.groupsWith ⟨.group, group⟩

/-- The search for the groups of a user with a worklist, after a number of rounds. -/
def search (order : s.RowOrder) (user : String) (rounds : Nat) : Option (Worklist String) :=
  Worklist.after order.next rounds ⟨order.groupsWith ⟨.user, user⟩, ∅⟩

theorem mem_groupsWith_iff (order : s.RowOrder) {p : Principal} {group : String} :
    group ∈ order.groupsWith p ↔ ⟨group, p⟩ ∈ s.memberships := by
  rw [(order.perm p).mem_iff, mem_groupsWith]

theorem holds_iff_encloses (order : s.RowOrder) {user : String} {groups : Set String} :
    Closure.Holds order.next (order.groupsWith ⟨.user, user⟩) groups ↔ s.Encloses user groups := by
  constructor
  · intro h
    exact ⟨fun member => h.start (order.mem_groupsWith_iff.2 member),
      fun within member => h.next within (order.mem_groupsWith_iff.2 member)⟩
  · intro h
    exact ⟨fun hgroup => h.direct (order.mem_groupsWith_iff.1 hgroup),
      fun within hgroup => h.nested within (order.mem_groupsWith_iff.1 hgroup)⟩

end RowOrder

variable {s t : Store} {user : String}

theorem isLeast_belongsTo (s : Store) (user : String) :
    IsLeast {groups | s.Encloses user groups} {group | s.BelongsTo user group} := by
  refine ⟨⟨.direct, .nested⟩, fun groups hgroups group hgroup => ?_⟩
  induction hgroup with
  | direct member => exact hgroups.direct member
  | nested _ member ih => exact hgroups.nested ih member

theorem isLeast_effectiveGroups (s : Store) (user : String) :
    IsLeast {groups | s.Encloses user groups} ↑(s.effectiveGroups user).toFinset := by
  rw [coe_toFinset_effectiveGroups]
  exact s.isLeast_belongsTo user

/-- Groups that enclose a user still do so with fewer memberships. -/
theorem Encloses.of_subset {groups : Set String} (h : s.Encloses user groups)
    (hsub : t.memberships ⊆ s.memberships) : t.Encloses user groups :=
  ⟨fun member => h.direct (hsub member), fun within member => h.nested within (hsub member)⟩

/-- What is found does not depend on the order of the memberships. -/
theorem toFinset_effectiveGroups_of_perm (h : t.memberships.Perm s.memberships) (user : String) :
    (t.effectiveGroups user).toFinset = (s.effectiveGroups user).toFinset := by
  have hsame (groups : Set String) : t.Encloses user groups ↔ s.Encloses user groups :=
    ⟨fun ht => ht.of_subset h.symm.subset, fun hs => hs.of_subset h.subset⟩
  have hleast := t.isLeast_effectiveGroups user
  simp only [hsame] at hleast
  exact Finset.coe_injective (hleast.unique (s.isLeast_effectiveGroups user))

theorem groupsOf_str (s : Store) (user : String) :
    s.groupsOf (.str user) = .ok (s.effectiveGroups user) := by
  simp [groupsOf, bind, Except.bind, pure, Except.pure]

theorem sum_length_groupsWith (s : Store) (principals : Finset Principal) :
    ∑ p ∈ principals, (s.groupsWith p).length =
      (s.memberships.filter fun m => m.member ∈ principals).length := by
  simp only [groupsWith, List.length_map, ← List.countP_eq_length_filter]
  induction s.memberships with
  | nil => simp
  | cons m rest ih =>
    simp only [List.countP_cons, decide_eq_true_eq, Finset.sum_add_distrib, Finset.sum_ite_eq, ih]

/-- The principals that a user acts as are the user and the groups that are found. -/
theorem length_memberships_of_principals (s : Store) (user : String) :
    (s.memberships.filter fun m => m.member ∈ s.principalsOf user).length =
      (s.groupsWith ⟨.user, user⟩).length +
        ∑ g ∈ (s.effectiveGroups user).toFinset, (s.groupsWith ⟨.group, g⟩).length := by
  have hprincipals : (s.principalsOf user).toFinset =
      insert ⟨.user, user⟩ ((s.effectiveGroups user).toFinset.image fun g => ⟨.group, g⟩) := by
    ext p
    simp [principalsOf]
  have huser : (⟨.user, user⟩ : Principal) ∉
      (s.effectiveGroups user).toFinset.image fun g => ⟨.group, g⟩ := by
    simp
  have hinj : Set.InjOn (fun g => (⟨.group, g⟩ : Principal)) (s.effectiveGroups user).toFinset :=
    fun _ _ _ _ heq => congrArg Principal.id heq
  have hsum := s.sum_length_groupsWith (s.principalsOf user).toFinset
  rw [hprincipals, Finset.sum_insert huser, Finset.sum_image hinj, ← hprincipals] at hsum
  simpa only [List.mem_toFinset] using hsum.symm

/-- The groups of a user are the least set that holds every group with the user as a member and,
with each group, every group with this one as a member. The store hands them out, each once,
whatever the order of the memberships. Also a search with a worklist ends with them, whatever the
order in which the groups around each principal come: it takes up each membership of the user and of
the groups once, and then nothing is pending. -/
theorem groups_are_least (s : Store) (user : String) :
    ∃ groups : Finset String,
      IsLeast {held : Set String | s.Encloses user held} groups ∧
      (∀ t : Store, t.memberships.Perm s.memberships →
        ∃ names, t.groupsOf (.str user) = .ok names ∧ names.Nodup ∧ names.toFinset = groups) ∧
      ∀ order : s.RowOrder,
        order.search user (s.memberships.filter fun m => m.member ∈ s.principalsOf user).length =
          some ⟨[], groups⟩ := by
  have hleast := s.isLeast_effectiveGroups user
  refine ⟨(s.effectiveGroups user).toFinset, hleast, fun t ht => ?_, fun order => ?_⟩
  · exact ⟨_, t.groupsOf_str user, nodup_closure, toFinset_effectiveGroups_of_perm ht user⟩
  · simp only [← order.holds_iff_encloses] at hleast
    have hover := Worklist.after_ahead hleast
    simp only [RowOrder.next, (order.perm _).length_eq] at hover
    rw [length_memberships_of_principals]
    exact hover

/-- Two groups that contain each other are found from either end of the memberships, and a search
with a worklist takes up the inner one twice. -/
theorem groups_in_circle :
    let t : Store := { circle with memberships := circle.memberships.reverse }
    circle.Reachable ∧ t.memberships.Perm circle.memberships ∧
      t.groupsOf (.str "u") = .ok ["g", "h"] ∧
      IsLeast {held : Set String | circle.Encloses "u" held} ↑({"g", "h"} : Finset String) ∧
      (RowOrder.stored circle).search "u" 3 = some ⟨[], {"g", "h"}⟩ := by
  intro t
  have hperm : t.memberships.Perm circle.memberships := List.reverse_perm _
  have hfound : t.effectiveGroups "u" = ["g", "h"] := by decide +kernel
  obtain ⟨groups, hleast, hgroups, hover⟩ := groups_are_least circle "u"
  obtain ⟨names, hnames, _, rfl⟩ := hgroups t hperm
  rw [groupsOf_str, hfound] at hnames
  cases hnames
  have hrounds : (circle.memberships.filter fun m => m.member ∈ circle.principalsOf "u").length =
      3 := by decide +kernel
  have hsearch := hover (.stored circle)
  rw [hrounds] at hsearch
  exact ⟨reachable_circle, hperm, (t.groupsOf_str "u").trans (congrArg _ hfound), hleast, hsearch⟩

end Store

end VersionedGraph
