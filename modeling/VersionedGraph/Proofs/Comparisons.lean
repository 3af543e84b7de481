import VersionedGraph.Sorting.Runs

/-!
# What a sort compares

Whatever its comparisons answer, a sort compares no items but those that it was given
(`Sorting.asks_sort`). So it fails only if a comparison of two of them does, and items any two of
which can be compared are sorted (`Sorting.fault?_eq_none`), also where other items could not be.
-/

namespace VersionedGraph

namespace Comparing

variable {α β γ ε : Type} {P : α → Prop} {Q : β → Prop} {R : γ → Prop}

/-- With any answers, all that is compared has one property, and the result has another. -/
inductive Asks (P : α → Prop) (Q : β → Prop) : Comparing α β → Prop
  | done {result : β} (h : Q result) : Asks P Q (.done result)
  | ask {x y : α} {next : Bool → Comparing α β} (hx : P x) (hy : P y)
    (hnext : ∀ b, Asks P Q (next b)) : Asks P Q (.ask x y next)

namespace Asks

theorem pure {result : β} (h : Q result) : Asks P Q (Pure.pure result) := .done h

theorem bind {c : Comparing α β} {f : β → Comparing α γ} (h : Asks P Q c)
    (hf : ∀ result, Q result → Asks P R (f result)) : Asks P R (c >>= f) := by
  induction h with
  | done h => exact hf _ h
  | ask hx hy _ ih => exact .ask hx hy ih

theorem isBelow {x y : α} (hx : P x) (hy : P y) : Asks P (fun _ => True) (isBelow x y) :=
  .ask hx hy fun _ => .done trivial

theorem foldlM {f : β → γ → Comparing α β} {items : List γ} {start : β} (hstart : Q start)
    (hf : ∀ result item, Q result → item ∈ items → Asks P Q (f result item)) :
    Asks P Q (items.foldlM f start) := by
  induction items generalizing start with
  | nil => exact .pure hstart
  | cons item items ih =>
    rw [List.foldlM_cons]
    refine (hf _ _ hstart List.mem_cons_self).bind fun next hnext => ih hnext ?_
    exact fun result other hresult hother => hf _ _ hresult (List.mem_cons_of_mem _ hother)

/-- Comparisons that are asked and answered lead to a result. -/
theorem exists_run_eq_ok {c : Comparing α β} {answer : α → α → Except ε Bool} (h : Asks P Q c)
    (hanswer : ∀ x y, P x → P y → ∃ b, answer x y = .ok b) :
    ∃ result, c.run answer = .ok result := by
  induction h with
  | done _ => exact ⟨_, rfl⟩
  | ask hx hy _ ih =>
    obtain ⟨b, hb⟩ := hanswer _ _ hx hy
    obtain ⟨result, hresult⟩ := ih b
    refine ⟨result, ?_⟩
    rw [run, hb]
    exact hresult

end Asks

end Comparing

namespace Sorting

open Comparing

variable {α ε : Type} {P : α → Prop} {key : α} {items left right sorted : List α}

theorem asks_isBehindEquals (hkey : P key) (hitems : ∀ x ∈ items, P x) (index : Nat) :
    Asks P (fun _ => True) (isBehindEquals key items index) := by
  unfold isBehindEquals
  split
  · next x hx =>
    exact (Asks.isBelow hkey (hitems x (List.mem_of_getElem? hx))).bind fun _ _ => .pure trivial
  · exact .pure trivial

theorem asks_isBehindLesser (hkey : P key) (hitems : ∀ x ∈ items, P x) (index : Nat) :
    Asks P (fun _ => True) (isBehindLesser key items index) := by
  unfold isBehindLesser
  split
  · next x hx => exact .isBelow (hitems x (List.mem_of_getElem? hx)) hkey
  · exact .pure trivial

section

variable {behind : Nat → Comparing α Bool} (h : ∀ index, Asks P (fun _ => True) (behind index))

include h

theorem asks_stride (answer : Bool) (index : Nat → Nat) (limit bound last distance : Nat) :
    Asks P (fun _ => True) (stride behind answer index limit bound last distance) := by
  induction bound generalizing last distance with
  | zero => exact .pure trivial
  | succ bound ih =>
    unfold stride
    split
    · exact .pure trivial
    · refine (h _).bind fun b _ => ?_
      split
      · exact ih _ _
      · exact .pure trivial

theorem asks_halve (bound low high : Nat) :
    Asks P (fun _ => True) (halve behind bound low high) := by
  induction bound generalizing low high with
  | zero => exact .pure trivial
  | succ bound ih =>
    unfold halve
    split
    · exact .pure trivial
    · refine (h _).bind fun b _ => ?_
      split
      · exact ih _ _
      · exact ih _ _

theorem asks_place (count hint : Nat) : Asks P (fun _ => True) (place behind count hint) := by
  unfold place
  refine (h _).bind fun b _ => ?_
  split
  · exact (asks_stride h _ _ _ _ _ _).bind fun ⟨_, _⟩ _ => asks_halve h _ _ _
  · exact (asks_stride h _ _ _ _ _ _).bind fun ⟨_, _⟩ _ => asks_halve h _ _ _

end

namespace Merging

variable {m : Merging α}

/-- Everything in a merge has a property. -/
structure All (P : α → Prop) (m : Merging α) : Prop where
  left : ∀ x ∈ m.left, P x
  right : ∀ x ∈ m.right, P x
  merged : ∀ x ∈ m.merged, P x

theorem mem_left_of_leftNext? {x : α} (h : m.leftNext? = some x) : x ∈ m.left := by
  unfold leftNext? at h
  split at h
  · exact List.mem_of_getLast? h
  · exact List.mem_of_head? h

theorem mem_right_of_rightNext? {x : α} (h : m.rightNext? = some x) : x ∈ m.right := by
  unfold rightNext? at h
  split at h
  · exact List.mem_of_getLast? h
  · exact List.mem_of_head? h

namespace All

theorem takeLeft (h : m.All P) (count : Nat) : (m.takeLeft count).All P := by
  unfold Merging.takeLeft
  split
  · refine ⟨fun x hx => h.left x (List.mem_of_mem_take hx), h.right, fun x hx => ?_⟩
    exact (List.mem_append.1 hx).elim (fun hx => h.left x (List.mem_of_mem_drop hx)) (h.merged x)
  · refine ⟨fun x hx => h.left x (List.mem_of_mem_drop hx), h.right, fun x hx => ?_⟩
    exact (List.mem_append.1 hx).elim (h.merged x) fun hx => h.left x (List.mem_of_mem_take hx)

theorem takeRight (h : m.All P) (count : Nat) : (m.takeRight count).All P := by
  unfold Merging.takeRight
  split
  · refine ⟨h.left, fun x hx => h.right x (List.mem_of_mem_take hx), fun x hx => ?_⟩
    exact (List.mem_append.1 hx).elim (fun hx => h.right x (List.mem_of_mem_drop hx)) (h.merged x)
  · refine ⟨h.left, fun x hx => h.right x (List.mem_of_mem_drop hx), fun x hx => ?_⟩
    exact (List.mem_append.1 hx).elim (h.merged x) fun hx => h.right x (List.mem_of_mem_take hx)

theorem finish (h : m.All P) : ∀ x ∈ m.finish, P x := by
  intro x hx
  unfold Merging.finish at hx
  split at hx <;> simp only [List.mem_append] at hx
  · rcases hx with (hx | hx) | hx
    · exact h.right x hx
    · exact h.left x hx
    · exact h.merged x hx
  · rcases hx with (hx | hx) | hx
    · exact h.merged x hx
    · exact h.right x hx
    · exact h.left x hx

end All

theorem asks_countTo {behind : Nat → Comparing α Bool}
    (h : ∀ index, Asks P (fun _ => True) (behind index)) (count : Nat) :
    Asks P (fun _ => True) (m.countTo behind count) := by
  unfold countTo
  split
  · exact (asks_place h _ _).bind fun _ _ => .pure trivial
  · exact asks_place h _ _

theorem asks_alternate (h : m.All P) (bound lefts rights : Nat) :
    Asks P (All P) (alternate bound lefts rights m) := by
  induction bound generalizing lefts rights m with
  | zero => exact .pure h
  | succ bound ih =>
    unfold alternate
    split
    · next x y hx hy =>
      refine (Asks.isBelow (h.right y (mem_right_of_rightNext? hy))
        (h.left x (mem_left_of_leftNext? hx))).bind fun b _ => ?_
      split
      · dsimp only
        split
        · exact .pure (h.takeRight 1)
        · exact ih (h.takeRight 1) _ _
      · dsimp only
        split
        · exact .pure (h.takeLeft 1)
        · exact ih (h.takeLeft 1) _ _
    · exact .pure h

theorem asks_gallop (h : m.All P) (bound : Nat) : Asks P (All P) (gallop bound m) := by
  induction bound generalizing m with
  | zero => exact .pure h
  | succ bound ih =>
    unfold gallop
    split
    · exact .pure h
    · next y hy =>
      have hlefts := asks_isBehindEquals (h.right y (mem_right_of_rightNext? hy)) h.left
      refine (asks_countTo hlefts _).bind fun lefts _ => ?_
      have hleft := h.takeLeft lefts
      dsimp only
      split
      · exact .pure hleft
      · have hnext := hleft.takeRight 1
        split
        · exact .pure hnext
        · split
          · exact .pure hnext
          · next x hx =>
            have hrights := asks_isBehindLesser (hnext.left x (mem_left_of_leftNext? hx)) hnext.right
            refine (asks_countTo hrights _).bind fun rights _ => ?_
            have hright := hnext.takeRight rights
            split
            · exact .pure hright
            · have hlast := hright.takeLeft 1
              split
              · exact .pure hlast
              · split
                · exact ih ⟨hlast.left, hlast.right, hlast.merged⟩
                · exact .pure ⟨hlast.left, hlast.right, hlast.merged⟩

theorem asks_proceed (h : m.All P) (bound : Nat) : Asks P (All P) (proceed bound m) := by
  induction bound generalizing m with
  | zero => exact .pure h
  | succ bound ih =>
    unfold proceed
    refine (asks_alternate h _ _ _).bind fun m h => ?_
    split
    · exact .pure h
    · refine (asks_gallop h _).bind fun m h => ?_
      split
      · exact .pure h
      · exact ih h

theorem asks_start (h : m.All P) : Asks P (All P) m.start := by
  have hnext : (if m.fromBack then m.takeLeft 1 else m.takeRight 1).All P := by
    split
    · exact h.takeLeft 1
    · exact h.takeRight 1
  unfold start
  dsimp only
  generalize (if m.fromBack then m.takeLeft 1 else m.takeRight 1) = next at hnext ⊢
  split
  · exact .pure hnext
  · exact asks_proceed hnext _

end Merging

theorem asks_merge (patience : Nat) (hleft : ∀ x ∈ left, P x) (hright : ∀ x ∈ right, P x) :
    Asks P (fun r => ∀ x ∈ r.1, P x) (merge patience left right) := by
  have happend : ∀ x ∈ left ++ right, P x := fun x hx =>
    (List.mem_append.1 hx).elim (hleft x) (hright x)
  unfold merge
  split
  · exact .pure hleft
  · next y others =>
    have hy := hright y List.mem_cons_self
    refine (asks_place (asks_isBehindEquals hy hleft) _ _).bind fun ahead _ => ?_
    dsimp only
    split
    · exact .pure happend
    · next x hx =>
      have hx := hleft x (List.mem_of_mem_drop (List.mem_of_getLast? hx))
      refine (asks_place (asks_isBehindLesser hx hright) _ _).bind fun within _ => ?_
      split
      · exact .pure happend
      · have hstart : Merging.All P
            { fromBack := within < (left.drop ahead).length, left := left.drop ahead,
              right := (y :: others).take within, patience } :=
          ⟨fun x hx => hleft x (List.mem_of_mem_drop hx),
            fun x hx => hright x (List.mem_of_mem_take hx), nofun⟩
        refine (Merging.asks_start hstart).bind fun m hm => .pure fun x hx => ?_
        simp only [List.mem_append] at hx
        rcases hx with (hx | hx) | hx
        · exact hleft x (List.mem_of_mem_take hx)
        · exact hm.finish x hx
        · exact hright x (List.mem_of_mem_drop hx)

/-- All items of a part, and of what is left, have a property. -/
def BothAll (P : α → Prop) (parts : List α × List α) : Prop :=
  (∀ x ∈ parts.1, P x) ∧ ∀ x ∈ parts.2, P x

theorem asks_splitRun (down : Bool) {last : α} (hlast : P last) (hitems : ∀ x ∈ items, P x) :
    Asks P (BothAll P) (splitRun down last items) := by
  induction items generalizing last with
  | nil => exact .pure ⟨nofun, nofun⟩
  | cons x rest ih =>
    obtain ⟨hx, hrest⟩ := List.forall_mem_cons.1 hitems
    unfold splitRun
    refine (Asks.isBelow hx hlast).bind fun b _ => ?_
    split
    · exact (ih hx hrest).bind fun ⟨_, _⟩ hparts =>
        .pure ⟨List.forall_mem_cons.2 ⟨hx, hparts.1⟩, hparts.2⟩
    · exact .pure ⟨nofun, hitems⟩

theorem asks_firstRun (hitems : ∀ x ∈ items, P x) : Asks P (BothAll P) (firstRun items) := by
  unfold firstRun
  split
  · next a b rest =>
    obtain ⟨ha, hrest⟩ := List.forall_mem_cons.1 hitems
    obtain ⟨hb, hrest⟩ := List.forall_mem_cons.1 hrest
    refine (Asks.isBelow hb ha).bind fun down _ => ?_
    refine (asks_splitRun down hb hrest).bind fun ⟨run, others⟩ hparts => .pure ⟨?_, hparts.2⟩
    have hrun : ∀ x ∈ a :: b :: run, P x :=
      List.forall_mem_cons.2 ⟨ha, List.forall_mem_cons.2 ⟨hb, hparts.1⟩⟩
    split
    · exact fun x hx => hrun x (List.mem_reverse.1 hx)
    · exact hrun
  · exact .pure ⟨hitems, nofun⟩

theorem asks_insert {x : α} (hsorted : ∀ y ∈ sorted, P y) (hx : P x) :
    Asks P (fun result => ∀ y ∈ result, P y) (insert sorted x) := by
  unfold insert
  refine (asks_halve (asks_isBehindEquals hx hsorted) _ _ _).bind fun place _ => .pure fun y hy => ?_
  rcases List.mem_append.1 hy with hy | hy
  · exact hsorted y (List.mem_of_mem_take hy)
  · rcases List.mem_cons.1 hy with rfl | hy
    · exact hx
    · exact hsorted y (List.mem_of_mem_drop hy)

section

variable {runs : List (Run α)}

/-- All items of some runs have a property. -/
def RunsAll (P : α → Prop) (runs : List (Run α)) : Prop :=
  ∀ run ∈ runs, ∀ x ∈ run.items, P x

theorem asks_mergeRuns (patience : Nat) {before last : Run α} (hbefore : ∀ x ∈ before.items, P x)
    (hlast : ∀ x ∈ last.items, P x) :
    Asks P (fun r => ∀ x ∈ r.1.items, P x) (Run.merge patience before last) :=
  (asks_merge patience hbefore hlast).bind fun ⟨_, _⟩ hitems => .pure hitems

theorem asks_settle (power bound patience : Nat) (hruns : RunsAll P runs) :
    Asks P (fun r => RunsAll P r.1) (settle power bound patience runs) := by
  fun_induction settle power bound patience runs with
  | case1 bound patience last before rest _ ih =>
    obtain ⟨hlast, hothers⟩ := List.forall_mem_cons.1 hruns
    obtain ⟨hbefore, hrest⟩ := List.forall_mem_cons.1 hothers
    exact (asks_mergeRuns patience hbefore hlast).bind fun ⟨run, patience⟩ hrun =>
      ih run patience (List.forall_mem_cons.2 ⟨hrun, hrest⟩)
  | case2 => exact .pure hruns
  | case3 => exact .pure hruns

theorem asks_addRun (count patience : Nat) (hitems : ∀ x ∈ items, P x) (hruns : RunsAll P runs) :
    Asks P (fun r => RunsAll P r.1) (addRun count patience items runs) := by
  unfold addRun
  split
  · exact .pure (List.forall_mem_singleton.2 hitems)
  · next last rest =>
    refine (asks_settle _ _ patience hruns).bind fun ⟨settled, _⟩ hsettled => .pure ?_
    refine List.forall_mem_cons.2 ⟨hitems, ?_⟩
    cases settled with
    | nil => exact nofun
    | cons run others =>
      obtain ⟨hrun, hothers⟩ := List.forall_mem_cons.1 hsettled
      exact List.forall_mem_cons.2 ⟨hrun, hothers⟩

theorem asks_collapse (bound patience : Nat) (hruns : RunsAll P runs) :
    Asks P (fun result => ∀ x ∈ result, P x) (collapse bound patience runs) := by
  fun_induction collapse bound patience runs with
  | case1 bound patience last before first rest _ ih =>
    obtain ⟨hlast, hothers⟩ := List.forall_mem_cons.1 hruns
    obtain ⟨hbefore, hothers⟩ := List.forall_mem_cons.1 hothers
    obtain ⟨hfirst, hrest⟩ := List.forall_mem_cons.1 hothers
    exact (asks_mergeRuns patience hfirst hbefore).bind fun ⟨run, patience⟩ hrun =>
      ih run patience (List.forall_mem_cons.2 ⟨hlast, List.forall_mem_cons.2 ⟨hrun, hrest⟩⟩)
  | case2 bound patience last before first rest _ ih =>
    obtain ⟨hlast, hothers⟩ := List.forall_mem_cons.1 hruns
    obtain ⟨hbefore, hothers⟩ := List.forall_mem_cons.1 hothers
    exact (asks_mergeRuns patience hbefore hlast).bind fun ⟨run, patience⟩ hrun =>
      ih run patience (List.forall_mem_cons.2 ⟨hrun, hothers⟩)
  | case3 _ patience last before =>
    obtain ⟨hlast, hothers⟩ := List.forall_mem_cons.1 hruns
    exact (asks_mergeRuns patience (List.forall_mem_singleton.1 hothers) hlast).bind fun _ hrun =>
      .pure hrun
  | case4 _ _ runs =>
    refine .pure fun x hx => ?_
    obtain ⟨run, hrun, hx⟩ := List.mem_flatMap.1 hx
    exact hruns run (List.mem_reverse.1 hrun) x hx

theorem asks_sortFrom (count bound patience : Nat) (hruns : RunsAll P runs)
    (hitems : ∀ x ∈ items, P x) :
    Asks P (fun result => ∀ x ∈ result, P x) (sortFrom count bound patience runs items) := by
  induction bound generalizing patience runs items with
  | zero => exact asks_collapse _ patience hruns
  | succ bound ih =>
    cases items with
    | nil => exact asks_collapse _ patience hruns
    | cons x rest =>
      unfold sortFrom
      refine (asks_firstRun hitems).bind fun ⟨run, rest⟩ ⟨hrun, hrest⟩ => ?_
      refine (Asks.foldlM hrun fun sorted y hsorted hy =>
        asks_insert hsorted (hrest y (List.mem_of_mem_take hy))).bind fun run hrun => ?_
      refine (asks_addRun count patience hrun hruns).bind fun ⟨runs, patience⟩ hruns => ?_
      exact ih patience hruns fun y hy => hrest y (List.mem_of_mem_drop hy)

end

/-- A sort compares its items with one another and nothing else. -/
theorem asks_sort (items : List α) :
    Asks (· ∈ items) (fun sorted => ∀ x ∈ sorted, x ∈ items) (sort items) :=
  asks_sortFrom items.length items.length usualPatience nofun fun _ hx => hx

/-- Items any two of which can be compared are sorted without a fault. -/
theorem fault?_eq_none {below : α → α → Except ε Bool}
    (h : ∀ x ∈ items, ∀ y ∈ items, ∃ b, below x y = .ok b) : fault? below items = none := by
  obtain ⟨sorted, hsorted⟩ := (asks_sort items).exists_run_eq_ok fun x y hx hy => h x hx y hy
  rw [fault?, hsorted]

end Sorting

end VersionedGraph
