import VersionedGraph.Proofs.Outcome
import VersionedGraph.Store.Criterion

/-!
# What checked rows meet

Criteria are checked in order until one fails, so all of them are known to hold just when the
check comes out true, and a selection that ends well has kept exactly the items for which its test
is true.
-/

namespace VersionedGraph

namespace Criterion

variable {k : Kind} {row : ListedRow k} {criteria : List (Criterion k)}

theorem allHold_eq_true_iff :
    allHold row criteria = .ok true ↔ ∀ c ∈ criteria, c.holds row = .ok true := by
  induction criteria with
  | nil => simp [allHold]
  | cons c rest ih =>
    rw [allHold, bind_eq_ok_iff, List.forall_mem_cons, ← ih]
    constructor
    · rintro ⟨b, hb, hrest⟩
      cases b with
      | true => exact ⟨hb, hrest⟩
      | false => cases hrest
    · rintro ⟨hc, hrest⟩
      exact ⟨true, hc, hrest⟩

/-- A row can be checked for all criteria when it can be for each of them. -/
theorem exists_allHold_eq (h : ∀ c ∈ criteria, ∃ b, c.holds row = .ok b) :
    ∃ b, allHold row criteria = .ok b := by
  induction criteria with
  | nil => exact ⟨true, rfl⟩
  | cons c rest ih =>
    obtain ⟨b, hb⟩ := h c List.mem_cons_self
    cases b with
    | true =>
      obtain ⟨b, hrest⟩ := ih fun d hd => h d (List.mem_cons_of_mem c hd)
      exact ⟨b, bind_eq_ok_iff.2 ⟨true, hb, hrest⟩⟩
    | false => exact ⟨false, bind_eq_ok_iff.2 ⟨false, hb, rfl⟩⟩

/-- Only what looks into properties can fail, and it fails in evaluating them. -/
theorem evaluation_of_holds_eq_error {c : Criterion k} {f : Fault} (h : c.holds row = .error f) :
    c.isOnProperties = true ∧ ∃ e, f = .evaluation e := by
  cases hon : c.isOnProperties with
  | false =>
    obtain ⟨b, hb⟩ := exists_holds_eq_ok row hon
    rw [hb] at h
    cases h
  | true =>
    cases c with
    | properties filter =>
      refine ⟨rfl, ?_⟩
      change filter.holdsOn row.properties = .error f at h
      unfold CompiledFilter.holdsOn Condition.holdsOn at h
      split at h
      · cases h
      · next condition _ =>
        cases hholds : condition.holds (queryDocument? row.properties) with
        | ok b =>
          rw [hholds] at h
          cases h
        | error e =>
          rw [hholds] at h
          cases h
          exact ⟨e, rfl⟩
    | _ => cases hon

theorem exists_mem_of_allHold_eq_error {f : Fault} (h : allHold row criteria = .error f) :
    ∃ c ∈ criteria, c.holds row = .error f := by
  induction criteria with
  | nil => cases h
  | cons c rest ih =>
    rw [allHold] at h
    rcases bind_eq_error_iff.1 h with h | ⟨b, _, h⟩
    · exact ⟨c, List.mem_cons_self, h⟩
    · cases b with
      | true =>
        obtain ⟨d, hd, hfails⟩ := ih h
        exact ⟨d, List.mem_cons_of_mem c hd, hfails⟩
      | false => cases h

end Criterion

section

variable {α : Type} {test : α → Except Fault Bool} {items kept : List α}

theorem sublist_of_selectM (h : selectM test items = .ok kept) : kept.Sublist items := by
  induction items generalizing kept with
  | nil =>
    cases h
    exact List.Sublist.refl []
  | cons a rest ih =>
    simp only [selectM, bind_eq_ok_iff, pure_eq_ok_iff] at h
    obtain ⟨keep, _, others, hothers, rfl⟩ := h
    cases keep with
    | true => exact (ih hothers).cons_cons a
    | false => exact (ih hothers).cons a

theorem exists_eq_ok_of_selectM (h : selectM test items = .ok kept) :
    ∀ a ∈ items, ∃ b, test a = .ok b := by
  induction items generalizing kept with
  | nil => exact nofun
  | cons a rest ih =>
    simp only [selectM, bind_eq_ok_iff] at h
    obtain ⟨keep, hkeep, others, hothers, _⟩ := h
    exact List.forall_mem_cons.2 ⟨⟨keep, hkeep⟩, ih hothers⟩

theorem exists_mem_of_selectM_eq_error {f : Fault} (h : selectM test items = .error f) :
    ∃ a ∈ items, test a = .error f := by
  induction items with
  | nil => cases h
  | cons a rest ih =>
    rw [selectM] at h
    rcases bind_eq_error_iff.1 h with h | ⟨_, _, h⟩
    · exact ⟨a, List.mem_cons_self, h⟩
    · rcases bind_eq_error_iff.1 h with h | ⟨_, _, h⟩
      · obtain ⟨b, hb, hfails⟩ := ih h
        exact ⟨b, List.mem_cons_of_mem a hb, hfails⟩
      · cases h

theorem mem_selectM_iff (h : selectM test items = .ok kept) {a : α} :
    a ∈ kept ↔ a ∈ items ∧ test a = .ok true := by
  induction items generalizing kept with
  | nil =>
    cases h
    simp
  | cons b rest ih =>
    simp only [selectM, bind_eq_ok_iff, pure_eq_ok_iff] at h
    obtain ⟨keep, hkeep, others, hothers, rfl⟩ := h
    cases keep with
    | true =>
      rw [if_pos rfl, List.mem_cons, List.mem_cons, ih hothers, or_and_right]
      constructor
      · rintro (rfl | ha)
        · exact .inl ⟨rfl, hkeep⟩
        · exact .inr ha
      · rintro (⟨rfl, _⟩ | ha)
        · exact .inl rfl
        · exact .inr ha
    | false =>
      rw [if_neg Bool.false_ne_true, List.mem_cons, ih hothers]
      constructor
      · rintro ⟨ha, hholds⟩
        exact ⟨.inr ha, hholds⟩
      · rintro ⟨rfl | ha, hholds⟩
        · rw [hkeep] at hholds
          cases hholds
        · exact ⟨ha, hholds⟩

end

end VersionedGraph
