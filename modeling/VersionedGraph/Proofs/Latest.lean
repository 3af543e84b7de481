import Mathlib.Data.List.Pairwise
import VersionedGraph.Proofs.Criteria
import VersionedGraph.Proofs.Line
import VersionedGraph.Store.Query

/-!
# What queries for latest rows list

The latest rows of which something is true are ranked newest first (`Store.Ranks`). However rows are
found, and though the search may end early, a query hands out the first ones of the rows so ranked
that meet its criteria. Rows that have ids, and rows without ids that differ in age, can be ranked
in one way only.
-/

namespace VersionedGraph

namespace Store

theorem idDescends_trans {a b c : Option String} (hab : idDescends a b = true)
    (hbc : idDescends b c = true) : idDescends a c = true := by
  cases a <;> cases b <;> cases c <;> simp_all [idDescends]
  next a b c => exact String.le_trans hbc hab

theorem idDescends_total (a b : Option String) : (idDescends a b || idDescends b a) = true := by
  cases a <;> cases b <;> simp [idDescends]
  next a b => exact String.le_total b a

variable {k : Kind} {a b c : ListedRow k}

theorem newerFirst_iff : newerFirst a b = true ↔ a.createdAt.compare b.createdAt = .gt ∨
    a.createdAt.compare b.createdAt = .eq ∧ idDescends a.id b.id = true := by
  unfold newerFirst
  cases h : a.createdAt.compare b.createdAt <;> simp

theorem newerFirst_trans (hab : newerFirst a b = true) (hbc : newerFirst b c = true) :
    newerFirst a c = true := by
  rw [newerFirst_iff] at hab hbc ⊢
  rcases hab with hab | ⟨hab, hid⟩
  · rcases hbc with hbc | ⟨hbc, _⟩
    · exact .inl (Std.TransCmp.gt_trans hab hbc)
    · exact .inl (Std.TransCmp.gt_of_gt_of_eq hab hbc)
  · rcases hbc with hbc | ⟨hbc, hid'⟩
    · exact .inl (Std.TransCmp.gt_of_eq_of_gt hab hbc)
    · exact .inr ⟨Std.TransCmp.eq_trans hab hbc, idDescends_trans hid hid'⟩

theorem newerFirst_total (a b : ListedRow k) : (newerFirst a b || newerFirst b a) = true := by
  have hswap : b.createdAt.compare a.createdAt = (a.createdAt.compare b.createdAt).swap :=
    Std.OrientedCmp.eq_swap
  unfold newerFirst
  rw [hswap]
  cases a.createdAt.compare b.createdAt with
  | lt => rfl
  | gt => rfl
  | eq => exact idDescends_total a.id b.id

theorem pairwise_mergeSort_newerFirst (rows : List (ListedRow k)) :
    (rows.mergeSort newerFirst).Pairwise fun a b => newerFirst a b = true :=
  List.pairwise_mergeSort (fun a b c => newerFirst_trans (a := a) (b := b) (c := c))
    newerFirst_total rows

end Store

/-! Early ends. -/

section

variable {α : Type} {test : α → Except Fault Bool} {items kept : List α} {limit : Nat}

/-- Whether a test that may fail is known to be true. -/
def passes (test : α → Except Fault Bool) (a : α) : Bool :=
  (test a).toOption.getD false

theorem passes_of_eq_ok {a : α} {keep : Bool} (h : test a = .ok keep) : passes test a = keep := by
  unfold passes
  rw [h]
  rfl

theorem passes_iff {a : α} : passes test a = true ↔ test a = .ok true := by
  unfold passes
  cases h : test a with
  | ok b => simp [Except.toOption]
  | error f => simp [Except.toOption]

theorem eq_filter_of_selectM (h : selectM test items = .ok kept) :
    kept = items.filter (passes test) := by
  induction items generalizing kept with
  | nil =>
    cases h
    rfl
  | cons a rest ih =>
    simp only [selectM, bind_eq_ok_iff, pure_eq_ok_iff] at h
    obtain ⟨keep, hkeep, others, hothers, rfl⟩ := h
    rw [List.filter_cons, passes_of_eq_ok hkeep, ← ih hothers]

/-- What is missing after an early end is older than all that was taken, and enough was taken. -/
theorem selectUntil_spec {age : α → Cell} {taken : Nat} {last : Option α}
    (hsorted : (last.toList ++ items).Pairwise fun a b => (age b).precedes (age a) = true)
    (h : selectUntil test (fun a b => decide ((age a).compare (age b) = .eq)) limit taken last
      items = .ok kept) :
    ∃ missing, items.filter (passes test) = kept ++ missing ∧
      (missing ≠ [] → limit ≤ taken + kept.length ∧
        ∀ a ∈ last.toList ++ kept, ∀ b ∈ missing, (age a).compare (age b) = .gt) := by
  induction items generalizing taken last kept with
  | nil =>
    cases h
    exact ⟨[], rfl, fun hne => absurd rfl hne⟩
  | cons a rest ih =>
    rw [selectUntil, bind_eq_ok_iff] at h
    obtain ⟨keep, hkeep, h⟩ := h
    have hpasses := passes_of_eq_ok hkeep
    cases keep with
    | false =>
      have hrest : (last.toList ++ rest).Pairwise fun a b => (age b).precedes (age a) = true :=
        hsorted.sublist ((List.sublist_cons_self a rest).append_left _)
      obtain ⟨missing, hfilter, hmissing⟩ := ih hrest h
      refine ⟨missing, ?_, hmissing⟩
      rw [List.filter_cons, hpasses, ← hfilter]
      rfl
    | true =>
      have hlater : ∀ x ∈ last.toList, ∀ y ∈ a :: rest, (age y).precedes (age x) = true :=
        (List.pairwise_append.1 hsorted).2.2
      have hrest : (a :: rest).Pairwise fun a b => (age b).precedes (age a) = true :=
        (List.pairwise_append.1 hsorted).2.1
      rw [List.filter_cons, hpasses, if_pos rfl]
      rw [if_pos rfl] at h
      split at h
      · next hend =>
        cases h
        rw [Bool.and_eq_true, decide_eq_true_eq] at hend
        refine ⟨a :: rest.filter (passes test), rfl, fun _ => ⟨hend.1, fun x hx y hy => ?_⟩⟩
        rw [List.append_nil] at hx
        rw [Option.mem_toList] at hx
        have hnewer : (age x).compare (age a) = .gt := by
          have hprecedes := hlater x (Option.mem_toList.2 hx) a List.mem_cons_self
          refine Cell.gt_of_precedes_of_ne hprecedes ?_
          simpa [Option.mem_def.1 hx] using hend.2
        rcases List.mem_cons.1 hy with rfl | hy
        · exact hnewer
        · exact Cell.gt_of_gt_of_precedes hnewer
            (List.rel_of_pairwise_cons hrest (List.mem_filter.1 hy).1)
      · rw [bind_eq_ok_iff] at h
        obtain ⟨others, hothers, hkept⟩ := h
        cases hkept
        have hlast : ((some a).toList ++ rest).Pairwise fun a b =>
            (age b).precedes (age a) = true := hrest
        obtain ⟨missing, hfilter, hmissing⟩ := ih hlast hothers
        refine ⟨missing, by rw [hfilter]; rfl, fun hne => ?_⟩
        obtain ⟨hlength, holder⟩ := hmissing hne
        refine ⟨by rw [List.length_cons]; omega, fun x hx y hy => ?_⟩
        have hay := holder a List.mem_cons_self y hy
        rcases List.mem_append.1 hx with hx | hx
        · exact Cell.gt_of_precedes_of_gt (hlater x hx a List.mem_cons_self) hay
        · exact holder x hx y hy

theorem exists_mem_of_selectUntil_eq_error {tied : α → α → Bool} {taken : Nat} {last : Option α}
    {f : Fault} (h : selectUntil test tied limit taken last items = .error f) :
    ∃ a ∈ items, test a = .error f := by
  induction items generalizing taken last with
  | nil => cases h
  | cons a rest ih =>
    have hlift (hrest : ∃ b ∈ rest, test b = .error f) : ∃ b ∈ a :: rest, test b = .error f := by
      obtain ⟨b, hb, hfails⟩ := hrest
      exact ⟨b, List.mem_cons_of_mem a hb, hfails⟩
    rw [selectUntil] at h
    rcases bind_eq_error_iff.1 h with h | ⟨keep, _, h⟩
    · exact ⟨a, List.mem_cons_self, h⟩
    · cases keep with
      | false => exact hlift (ih h)
      | true =>
        rw [if_pos rfl] at h
        split at h
        · cases h
        · rcases bind_eq_error_iff.1 h with h | ⟨_, _, h⟩
          · exact hlift (ih h)
          · cases h

end

namespace Lookup

variable {k : Kind} {rows : List (ListedRow k)} {criteria : List (Criterion k)}

theorem inOrder_perm (way : Lookup) (rows : List (ListedRow k)) :
    (way.inOrder rows).Perm rows := by
  cases way <;> cases k <;> unfold inOrder
  case age.entity => exact (List.mergeSort_perm _ _).trans (List.reverse_perm rows)
  case age.link => exact (List.mergeSort_perm _ _).trans (List.reverse_perm rows)
  all_goals first
    | exact List.Perm.refl rows
    | exact List.mergeSort_perm _ _

/-- Rows that are found by age come newest first. -/
theorem pairwise_inOrder_age (rows : List (ListedRow k)) :
    (age.inOrder rows).Pairwise fun a b => b.createdAt.precedes a.createdAt = true := by
  let newer (a b : ListedRow k) : Bool := b.createdAt.precedes a.createdAt
  have hsorted : (rows.reverse.mergeSort newer).Pairwise fun a b => newer a b = true := by
    refine List.pairwise_mergeSort ?_ ?_ _
    · exact fun _ _ _ hab hbc => Cell.precedes_trans hbc hab
    · exact fun a b => Cell.precedes_total b.createdAt a.createdAt
  cases k <;> exact hsorted

theorem mem_arranged_iff (way : Lookup) {c : Criterion k} :
    c ∈ way.arranged criteria ↔ c ∈ criteria := by
  unfold arranged
  split
  · rw [List.mem_append, List.mem_filter, List.mem_filter, ← and_or_left]
    cases c.isOnProperties <;> simp
  · exact Iff.rfl

end Lookup

namespace Criterion

/-- A row is known to meet all criteria. -/
def AllMet {k : Kind} (criteria : List (Criterion k)) (row : ListedRow k) : Prop :=
  ∀ c ∈ criteria, c.holds row = .ok true

theorem passes_arranged_iff {k : Kind} {criteria : List (Criterion k)} {row : ListedRow k}
    (way : Lookup) :
    passes (fun row => allHold row (way.arranged criteria)) row = true ↔ AllMet criteria row := by
  rw [passes_iff, allHold_eq_true_iff]
  unfold AllMet
  simp only [way.mem_arranged_iff]

end Criterion

namespace Store

variable {s : Store} {k : Kind} {criteria : List (Criterion k)} {limit : Int}
  {p : ListedRow k → Prop} {rows : List (ListedRow k)}

def latestRows (s : Store) (k : Kind) : List (ListedRow k) :=
  (s.listedRows k).filter (·.isLatest)

open Classical in
/-- The latest rows of which something is true, newest first. -/
structure Ranks (s : Store) (k : Kind) (p : ListedRow k → Prop) (rows : List (ListedRow k)) :
    Prop where
  perm : rows.Perm ((s.latestRows k).filter fun row => p row)
  sorted : rows.Pairwise fun a b => newerFirst a b = true

theorem Ranks.mem_iff (h : s.Ranks k p rows) {row : ListedRow k} :
    row ∈ rows ↔ row ∈ s.listedRows k ∧ row.isLatest = true ∧ p row := by
  rw [h.perm.mem_iff]
  simp [latestRows, and_assoc, and_comm]

theorem Ranks.congr_latest {q : ListedRow k → Prop} (h : s.Ranks k p rows)
    (hpq : ∀ row ∈ s.latestRows k, p row ↔ q row) : s.Ranks k q rows := by
  classical
  have hsame : (s.latestRows k).filter (fun row => p row) =
      (s.latestRows k).filter fun row => q row :=
    List.filter_congr fun row hrow => decide_eq_decide.2 (hpq row hrow)
  exact ⟨by simpa only [← hsame] using h.perm, h.sorted⟩

theorem Ranks.congr {q : ListedRow k → Prop} (h : s.Ranks k p rows) (hpq : ∀ row, p row ↔ q row) :
    s.Ranks k q rows :=
  h.congr_latest fun row _ => hpq row

theorem Ranks.length_le (h : s.Ranks k p rows) : rows.length ≤ (s.latestRows k).length := by
  rw [h.perm.length_eq]
  exact List.length_filter_le _ _

theorem Ranks.filter (h : s.Ranks k p rows) {q : ListedRow k → Bool} :
    s.Ranks k (fun row => p row ∧ q row = true) (rows.filter q) := by
  classical
  refine ⟨?_, h.sorted.filter q⟩
  have hperm := h.perm.filter q
  rw [List.filter_filter] at hperm
  simpa [Bool.and_comm] using hperm

theorem ranks_append {kept missing found : List (ListedRow k)} (way : Lookup)
    (hfound : found.Perm (s.latestRows k))
    (hfilter : found.filter (passes fun row => Criterion.allHold row (way.arranged criteria)) =
      kept ++ missing)
    (hnewer : ∀ a ∈ kept, ∀ b ∈ missing, a.createdAt.compare b.createdAt = .gt) :
    s.Ranks k (Criterion.AllMet criteria)
      (kept.mergeSort newerFirst ++ missing.mergeSort newerFirst) := by
  classical
  constructor
  · have hmet : found.filter (passes fun row => Criterion.allHold row (way.arranged criteria)) =
        found.filter fun row => Criterion.AllMet criteria row :=
      List.filter_congr fun row _ => by
        rw [Bool.eq_iff_iff, Criterion.passes_arranged_iff, decide_eq_true_eq]
    have hsorted : (kept.mergeSort newerFirst ++ missing.mergeSort newerFirst).Perm
        (kept ++ missing) := (List.mergeSort_perm _ _).append (List.mergeSort_perm _ _)
    rw [← hfilter, hmet] at hsorted
    exact hsorted.trans (hfound.filter _)
  · rw [List.pairwise_append]
    refine ⟨pairwise_mergeSort_newerFirst kept, pairwise_mergeSort_newerFirst missing, ?_⟩
    intro a ha b hb
    exact newerFirst_iff.2 (.inl (hnewer a ((List.mergeSort_perm _ _).mem_iff.1 ha) b
      ((List.mergeSort_perm _ _).mem_iff.1 hb)))

theorem ranks_of_selectM {way : Lookup} {kept : List (ListedRow k)}
    (h : selectM (fun row => Criterion.allHold row (way.arranged criteria))
      (way.inOrder (s.latestRows k)) = .ok kept) :
    s.Ranks k (Criterion.AllMet criteria) (kept.mergeSort newerFirst) := by
  have hfilter := (eq_filter_of_selectM h).symm
  rw [← List.append_nil kept] at hfilter
  simpa using ranks_append way (way.inOrder_perm _) hfilter (by simp)

/-- The rows that a query selects rank first among those that meet its criteria. -/
theorem selectLatest_spec (h : s.selectLatest k criteria limit = .ok rows) :
    ∃ ranked, s.Ranks k (Criterion.AllMet criteria) ranked ∧
      limited limit rows = limited limit ranked := by
  unfold selectLatest at h
  dsimp only at h
  split at h
  · next hage =>
    rw [Bool.and_eq_true, decide_eq_true_eq, decide_eq_true_eq] at hage
    rw [hage.1] at h
    simp only [bind_eq_ok_iff, pure_eq_ok_iff] at h
    obtain ⟨kept, hkept, rfl⟩ := h
    have hsorted := Lookup.pairwise_inOrder_age (s.latestRows k)
    obtain ⟨missing, hfilter, hmissing⟩ := selectUntil_spec hsorted hkept
    refine ⟨kept.mergeSort newerFirst ++ missing.mergeSort newerFirst, ?_, ?_⟩
    · refine ranks_append .age (Lookup.inOrder_perm .age _) hfilter fun a ha b hb => ?_
      exact (hmissing (List.ne_nil_of_mem hb)).2 a ha b hb
    · cases missing with
      | nil => simp
      | cons b rest =>
        have hlength := (hmissing (List.cons_ne_nil b rest)).1
        unfold limited
        rw [if_neg (by omega), if_neg (by omega), List.take_append_of_le_length]
        rw [List.length_mergeSort]
        omega
  · simp only [bind_eq_ok_iff, pure_eq_ok_iff] at h
    obtain ⟨kept, hkept, rfl⟩ := h
    exact ⟨kept.mergeSort newerFirst, ranks_of_selectM hkept, rfl⟩

/-- A limit that leaves room for all rows ends no search early. -/
theorem selectLatest_of_room (hroom : ((s.latestRows k).length : Int) ≤ limit) :
    s.selectLatest k criteria limit =
      selectM (fun row => Criterion.allHold row ((Lookup.ofCriteria criteria).arranged criteria))
        ((Lookup.ofCriteria criteria).inOrder (s.latestRows k)) >>= fun rows =>
          pure (rows.mergeSort newerFirst) := by
  have hlength := ((Lookup.ofCriteria criteria).inOrder_perm (s.latestRows k)).length_eq
  unfold selectLatest
  dsimp only
  rw [selectUntil_eq_selectM, ite_self]
  · rfl
  · change 0 + ((Lookup.ofCriteria criteria).inOrder (s.latestRows k)).length ≤ limit.toNat
    omega

/-- Where the limit leaves room for all rows, every one of them is checked. -/
theorem exists_allHold_of_selectLatest (hroom : ((s.latestRows k).length : Int) ≤ limit)
    (h : s.selectLatest k criteria limit = .ok rows) :
    ∀ row ∈ s.latestRows k,
      ∃ b, Criterion.allHold row ((Lookup.ofCriteria criteria).arranged criteria) = .ok b := by
  rw [selectLatest_of_room hroom, bind_eq_ok_iff] at h
  obtain ⟨kept, hkept, _⟩ := h
  intro row hrow
  exact exists_eq_ok_of_selectM hkept row
    (((Lookup.ofCriteria criteria).inOrder_perm (s.latestRows k)).mem_iff.2 hrow)

theorem ranks_of_selectLatest (hroom : ((s.latestRows k).length : Int) ≤ limit)
    (h : s.selectLatest k criteria limit = .ok rows) :
    s.Ranks k (Criterion.AllMet criteria) rows := by
  rw [selectLatest_of_room hroom] at h
  simp only [bind_eq_ok_iff, pure_eq_ok_iff] at h
  obtain ⟨kept, hkept, rfl⟩ := h
  exact ranks_of_selectM hkept

/-- Rows fail to be selected only where one of them cannot be checked. -/
theorem exists_of_selectLatest_eq_error {f : Fault}
    (h : s.selectLatest k criteria limit = .error f) :
    ∃ row ∈ s.latestRows k, ∃ c ∈ criteria, c.holds row = .error f := by
  have hfails (way : Lookup) (hway : ∃ row ∈ way.inOrder (s.latestRows k),
      Criterion.allHold row (way.arranged criteria) = .error f) :
      ∃ row ∈ s.latestRows k, ∃ c ∈ criteria, c.holds row = .error f := by
    obtain ⟨row, hrow, hchecked⟩ := hway
    obtain ⟨c, hc, hholds⟩ := Criterion.exists_mem_of_allHold_eq_error hchecked
    exact ⟨row, (way.inOrder_perm _).mem_iff.1 hrow, c, (way.mem_arranged_iff).1 hc, hholds⟩
  unfold selectLatest at h
  dsimp only at h
  split at h
  · rcases bind_eq_error_iff.1 h with h | ⟨_, _, h⟩
    · exact hfails _ (exists_mem_of_selectUntil_eq_error h)
    · cases h
  · rcases bind_eq_error_iff.1 h with h | ⟨_, _, h⟩
    · exact hfails _ (exists_mem_of_selectM_eq_error h)
    · cases h

/-! Ranks that leave no choice. -/

/-- Rows without ids, which nothing but their age puts in order, differ in age. -/
def Untied (s : Store) (k : Kind) : Prop :=
  (s.unnamed k).Pairwise fun a b => a.createdAt.compare b.createdAt ≠ .eq

theorem idDescends_antisymm {a b : Option String} (hab : idDescends a b = true)
    (hba : idDescends b a = true) : a = b := by
  cases a <;> cases b <;> simp_all [idDescends]
  next a b => exact String.le_antisymm hba hab

theorem eq_of_newerFirst (h : s.Versioned k) (huntied : s.Untied k) {a b : ListedRow k}
    (ha : a ∈ s.listedRows k) (hb : b ∈ s.listedRows k) (hab : newerFirst a b = true)
    (hba : newerFirst b a = true) : a = b := by
  have hswap : b.createdAt.compare a.createdAt = (a.createdAt.compare b.createdAt).swap :=
    Std.OrientedCmp.eq_swap
  rw [newerFirst_iff] at hab hba
  rw [hswap] at hba
  -- Neither row is newer, so both have the same id or none.
  obtain ⟨hage, hid⟩ : a.createdAt.compare b.createdAt = .eq ∧ a.id = b.id := by
    rcases hab with hab | ⟨hage, hab⟩
    · rw [hab] at hba
      simp at hba
    · rw [hage] at hba
      simp only [Ordering.swap_eq, reduceCtorEq, true_and, false_or] at hba
      exact ⟨hage, idDescends_antisymm hab hba⟩
  rcases mem_listedRows_iff.1 ha with ⟨q, hq, rfl⟩ | ⟨q, hq, rfl⟩
  · rcases mem_listedRows_iff.1 hb with ⟨r, hr, rfl⟩ | ⟨r, hr, rfl⟩
    · rw [h.eq_of_id_eq hq hr (Option.some.inj hid)]
    · cases hid
  · rcases mem_listedRows_iff.1 hb with ⟨r, hr, rfl⟩ | ⟨r, hr, rfl⟩
    · cases hid
    · have : Std.Symm fun a b : UnnamedRow k => a.createdAt.compare b.createdAt ≠ .eq :=
        ⟨fun a b hne heq => hne (Std.OrientedCmp.eq_symm heq)⟩
      by_contra hne
      exact huntied.forall hq hr (fun heq => hne (by rw [heq])) hage

theorem Ranks.unique (h : s.Versioned k) (huntied : s.Untied k) {rows' : List (ListedRow k)}
    (hrows : s.Ranks k p rows) (hrows' : s.Ranks k p rows') : rows = rows' :=
  (hrows.perm.trans hrows'.perm.symm).eq_of_pairwise
    (fun _ _ ha hb hab hba => eq_of_newerFirst h huntied (hrows.mem_iff.1 ha).1
      (hrows'.mem_iff.1 hb).1 hab hba)
    hrows.sorted hrows'.sorted

theorem exists_ranks (s : Store) (k : Kind) (p : ListedRow k → Prop) :
    ∃ rows, s.Ranks k p rows := by
  classical
  exact ⟨_, List.mergeSort_perm _ newerFirst, pairwise_mergeSort_newerFirst _⟩

end Store

namespace Criterion

/-- What a query hands over before it looks at any row. -/
def handOver {k : Kind} (criteria : List (Criterion k)) (limit : Json) : Except Fault Unit := do
  criteria.forM Criterion.checkRowName
  Json.handOver (criteria.flatMap Criterion.bound ++ [limit])

end Criterion

namespace Store

variable {s : Store} {k : Kind} {criteria : List (Criterion k)} {n : Int}

theorem queryLatest_eq_bind (hn : 0 < n) : s.queryLatest k criteria (.int n) =
    Criterion.handOver criteria (.int n) >>= fun _ => s.selectLatest k criteria n >>= fun rows =>
      (limited n rows).mapM Version.decode := by
  have hlimit : (Json.int n).handedScalar.integer? = some n := rfl
  unfold queryLatest Criterion.handOver
  rw [hlimit, bind_assoc]
  split
  · next h => cases h
  · next h => simp at h; omega
  · next limit _ h =>
    cases h
    rfl

/-- With room for all rows a query reads every row that it selects. -/
theorem queryLatest_of_room (hroom : ((s.latestRows k).length : Int) ≤ n) :
    s.queryLatest k criteria (.int n) =
      Criterion.handOver criteria (.int n) >>= fun _ => s.selectLatest k criteria n >>= fun rows =>
        rows.mapM Version.decode := by
  rcases (by omega : n = 0 ∨ 0 < n) with rfl | hn
  · have hnone : s.latestRows k = [] := List.eq_nil_of_length_eq_zero (by omega)
    have hfound : (Lookup.ofCriteria criteria).inOrder (s.latestRows k) = [] := by
      rw [hnone]
      exact List.perm_nil.1 (Lookup.inOrder_perm _ [])
    have hselected : s.selectLatest k criteria 0 = .ok [] := by
      rw [selectLatest_of_room hroom, hfound]
      simp [selectM, pure, Except.pure]
    have hlimit : (Json.int 0).handedScalar.integer? = some 0 := rfl
    unfold queryLatest Criterion.handOver
    rw [hlimit, hselected, bind_assoc]
    rfl
  · rw [queryLatest_eq_bind hn]
    cases hrows : s.selectLatest k criteria n with
    | error f => rfl
    | ok rows =>
      have hlength := (ranks_of_selectLatest hroom hrows).length_le
      rw [ok_bind, ok_bind, limited, if_neg (by omega), List.take_of_length_le (by omega)]

/-- A query cannot hand its values over, or cannot check a row, or it comes to reading the rows that
rank first among those that meet its criteria. -/
theorem queryLatest_cases (s : Store) (criteria : List (Criterion k)) (hn : 0 < n) :
    (∃ f, Criterion.handOver criteria (.int n) = .error f ∧
      s.queryLatest k criteria (.int n) = .error f) ∨
    Criterion.handOver criteria (.int n) = .ok () ∧
      ((∃ f, (∃ row ∈ s.latestRows k, ∃ c ∈ criteria, c.holds row = .error f) ∧
        s.queryLatest k criteria (.int n) = .error f) ∨
      ∃ ranked, s.Ranks k (Criterion.AllMet criteria) ranked ∧
        s.queryLatest k criteria (.int n) = (ranked.take n.toNat).mapM Version.decode) := by
  rw [queryLatest_eq_bind hn]
  cases hhanded : Criterion.handOver criteria (.int n) with
  | error f => exact .inl ⟨f, rfl, rfl⟩
  | ok _ =>
    refine .inr ⟨rfl, ?_⟩
    rw [ok_bind]
    cases hrows : s.selectLatest k criteria n with
    | error f => exact .inl ⟨f, exists_of_selectLatest_eq_error hrows, rfl⟩
    | ok rows =>
      obtain ⟨ranked, hranks, hlimited⟩ := selectLatest_spec hrows
      refine .inr ⟨ranked, hranks, ?_⟩
      rw [ok_bind, hlimited]
      unfold limited
      rw [if_neg (by omega)]

/-- A query that asks only about columns looks at no row in vain. -/
theorem queryLatest_of_columns (hn : 0 < n) (hcolumns : ∀ c ∈ criteria, c.isOnProperties = false)
    (hhanded : Criterion.handOver criteria (.int n) = .ok ()) :
    ∃ ranked, s.Ranks k (Criterion.AllMet criteria) ranked ∧
      s.queryLatest k criteria (.int n) = (ranked.take n.toNat).mapM Version.decode := by
  rcases s.queryLatest_cases criteria hn with
    ⟨f, hrefused, _⟩ | ⟨_, ⟨f, ⟨row, _, c, hc, hfails⟩, _⟩ | hranks⟩
  · rw [hhanded] at hrefused
    cases hrefused
  · obtain ⟨b, hb⟩ := Criterion.exists_holds_eq_ok row (hcolumns c hc)
    rw [hb] at hfails
    cases hfails
  · exact hranks

end Store

end VersionedGraph
