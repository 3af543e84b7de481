import VersionedGraph.Store.Neighbors

/-!
# The order of cells and hops

Cells are ordered by a key of three parts: numbers before texts, numbers by value, texts by their
code points. So the order is total, and what is sorted by it, versions of a chain and hops by the
age of their links, is in order whatever the columns hold.
-/

namespace VersionedGraph

section

variable {α : Type} {compared : α → α → Ordering}

theorem ne_gt_iff_isLE {o : Ordering} : decide (o ≠ .gt) = true ↔ o.isLE = true := by
  cases o <;> decide

theorem ne_gt_trans [Std.TransCmp compared] {a b c : α} (hab : decide (compared a b ≠ .gt) = true)
    (hbc : decide (compared b c ≠ .gt) = true) : decide (compared a c ≠ .gt) = true := by
  rw [ne_gt_iff_isLE] at hab hbc ⊢
  exact Std.TransCmp.isLE_trans hab hbc

theorem ne_gt_total [Std.OrientedCmp compared] (a b : α) :
    (decide (compared a b ≠ .gt) || decide (compared b a ≠ .gt)) = true := by
  have hswap : compared b a = (compared a b).swap := Std.OrientedCmp.eq_swap
  rw [hswap]
  cases compared a b <;> decide

section

variable [Std.TransCmp compared]

theorem pairwise_mergeSort_ne_gt (items : List α) :
    (items.mergeSort fun a b => decide (compared a b ≠ .gt)).Pairwise fun a b =>
      (compared a b).isLE = true :=
  (List.pairwise_mergeSort (fun _ _ _ => ne_gt_trans) ne_gt_total items).imp ne_gt_iff_isLE.1

/-- By an order in which no two different items are equal, the same items are sorted in one way. -/
theorem mergeSort_ne_gt_eq [Std.LawfulEqCmp compared] {items items' : List α}
    (h : items.Perm items') :
    items.mergeSort (fun a b => decide (compared a b ≠ .gt)) =
      items'.mergeSort fun a b => decide (compared a b ≠ .gt) := by
  refine List.Perm.eq_of_pairwise (fun a b _ _ hab hba => ?_) (pairwise_mergeSort_ne_gt items)
    (pairwise_mergeSort_ne_gt items')
    ((List.mergeSort_perm items _).trans (h.trans (List.mergeSort_perm items' _).symm))
  exact Std.LawfulEqCmp.eq_of_compare (Std.OrientedCmp.isLE_antisymm hab hba)

end

end

namespace Cell

/-- Zero for a number and one for a text. -/
def sort : Cell → Nat
  | text _ => 1
  | _ => 0

/-- The value of a number in units of the least double. -/
def scaled : Cell → Int
  | integer n => n * twoTo 1074
  | real x => x.scaled
  | text _ => 0

/-- The code points of a text. -/
def points : Cell → List Nat
  | text s => (LooseText.ofString s).points.map (·.toNat)
  | _ => []

theorem compare_mul_twoTo (m n : Int) (e : Nat) :
    Ord.compare (m * twoTo e) (n * twoTo e) = Ord.compare m n := by
  have hpos : (0 : Int) < twoTo e := Int.natCast_pos.2 (Nat.pow_pos (by decide))
  rcases Int.lt_trichotomy m n with h | h | h
  · rw [Int.compare_eq_lt.2 h, Int.compare_eq_lt.2 (Int.mul_lt_mul_of_pos_right h hpos)]
  · rw [h, Int.compare_eq_eq.2 rfl, Int.compare_eq_eq.2 rfl]
  · rw [Int.compare_eq_gt.2 h, Int.compare_eq_gt.2 (Int.mul_lt_mul_of_pos_right h hpos)]

theorem compare_eq_compareLex :
    compare = compareLex (compareOn sort) (compareLex (compareOn scaled) (compareOn points)) := by
  have hthen (o : Ordering) : o.then .eq = o := by cases o <;> rfl
  funext a b
  cases a with
  | integer m =>
    cases b with
    | integer n =>
      change Ord.compare m n = (Ord.compare (m * twoTo 1074) (n * twoTo 1074)).then .eq
      rw [hthen, compare_mul_twoTo]
    | real y =>
      change (y.compareInt m).swap = (Ord.compare (m * twoTo 1074) y.scaled).then .eq
      rw [hthen, Binary64.compareInt, ← Std.OrientedCmp.eq_swap]
    | text t => rfl
  | real x =>
    cases b with
    | integer n =>
      change x.compareInt n = (Ord.compare x.scaled (n * twoTo 1074)).then .eq
      rw [hthen, Binary64.compareInt]
    | real y =>
      change x.compareTo y = (Ord.compare x.scaled y.scaled).then .eq
      rw [hthen, Binary64.compareTo]
    | text t => rfl
  | text s =>
    cases b with
    | integer n => rfl
    | real y => rfl
    | text t => rfl

instance : Std.TransCmp compare := by
  rw [compare_eq_compareLex]
  infer_instance

theorem precedes_iff {a b : Cell} : a.precedes b = true ↔ (a.compare b).isLE = true :=
  ne_gt_iff_isLE

theorem precedes_integer {m n : Int} : (integer m).precedes (integer n) = true ↔ m ≤ n := by
  rw [precedes_iff, compare_integer, Int.isLE_compare]

theorem precedes_trans {a b c : Cell} (hab : a.precedes b = true) (hbc : b.precedes c = true) :
    a.precedes c = true :=
  @ne_gt_trans _ compare _ a b c hab hbc

theorem precedes_total (a b : Cell) : (a.precedes b || b.precedes a) = true :=
  @ne_gt_total _ compare _ a b

theorem gt_of_precedes_of_ne {a b : Cell} (h : b.precedes a = true) (hne : b.compare a ≠ .eq) :
    a.compare b = .gt := by
  rw [precedes_iff] at h
  rw [Std.OrientedCmp.gt_iff_lt]
  cases hba : b.compare a with
  | lt => rfl
  | eq => exact absurd hba hne
  | gt =>
    rw [hba] at h
    cases h

theorem gt_of_gt_of_precedes {a b c : Cell} (hab : a.compare b = .gt) (hcb : c.precedes b = true) :
    a.compare c = .gt := by
  rw [precedes_iff] at hcb
  rw [Std.OrientedCmp.gt_iff_lt] at hab ⊢
  exact Std.TransCmp.lt_of_isLE_of_lt hcb hab

theorem gt_of_precedes_of_gt {a b c : Cell} (hba : b.precedes a = true) (hbc : b.compare c = .gt) :
    a.compare c = .gt := by
  rw [precedes_iff] at hba
  rw [Std.OrientedCmp.gt_iff_lt] at hbc ⊢
  exact Std.TransCmp.lt_of_lt_of_isLE hbc hba

end Cell

namespace NeighborRow

/-- A hop comes before another in an answer: its link is older, or as old and has the lesser id. -/
def Before (a b : NeighborRow) : Prop :=
  a.link.createdAt.compare b.link.createdAt = .lt ∨
    a.link.createdAt.compare b.link.createdAt = .eq ∧ a.link.id < b.link.id

theorem olderFirst_iff {a b : NeighborRow} :
    a.olderFirst b = true ↔ a.link.createdAt.compare b.link.createdAt = .lt ∨
      a.link.createdAt.compare b.link.createdAt = .eq ∧ a.link.id ≤ b.link.id := by
  unfold olderFirst
  cases h : a.link.createdAt.compare b.link.createdAt with
  | lt => simp
  | gt => simp
  | eq => simp

theorem olderFirst_trans {a b c : NeighborRow} (hab : a.olderFirst b = true)
    (hbc : b.olderFirst c = true) : a.olderFirst c = true := by
  rw [olderFirst_iff] at hab hbc ⊢
  rcases hab with hab | ⟨hab, hid⟩
  · rcases hbc with hbc | ⟨hbc, _⟩
    · exact .inl (Std.TransCmp.lt_trans hab hbc)
    · exact .inl (Std.TransCmp.lt_of_lt_of_eq hab hbc)
  · rcases hbc with hbc | ⟨hbc, hid'⟩
    · exact .inl (Std.TransCmp.lt_of_eq_of_lt hab hbc)
    · exact .inr ⟨Std.TransCmp.eq_trans hab hbc, String.le_trans hid hid'⟩

theorem olderFirst_total (a b : NeighborRow) : (a.olderFirst b || b.olderFirst a) = true := by
  have hswap : b.link.createdAt.compare a.link.createdAt =
      (a.link.createdAt.compare b.link.createdAt).swap := Std.OrientedCmp.eq_swap
  unfold olderFirst
  rw [hswap]
  cases a.link.createdAt.compare b.link.createdAt with
  | lt => rfl
  | gt => rfl
  | eq => simpa using String.le_total a.link.id b.link.id

theorem before_of_olderFirst {a b : NeighborRow} (h : a.olderFirst b = true)
    (hne : a.link.id ≠ b.link.id) : a.Before b := by
  rcases olderFirst_iff.1 h with hlt | ⟨heq, hle⟩
  · exact .inl hlt
  · exact .inr ⟨heq, Std.lt_of_le_of_ne hle hne⟩

end NeighborRow

end VersionedGraph
