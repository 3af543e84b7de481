import VersionedGraph.Acl.Draft
import VersionedGraph.Proofs.Order

/-!
# Grants in order

Grants are ordered by their types, then by ids, then by permissions, all of them as texts. By this
order different grants are never equal, so a set of them is sorted in one way only
(`mergeSort_ne_gt_eq`). Drafts that hold three texts are told apart and compared as these are
(`AclDraft.sameAs_ofPlain`, `AclDraft.isBelow_ofPlain`), although drafts compare texts by code
points; entries are grants with the names of their types and permissions.
-/

namespace VersionedGraph

namespace LooseText

theorem compare_codes (cs ds : List Char) :
    compare (cs.map (·.toNat)) (ds.map (·.toNat)) = compareOfLessAndEq cs ds := by
  induction cs generalizing ds with
  | nil => cases ds <;> rfl
  | cons c cs ih =>
    cases ds with
    | nil => rfl
    | cons d ds =>
      rw [List.compare_eq_compareLex] at ih ⊢
      rw [List.map_cons, List.map_cons, List.compareLex_cons_cons, ih]
      unfold compareOfLessAndEq
      have hcode : c < d ↔ c.toNat < d.toNat := Iff.rfl
      rcases Nat.lt_trichotomy c.toNat d.toNat with h | h | h
      · rw [Nat.compare_eq_lt.2 h, if_pos (List.cons_lt_cons_iff.2 (.inl (hcode.2 h)))]
        rfl
      · rw [Nat.compare_eq_eq.2 h, Char.toNat_inj.1 h]
        simp
      · have hnot : ¬c :: cs < d :: ds := by
          rw [List.cons_lt_cons_iff, hcode]
          rintro (hlt | ⟨rfl, _⟩)
          · omega
          · omega
        have hne : c :: cs ≠ d :: ds := by
          rintro ⟨⟩
          omega
        rw [Nat.compare_eq_gt.2 h, if_neg hnot, if_neg hne]
        rfl

theorem compare_ofString (s t : String) : compare (ofString s) (ofString t) = compare s t := by
  change compare ((s.toList.map CodePoint.char).map (·.toNat))
    ((t.toList.map CodePoint.char).map (·.toNat)) = compareOfLessAndEq s t
  rw [List.map_map, List.map_map]
  refine (compare_codes s.toList t.toList).trans ?_
  unfold compareOfLessAndEq
  simp only [String.lt_iff, String.toList_inj]

end LooseText

theorem PrincipalType.name_inj {t u : PrincipalType} : t.name = u.name ↔ t = u := by
  cases t <;> cases u <;> simp [PrincipalType.name]

theorem Permission.name_inj {p q : Permission} : p.name = q.name ↔ p = q := by
  cases p <;> cases q <;> simp [Permission.name]

/-- A grant as three texts, whether or not they name a type and a permission. -/
structure PlainGrant where
  type : String
  id : String
  permission : String
  deriving DecidableEq

namespace PlainGrant

variable {g h : PlainGrant}

def compare (g h : PlainGrant) : Ordering :=
  (Ord.compare g.type h.type).then
    ((Ord.compare g.id h.id).then (Ord.compare g.permission h.permission))

theorem compare_eq_compareLex :
    compare = compareLex (compareOn type) (compareLex (compareOn id) (compareOn permission)) :=
  rfl

instance : Std.TransCmp compare := by
  rw [compare_eq_compareLex]
  infer_instance

theorem compare_eq_eq_iff : g.compare h = .eq ↔ g = h := by
  rw [compare, Ordering.then_eq_eq, Ordering.then_eq_eq, Std.LawfulEqCmp.compare_eq_iff_eq,
    Std.LawfulEqCmp.compare_eq_iff_eq, Std.LawfulEqCmp.compare_eq_iff_eq, ← mk.injEq]

instance : Std.LawfulEqCmp compare where
  eq_of_compare := compare_eq_eq_iff.1

def precedes (g h : PlainGrant) : Bool :=
  compare g h ≠ .gt

end PlainGrant

namespace AclEntry

variable {a b : AclEntry}

def plain (e : AclEntry) : PlainGrant :=
  ⟨e.principal.type.name, e.principal.id, e.permission.name⟩

/-- An entry is told by its id and the names of its type and its permission. -/
theorem plain_inj : a.plain = b.plain ↔ a = b := by
  rcases a with ⟨⟨type, id⟩, permission⟩
  rcases b with ⟨⟨type', id'⟩, permission'⟩
  simp [plain, PrincipalType.name_inj, Permission.name_inj, and_assoc]

theorem compare_eq_eq_iff : a.compare b = .eq ↔ a = b :=
  PlainGrant.compare_eq_eq_iff.trans plain_inj

instance : Std.TransCmp compare where
  eq_swap {a b} := @Std.OrientedCmp.eq_swap _ PlainGrant.compare _ a.plain b.plain
  isLE_trans {a b c} := @Std.TransCmp.isLE_trans _ PlainGrant.compare _ a.plain b.plain c.plain

/-- In order, each once. -/
def Ascending (entries : List AclEntry) : Prop :=
  entries.Pairwise fun a b => a.compare b = .lt

theorem ascending_mergeSort {entries : List AclEntry} (h : entries.Nodup) :
    Ascending (entries.mergeSort precedes) := by
  have hnodup : (entries.mergeSort precedes).Nodup :=
    (List.mergeSort_perm entries precedes).nodup_iff.2 h
  have hsorted : (entries.mergeSort precedes).Pairwise fun a b => (a.compare b).isLE = true :=
    pairwise_mergeSort_ne_gt entries
  refine (hsorted.and hnodup).imp ?_
  rintro a b ⟨hle, hne⟩
  cases h : a.compare b with
  | lt => rfl
  | eq => exact absurd (compare_eq_eq_iff.1 h) hne
  | gt =>
    rw [h] at hle
    cases hle

end AclEntry

namespace AclDraft

def ofPlain (g : PlainGrant) : AclDraft :=
  ⟨.text g.type, .text g.id, .text g.permission⟩

theorem ofEntry_eq (e : AclEntry) : ofEntry e = ofPlain e.plain := rfl

section

variable {g h : PlainGrant}

theorem ofPlain_inj : ofPlain g = ofPlain h ↔ g = h := by
  rcases g with ⟨type, id, permission⟩
  rcases h with ⟨type', id', permission'⟩
  simp [ofPlain, LooseText.ofString_inj]

theorem sameAs_ofPlain : (ofPlain g).sameAs (ofPlain h) = decide (g = h) := by
  rw [Bool.eq_iff_iff, decide_eq_true_iff, ← ofPlain_inj]
  simp only [sameAs, ofPlain, Atom.sameAs, Bool.and_eq_true, decide_eq_true_eq, AclDraft.mk.injEq,
    Atom.text.injEq]
  rw [and_assoc, and_left_comm]

theorem isBelow_ofPlain : isBelow (ofPlain g) (ofPlain h) = .ok (g.compare h = .lt) := by
  have hsame (s t : String) : (Atom.text s).sameAs (.text t) = decide (s = t) :=
    decide_eq_decide.2 LooseText.ofString_inj
  have hcompare (s t : String) : (Atom.text s).compare? (.text t) = some (Ord.compare s t) :=
    congrArg some (LooseText.compare_ofString s t)
  simp only [isBelow, difference?, paired, ofPlain, List.find?, hsame, PlainGrant.compare,
    Ordering.then_eq_lt, Std.LawfulEqCmp.compare_eq_iff_eq]
  by_cases htype : g.type = h.type
  · by_cases hid : g.id = h.id
    · by_cases hpermission : g.permission = h.permission
      · simp [htype, hid, hpermission]
      · simp [htype, hid, hpermission, hcompare]
    · simp [htype, hid, hcompare]
  · simp [htype, hcompare]

theorem precedes_ofPlain : (ofPlain g).precedes (ofPlain h) = g.precedes h := by
  have hswap : g.compare h = (h.compare g).swap := Std.OrientedCmp.eq_swap
  unfold precedes PlainGrant.precedes
  rw [isBelow_ofPlain, hswap]
  cases h.compare g <;> rfl

end

end AclDraft

end VersionedGraph
