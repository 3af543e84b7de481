import Mathlib.Data.List.Nodup
import VersionedGraph.Proofs.Write

/-!
# The version invariant

Rows of a kind form version chains (`Store.Versioned`): a row either is version one and names no
row before it, or comes right after an existing row whose version is one less; no two rows come
after the same one; and a row is marked as latest exactly when none comes after it. Every write
keeps this, so it holds of every reachable store.
-/

namespace VersionedGraph

namespace Store

/-- The rows of a kind form version chains. Rows without ids, which nothing can name, are chains by
themselves. -/
structure Versioned (s : Store) (k : Kind) : Prop where
  nodup_ids : ((s.rows k).map (·.id)).Nodup
  numbered : ∀ r ∈ s.rows k, (r.version = .integer 1 ∧ r.previous = none) ∨
    ∃ p ∈ s.rows k, r.previous = some p.id ∧
      ∃ n : Nat, 1 ≤ n ∧ p.version = .integer n ∧ r.version = .integer (n + 1)
  unbranched : ∀ a ∈ s.rows k, ∀ b ∈ s.rows k, a.previous = b.previous → a.previous ≠ none → a = b
  isLatest_iff : ∀ r ∈ s.rows k, r.isLatest = true ↔ ∀ q ∈ s.rows k, q.previous ≠ some r.id
  unnamed : ∀ r ∈ s.unnamed k, r.version = .integer 1 ∧ r.previous = none ∧ r.isLatest = true

variable {s t : Store} {k : Kind}

theorem row?_eq_none_iff {id : String} : s.row? k id = none ↔ ∀ r ∈ s.rows k, r.id ≠ id := by
  simp [row?, List.find?_eq_none]

theorem mem_rows_of_row? {id : String} {r : Row k} (h : s.row? k id = some r) : r ∈ s.rows k :=
  List.mem_of_find?_eq_some h

theorem id_of_row? {id : String} {r : Row k} (h : s.row? k id = some r) : r.id = id := by
  simpa using List.find?_some h

theorem exists_row?_of_mem {r : Row k} (h : r ∈ s.rows k) : ∃ q, s.row? k r.id = some q := by
  cases hrow : s.row? k r.id with
  | none => exact absurd rfl (row?_eq_none_iff.1 hrow r h)
  | some q => exact ⟨q, rfl⟩

theorem eq_of_id_eq_of_nodup (hids : ((s.rows k).map (·.id)).Nodup) {a b : Row k}
    (ha : a ∈ s.rows k) (hb : b ∈ s.rows k) (hid : a.id = b.id) : a = b :=
  List.inj_on_of_nodup_map hids ha hb hid

theorem row?_eq_some_iff_of_nodup (hids : ((s.rows k).map (·.id)).Nodup) {id : String}
    {r : Row k} : s.row? k id = some r ↔ r ∈ s.rows k ∧ r.id = id := by
  constructor
  · intro hrow
    exact ⟨mem_rows_of_row? hrow, id_of_row? hrow⟩
  · rintro ⟨hr, rfl⟩
    obtain ⟨q, hq⟩ := exists_row?_of_mem hr
    rw [hq, eq_of_id_eq_of_nodup hids (mem_rows_of_row? hq) hr (id_of_row? hq)]

@[simp] theorem unmark_version (id : String) (r : Row k) : (unmark id r).version = r.version := by
  unfold unmark
  split <;> rfl

@[simp] theorem unmark_previous (id : String) (r : Row k) :
    (unmark id r).previous = r.previous := by
  unfold unmark
  split <;> rfl

@[simp] theorem unmark_isLatest (id : String) (r : Row k) :
    (unmark id r).isLatest = (r.isLatest && decide (r.id ≠ id)) := by
  unfold unmark
  by_cases hid : r.id = id
  · simp [hid]
  · simp [hid]

namespace Versioned

theorem empty (k : Kind) : Store.empty.Versioned k := by
  have hrows : Store.empty.rows k = [] := by cases k <;> rfl
  have hunnamed : Store.empty.unnamed k = [] := by cases k <;> rfl
  refine ⟨?_, ?_, ?_, ?_, ?_⟩
  · rw [hrows]
    exact List.nodup_nil
  · simp [hrows]
  · simp [hrows]
  · simp [hrows]
  · simp [hunnamed]

/-- The invariant is about the rows of one kind only. -/
theorem congr (h : s.Versioned k) (hrows : t.rows k = s.rows k)
    (hunnamed : t.unnamed k = s.unnamed k) : t.Versioned k := by
  refine ⟨?_, ?_, ?_, ?_, ?_⟩
  · rw [hrows]
    exact h.nodup_ids
  · rw [hrows]
    exact h.numbered
  · rw [hrows]
    exact h.unbranched
  · rw [hrows]
    exact h.isLatest_iff
  · rw [hunnamed]
    exact h.unnamed

/-- Rows of one id are the same row. -/
theorem eq_of_id_eq (h : s.Versioned k) {a b : Row k} (ha : a ∈ s.rows k) (hb : b ∈ s.rows k)
    (hid : a.id = b.id) : a = b :=
  eq_of_id_eq_of_nodup h.nodup_ids ha hb hid

theorem row?_eq_some_iff (h : s.Versioned k) {id : String} {r : Row k} :
    s.row? k id = some r ↔ r ∈ s.rows k ∧ r.id = id :=
  row?_eq_some_iff_of_nodup h.nodup_ids

/-- What a row names before it exists. -/
theorem exists_of_previous (h : s.Versioned k) {r : Row k} {id : String} (hr : r ∈ s.rows k)
    (hprevious : r.previous = some id) : ∃ p ∈ s.rows k, p.id = id := by
  rcases h.numbered r hr with ⟨_, hnone⟩ | ⟨p, hp, hsome, _⟩
  · rw [hnone] at hprevious
    cases hprevious
  · rw [hsome] at hprevious
    exact ⟨p, hp, Option.some.inj hprevious⟩

theorem nodup_ids_addRow (h : ((s.rows k).map (·.id)).Nodup) {row : Row k}
    (hnew : ∀ r ∈ s.rows k, r.id ≠ row.id) : (((s.addRow row).rows k).map (·.id)).Nodup := by
  rw [rows_addRow, List.map_append, List.nodup_append]
  refine ⟨h, List.nodup_singleton _, ?_⟩
  intro id hid id' hid' heq
  obtain ⟨r, hr, rfl⟩ := List.mem_map.1 hid
  exact hnew r hr (heq.trans (List.mem_singleton.1 hid'))

/-- A first version with a new id keeps the invariant. -/
theorem addRow_first (h : s.Versioned k) {row : Row k} (hnew : ∀ r ∈ s.rows k, r.id ≠ row.id)
    (hversion : row.version = .integer 1) (hprevious : row.previous = none)
    (hlatest : row.isLatest = true) : (s.addRow row).Versioned k := by
  have hmem (r : Row k) : r ∈ (s.addRow row).rows k ↔ r ∈ s.rows k ∨ r = row := by simp
  refine ⟨nodup_ids_addRow h.nodup_ids hnew, ?_, ?_, ?_, ?_⟩
  · intro r hr
    rcases (hmem r).1 hr with hr | rfl
    · rcases h.numbered r hr with hone | ⟨p, hp, hrest⟩
      · exact .inl hone
      · exact .inr ⟨p, (hmem p).2 (.inl hp), hrest⟩
    · exact .inl ⟨hversion, hprevious⟩
  · intro a ha b hb heq hne
    rcases (hmem a).1 ha with ha | rfl
    · rcases (hmem b).1 hb with hb | rfl
      · exact h.unbranched a ha b hb heq hne
      · exact absurd (heq.trans hprevious) hne
    · exact absurd hprevious hne
  · intro r hr
    rcases (hmem r).1 hr with hr | rfl
    · rw [h.isLatest_iff r hr]
      constructor
      · intro hnone q hq
        rcases (hmem q).1 hq with hq | rfl
        · exact hnone q hq
        · rw [hprevious]
          exact nofun
      · intro hnone q hq
        exact hnone q ((hmem q).2 (.inl hq))
    · refine ⟨fun _ q hq hnames => ?_, fun _ => hlatest⟩
      rcases (hmem q).1 hq with hq | rfl
      · obtain ⟨p, hp, hpid⟩ := h.exists_of_previous hq hnames
        exact hnew p hp hpid
      · rw [hprevious] at hnames
        cases hnames
  · intro r hr
    rw [addRow, unnamed_withRows] at hr
    exact h.unnamed r hr

section

variable {current row : Row k}

theorem mem_rows_next {r : Row k} : r ∈ ((s.clearLatest k current.id).addRow row).rows k ↔
    (∃ q ∈ s.rows k, unmark current.id q = r) ∨ r = row := by
  simp

theorem numbered_next (h : s.Versioned k) (hcurrent : current ∈ s.rows k) {n : Nat} (hn : 1 ≤ n)
    (hversion : current.version = .integer n) (hnext : row.version = .integer (n + 1))
    (hprevious : row.previous = some current.id) {r : Row k}
    (hr : r ∈ ((s.clearLatest k current.id).addRow row).rows k) :
    (r.version = .integer 1 ∧ r.previous = none) ∨
      ∃ p ∈ ((s.clearLatest k current.id).addRow row).rows k, r.previous = some p.id ∧
        ∃ m : Nat, 1 ≤ m ∧ p.version = .integer m ∧ r.version = .integer (m + 1) := by
  rcases mem_rows_next.1 hr with ⟨q, hq, rfl⟩ | rfl
  · rw [unmark_version, unmark_previous]
    rcases h.numbered q hq with hone | ⟨p, hp, hnames, hnumbers⟩
    · exact .inl hone
    · refine .inr ⟨unmark current.id p, mem_rows_next.2 (.inl ⟨p, hp, rfl⟩), ?_⟩
      rw [unmark_id, unmark_version]
      exact ⟨hnames, hnumbers⟩
  · refine .inr ⟨unmark current.id current, mem_rows_next.2 (.inl ⟨current, hcurrent, rfl⟩), ?_⟩
    rw [unmark_id, unmark_version]
    exact ⟨hprevious, n, hn, hversion, hnext⟩

/-- Nothing but the new row names the row before it, which was latest. -/
theorem unbranched_next (h : s.Versioned k) (hcurrent : current ∈ s.rows k)
    (hmarked : current.isLatest = true) (hprevious : row.previous = some current.id) {a b : Row k}
    (ha : a ∈ ((s.clearLatest k current.id).addRow row).rows k)
    (hb : b ∈ ((s.clearLatest k current.id).addRow row).rows k) (heq : a.previous = b.previous)
    (hne : a.previous ≠ none) : a = b := by
  have hend := (h.isLatest_iff current hcurrent).1 hmarked
  rcases mem_rows_next.1 ha with ⟨p, hp, rfl⟩ | rfl
  · rcases mem_rows_next.1 hb with ⟨q, hq, rfl⟩ | rfl
    · rw [unmark_previous, unmark_previous] at heq
      rw [unmark_previous] at hne
      rw [h.unbranched p hp q hq heq hne]
    · rw [unmark_previous, hprevious] at heq
      exact absurd heq (hend p hp)
  · rcases mem_rows_next.1 hb with ⟨q, hq, rfl⟩ | rfl
    · rw [unmark_previous, hprevious] at heq
      exact absurd heq.symm (hend q hq)
    · rfl

theorem isLatest_next_iff (h : s.Versioned k) (hcurrent : current ∈ s.rows k)
    (hnew : ∀ r ∈ s.rows k, r.id ≠ row.id) (hprevious : row.previous = some current.id)
    (hlatest : row.isLatest = true) {r : Row k}
    (hr : r ∈ ((s.clearLatest k current.id).addRow row).rows k) :
    r.isLatest = true ↔
      ∀ q ∈ ((s.clearLatest k current.id).addRow row).rows k, q.previous ≠ some r.id := by
  rcases mem_rows_next.1 hr with ⟨q, hq, rfl⟩ | rfl
  · rw [unmark_isLatest, unmark_id, Bool.and_eq_true, decide_eq_true_eq, h.isLatest_iff q hq]
    constructor
    · rintro ⟨hnone, hne⟩ r hr
      rcases mem_rows_next.1 hr with ⟨p, hp, rfl⟩ | rfl
      · rw [unmark_previous]
        exact hnone p hp
      · rw [hprevious]
        exact fun heq => hne (Option.some.inj heq).symm
    · intro hnone
      refine ⟨fun r hr => ?_, fun heq => hnone row (mem_rows_next.2 (.inr rfl)) ?_⟩
      · rw [← unmark_previous current.id r]
        exact hnone _ (mem_rows_next.2 (.inl ⟨r, hr, rfl⟩))
      · rw [hprevious, heq]
  · refine ⟨fun _ q hq hnames => ?_, fun _ => hlatest⟩
    rcases mem_rows_next.1 hq with ⟨p, hp, rfl⟩ | rfl
    · rw [unmark_previous] at hnames
      obtain ⟨o, ho, hoid⟩ := h.exists_of_previous hp hnames
      exact hnew o ho hoid
    · rw [hprevious] at hnames
      exact hnew current hcurrent (Option.some.inj hnames)

/-- The version after a latest row, which loses its mark, keeps the invariant. -/
theorem addRow_next (h : s.Versioned k) (hcurrent : current ∈ s.rows k)
    (hmarked : current.isLatest = true) (hnew : ∀ r ∈ s.rows k, r.id ≠ row.id) {n : Nat}
    (hn : 1 ≤ n) (hversion : current.version = .integer n) (hnext : row.version = .integer (n + 1))
    (hprevious : row.previous = some current.id) (hlatest : row.isLatest = true) :
    ((s.clearLatest k current.id).addRow row).Versioned k := by
  refine ⟨?_, fun r hr => h.numbered_next hcurrent hn hversion hnext hprevious hr,
    fun a ha b hb heq hne => h.unbranched_next hcurrent hmarked hprevious ha hb heq hne,
    fun r hr => h.isLatest_next_iff hcurrent hnew hprevious hlatest hr, ?_⟩
  · have hids : ((s.clearLatest k current.id).rows k).map (·.id) = (s.rows k).map (·.id) := by
      rw [rows_clearLatest, List.map_map]
      exact List.map_congr_left fun r _ => unmark_id _ r
    refine nodup_ids_addRow (hids ▸ h.nodup_ids) ?_
    intro r hr
    rw [rows_clearLatest] at hr
    obtain ⟨q, hq, rfl⟩ := List.mem_map.1 hr
    rw [unmark_id]
    exact hnew q hq
  · intro r hr
    rw [addRow, unnamed_withRows, clearLatest, unnamed_withRows] at hr
    exact h.unnamed r hr

end

end Versioned

/-- Rows of another kind are left alone by what is added. -/
theorem rows_addListed_of_ne {l : Kind} (hne : l ≠ k) (row : ListedRow k) :
    (s.addListed row).rows l = s.rows l := by
  cases hid : row.id with
  | some id =>
    rw [addListed_of_id_eq_some hid]
    exact rows_withRows_of_ne hne s _
  | none =>
    rw [addListed_of_id_eq_none hid]
    exact rows_addUnnamed s k l _

theorem unnamed_addListed_of_ne {l : Kind} (hne : l ≠ k) (row : ListedRow k) :
    (s.addListed row).unnamed l = s.unnamed l := by
  cases hid : row.id with
  | some id =>
    rw [addListed_of_id_eq_some hid]
    exact unnamed_withRows s k l _
  | none =>
    rw [addListed_of_id_eq_none hid]
    cases k <;> cases l
    · exact absurd rfl hne
    · rfl
    · rfl
    · exact absurd rfl hne

/-- Rows of another kind are left alone by the version after a row. -/
theorem rows_next_of_ne {l : Kind} (hne : l ≠ k) {id : String} (row : Row k) :
    ((s.clearLatest k id).addRow row).rows l = s.rows l := by
  rw [addRow, rows_withRows_of_ne hne, clearLatest, rows_withRows_of_ne hne]

theorem unnamed_next {l : Kind} {id : String} (row : Row k) :
    ((s.clearLatest k id).addRow row).unnamed l = s.unnamed l := by
  rw [addRow, unnamed_withRows, clearLatest, unnamed_withRows]

theorem unnamed_addUnnamed (s : Store) (row : UnnamedRow k) :
    (s.addUnnamed k row).unnamed k = s.unnamed k ++ [row] := by
  cases k <;> rfl

namespace Versioned

theorem addListed_first (h : s.Versioned k) {row : ListedRow k}
    (hnew : row.id.bind (s.row? k) = none) (hversion : row.version = .integer 1)
    (hprevious : row.previous = none) (hlatest : row.isLatest = true) :
    (s.addListed row).Versioned k := by
  cases hid : row.id with
  | some id =>
    rw [addListed_of_id_eq_some hid]
    rw [hid] at hnew
    exact h.addRow_first (row?_eq_none_iff.1 hnew) hversion hprevious hlatest
  | none =>
    rw [addListed_of_id_eq_none hid]
    refine ⟨?_, ?_, ?_, ?_, ?_⟩
    · rw [rows_addUnnamed]
      exact h.nodup_ids
    · rw [rows_addUnnamed]
      exact h.numbered
    · rw [rows_addUnnamed]
      exact h.unbranched
    · rw [rows_addUnnamed]
      exact h.isLatest_iff
    · intro r hr
      rw [unnamed_addUnnamed] at hr
      rcases List.mem_append.1 hr with hr | hr
      · exact h.unnamed r hr
      · rw [List.mem_singleton.1 hr]
        exact ⟨hversion, hprevious, hlatest⟩

/-- A write to the rows of a kind keeps the invariant of both kinds. -/
theorem revised (h : ∀ k, s.Versioned k) (hr : s.Revised k t) (l : Kind) : t.Versioned l := by
  cases hr with
  | kept => exact h l
  | created c stamp row settled new references =>
    by_cases hl : l = k
    · subst hl
      have hversion : row.version = .integer 1 := (Option.some.inj settled.version).symm
      exact (h l).addListed_first new hversion settled.previous settled.isLatest
    · exact (h l).congr (rows_addListed_of_ne hl row) (unnamed_addListed_of_ne hl row)
  | changed current change actor stamp next row latest suits follows settled new references =>
    by_cases hl : l = k
    · subst hl
      obtain ⟨id, hid⟩ := latest
      obtain ⟨hcurrent, hmarked⟩ := latest?_eq_some hid
      have hnumber : ∃ n : Nat, 1 ≤ n ∧ current.version = .integer n := by
        rcases (h l).numbered current hcurrent with ⟨hone, _⟩ | ⟨_, _, _, n, _, _, hn⟩
        · exact ⟨1, Nat.le_refl 1, hone⟩
        · exact ⟨n + 1, by omega, by exact_mod_cast hn⟩
      obtain ⟨n, hn, hversion⟩ := hnumber
      obtain ⟨version, hnext, rfl⟩ := Change.nextVersion_eq_ok_iff.1 follows
      rw [hversion] at hnext
      cases hnext
      refine (h l).addRow_next hcurrent hmarked (row?_eq_none_iff.1 new) hn hversion ?_ ?_ ?_
      · exact (Option.some.inj settled.version).symm
      · exact settled.previous.trans (Json.columnText?_str current.id)
      · exact settled.isLatest
    · exact (h l).congr (rows_next_of_ne hl row) (unnamed_next row)

/-- Every write keeps the invariant of both kinds. -/
theorem written {drafts? : Option (List AclDraft)} (h : ∀ k, s.Versioned k)
    (hw : s.Written drafts? t) (l : Kind) : t.Versioned l := by
  cases hw with
  | aside rows unnamed => exact (h l).congr (rows l) (unnamed l)
  | interned acl handed keeps new =>
    exact (h l).congr (by cases l <;> rfl) (by cases l <;> rfl)
  | revised hr => exact revised h hr l

end Versioned

/-- Rows of both kinds form version chains in every reachable store. -/
theorem Reachable.versioned {s : Store} (h : s.Reachable) (k : Kind) : s.Versioned k :=
  Reachable.induction (P := fun s => ∀ k, s.Versioned k) Versioned.empty
    (fun _ _ _ hs hw => Versioned.written hs hw) h k

end Store

end VersionedGraph
