import VersionedGraph.Proofs.Interning
import VersionedGraph.Proofs.Versioned

/-!
# Histories

Whatever operations come after, what a store has stays (`Store.KeptIn`): rows keep their places and
all their values except that they may lose the mark of the latest, and access lists and groups are
left as they are. A write to the rows of a kind adds at most one row and touches at most one, and
nothing besides (`Store.RevisesOne`), also when it fails on its way.
-/

namespace VersionedGraph

/-- A row is as it was, but may have lost its mark. -/
structure Row.Remains {k : Kind} (r r' : Row k) : Prop where
  same : r' = { r with isLatest := r'.isLatest }
  marked : r'.isLatest = true → r.isLatest = true

namespace Row.Remains

variable {k : Kind} {r r' r'' : Row k}

theorem refl (r : Row k) : Row.Remains r r := ⟨rfl, id⟩

theorem trans (h : Row.Remains r r') (h' : Row.Remains r' r'') : Row.Remains r r'' := by
  refine ⟨?_, fun hmarked => h.marked (h'.marked hmarked)⟩
  rw [h'.same, h.same]

theorem id_eq (h : Row.Remains r r') : r'.id = r.id := by
  rw [h.same]

theorem unmark (id : String) (r : Row k) : Row.Remains r (Store.unmark id r) := by
  unfold Store.unmark
  split
  · exact ⟨rfl, nofun⟩
  · exact refl r

end Row.Remains

namespace Store

/-- What a store has is still there in another one: rows at their places, where no row gets a mark
that it did not have, then access lists under their ids and groups. -/
structure KeptIn (s t : Store) : Prop where
  rows : ∀ (k : Kind) (i : Nat) (r : Row k), (s.rows k)[i]? = some r →
    ∃ r', (t.rows k)[i]? = some r' ∧ Row.Remains r r'
  unnamed : ∀ k, s.unnamed k <+: t.unnamed k
  acls : ∀ id acl, s.acl? id = some acl → t.acl? id = some acl
  groups : s.groups <+: t.groups

/-- One store comes of another by adding at most one row of a kind and touching at most one. Rows of
the other kind, access lists, groups and memberships are the same. -/
structure RevisesOne (s : Store) (k : Kind) (t : Store) : Prop where
  adds : (t.rows k).length + (t.unnamed k).length ≤
    (s.rows k).length + (s.unnamed k).length + 1
  touches : ∀ a ∈ s.rows k, ∀ b ∈ s.rows k, a ∉ t.rows k → b ∉ t.rows k → a = b
  elsewhere : ∀ l ≠ k, t.rows l = s.rows l ∧ t.unnamed l = s.unnamed l
  aside : t.acls = s.acls ∧ t.groups = s.groups ∧ t.memberships = s.memberships

variable {s t u : Store} {k : Kind}

/-- What a write does to the rows of its kind: they stay, all but one row without change, and at
most one row comes after them. -/
theorem Revised.rows_cases (h : s.Revised k t) :
    (∃ new unnamed, new.length + unnamed.length ≤ 1 ∧ t.rows k = s.rows k ++ new ∧
      t.unnamed k = s.unnamed k ++ unnamed) ∨
    ∃ id row, t.rows k = (s.rows k).map (unmark id) ++ [row] ∧ t.unnamed k = s.unnamed k := by
  cases h with
  | kept => exact .inl ⟨[], [], Nat.zero_le 1, by simp, by simp⟩
  | created c stamp row =>
    refine .inl ?_
    cases hid : row.id with
    | some id =>
      rw [addListed_of_id_eq_some hid]
      exact ⟨[row.withId id], [], Nat.le_refl 1, by simp, by simp [addRow]⟩
    | none =>
      rw [addListed_of_id_eq_none hid]
      exact ⟨[], [row.withId ()], Nat.le_refl 1, by simp, unnamed_addUnnamed s _⟩
  | changed current change actor stamp next row =>
    exact .inr ⟨current.id, row, by simp, unnamed_next row⟩

theorem Revised.elsewhere (h : s.Revised k t) {l : Kind} (hne : l ≠ k) :
    t.rows l = s.rows l ∧ t.unnamed l = s.unnamed l := by
  cases h with
  | kept => exact ⟨rfl, rfl⟩
  | created c stamp row => exact ⟨rows_addListed_of_ne hne row, unnamed_addListed_of_ne hne row⟩
  | changed current change actor stamp next row =>
    exact ⟨rows_next_of_ne hne row, unnamed_next row⟩

theorem hasReferences_clearLatest (s : Store) (k : Kind) (id : String) {l : Kind}
    (row : ListedRow l) : (s.clearLatest k id).hasReferences row = s.hasReferences row := by
  have hrow (l : Kind) (x : String) :
      ((s.clearLatest k id).row? l x).isSome = (s.row? l x).isSome := by
    by_cases hl : l = k
    · subst hl
      rw [row?_clearLatest, Option.isSome_map]
    · rw [row?, row?, clearLatest, rows_withRows_of_ne hl]
  have hacl (x : Int) : (s.clearLatest k id).acl? x = s.acl? x := by
    rw [acl?, acl?, clearLatest, acls_withRows]
  simp only [hasReferences, hrow, hacl]

/-- A row after a write is one that was there before it, or one that was proposed and whose
references were looked up. -/
theorem Revised.mem_cases (h : s.Revised k t) {r : Row k} (hr : r ∈ t.rows k) :
    (∃ q ∈ s.rows k, Row.Remains q r) ∨
      ∃ c : Columns k, c.Settled r.listed ∧ s.hasReferences r.listed = true := by
  cases h with
  | kept => exact .inl ⟨r, hr, .refl r⟩
  | created c stamp row settled new references =>
    cases hid : row.id with
    | some id =>
      rw [addListed_of_id_eq_some hid, rows_addRow, List.mem_append, List.mem_singleton] at hr
      rcases hr with hr | rfl
      · exact .inl ⟨r, hr, .refl r⟩
      · have hlisted : (row.withId id : Row k).listed = row := by
          rw [Version.listed, Version.withId_id, ← hid]
          rfl
        exact .inr ⟨c.columns stamp, hlisted ▸ settled, hlisted ▸ references⟩
    | none =>
      rw [addListed_of_id_eq_none hid, rows_addUnnamed] at hr
      exact .inl ⟨r, hr, .refl r⟩
  | changed current change actor stamp next row latest suits follows settled new references =>
    rcases Versioned.mem_rows_next.1 hr with ⟨q, hq, rfl⟩ | rfl
    · exact .inl ⟨q, hq, .unmark current.id q⟩
    · rw [hasReferences_clearLatest] at references
      exact .inr ⟨next, settled, references⟩

theorem Written.mem_cases {drafts? : Option (List AclDraft)} (h : s.Written drafts? t) {r : Row k}
    (hr : r ∈ t.rows k) : (∃ q ∈ s.rows k, Row.Remains q r) ∨
      ∃ c : Columns k, c.Settled r.listed ∧ s.hasReferences r.listed = true := by
  cases h with
  | aside rows => exact .inl ⟨r, rows k ▸ hr, .refl r⟩
  | interned acl => exact .inl ⟨r, by cases k <;> exact hr, .refl r⟩
  | @revised l _ hrevised =>
    by_cases hk : k = l
    · subst hk
      exact hrevised.mem_cases hr
    · exact .inl ⟨r, (hrevised.elsewhere hk).1 ▸ hr, .refl r⟩

theorem Revised.revisesOne (h : s.Revised k t) (hs : s.Versioned k) : s.RevisesOne k t := by
  refine ⟨?_, ?_, fun l hne => h.elsewhere hne, h.same_aside⟩
  · rcases h.rows_cases with ⟨new, unnamed, hle, hrows, hunnamed⟩ | ⟨id, row, hrows, hunnamed⟩
    · rw [hrows, hunnamed, List.length_append, List.length_append]
      omega
    · rw [hrows, hunnamed, List.length_append, List.length_map, List.length_singleton]
      omega
  · rcases h.rows_cases with ⟨new, _, _, hrows, _⟩ | ⟨id, row, hrows, _⟩
    · intro a ha _ _ hgone
      rw [hrows] at hgone
      exact absurd (List.mem_append_left new ha) hgone
    · -- Only the row that loses its mark is not there any more.
      have hid {r : Row k} (hr : r ∈ s.rows k) (hgone : r ∉ t.rows k) : r.id = id := by
        by_contra hne
        refine hgone ?_
        rw [hrows]
        exact List.mem_append_left _ (List.mem_map.2 ⟨r, hr, if_neg hne⟩)
      intro a ha b hb hagone hbgone
      exact hs.eq_of_id_eq ha hb ((hid ha hagone).trans (hid hb hbgone).symm)

namespace KeptIn

theorem refl (s : Store) : s.KeptIn s where
  rows _ _ r hr := ⟨r, hr, .refl r⟩
  unnamed _ := List.prefix_refl _
  acls _ _ h := h
  groups := List.prefix_refl _

theorem trans (h : s.KeptIn t) (h' : t.KeptIn u) : s.KeptIn u where
  rows k i r hr := by
    obtain ⟨r', hr', hremains⟩ := h.rows k i r hr
    obtain ⟨r'', hr'', hremains'⟩ := h'.rows k i r' hr'
    exact ⟨r'', hr'', hremains.trans hremains'⟩
  unnamed k := (h.unnamed k).trans (h'.unnamed k)
  acls id acl hacl := h'.acls id acl (h.acls id acl hacl)
  groups := h.groups.trans h'.groups

/-- Rows that are mapped to what remains of them and followed by others stay at their places. -/
theorem rows_of_eq_map {f : Row k → Row k} {new : List (Row k)} (hf : ∀ r, Row.Remains r (f r))
    (h : t.rows k = (s.rows k).map f ++ new) {i : Nat} {r : Row k} (hr : (s.rows k)[i]? = some r) :
    ∃ r', (t.rows k)[i]? = some r' ∧ Row.Remains r r' := by
  obtain ⟨hlt, _⟩ := List.getElem?_eq_some_iff.1 hr
  refine ⟨f r, ?_, hf r⟩
  rw [h, List.getElem?_append_left (by simpa using hlt), List.getElem?_map, hr, Option.map_some]

theorem rows_of_revised (h : s.Revised k t) {l : Kind} {i : Nat} {r : Row l}
    (hr : (s.rows l)[i]? = some r) : ∃ r', (t.rows l)[i]? = some r' ∧ Row.Remains r r' := by
  by_cases hl : l = k
  · subst hl
    rcases h.rows_cases with ⟨new, _, _, hrows, _⟩ | ⟨id, row, hrows, _⟩
    · exact rows_of_eq_map (f := id) .refl (by rw [hrows, List.map_id]) hr
    · exact rows_of_eq_map (.unmark id) hrows hr
  · exact ⟨r, by rw [(h.elsewhere hl).1, hr], .refl r⟩

theorem unnamed_of_revised (h : s.Revised k t) (l : Kind) : s.unnamed l <+: t.unnamed l := by
  by_cases hl : l = k
  · subst hl
    rcases h.rows_cases with ⟨_, unnamed, _, _, hunnamed⟩ | ⟨_, _, _, hunnamed⟩
    · exact ⟨unnamed, hunnamed.symm⟩
    · exact hunnamed ▸ List.prefix_refl _
  · exact (h.elsewhere hl).2 ▸ List.prefix_refl _

/-- Every write keeps what is there. -/
theorem of_written {drafts? : Option (List AclDraft)} (h : s.Written drafts? t) : s.KeptIn t := by
  have hacls (id : Int) (acl : AccessList) (hacl : s.acl? id = some acl) : t.acl? id = some acl :=
    acl?_of_grown h.acls_grow hacl
  cases h with
  | aside rows unnamed acls groups =>
    exact ⟨fun k i r hr => ⟨r, by rw [rows k, hr], .refl r⟩,
      fun k => unnamed k ▸ List.prefix_refl _, hacls, groups⟩
  | interned acl =>
    exact ⟨fun k i r hr => ⟨r, by cases k <;> exact hr, .refl r⟩,
      fun k => by cases k <;> exact List.prefix_refl _, hacls, List.prefix_refl _⟩
  | revised hr =>
    exact ⟨fun k i r => rows_of_revised hr, unnamed_of_revised hr, hacls,
      hr.same_aside.2.1 ▸ List.prefix_refl _⟩

/-- What a store has is still there after any operations. -/
theorem after (s : Store) (log : List (Operation × Stamp)) : s.KeptIn (s.after log) := by
  induction log generalizing s with
  | nil => exact refl s
  | cons entry rest ih =>
    exact (of_written (entry.1.written_apply s entry.2)).trans (ih (entry.1.apply s entry.2))

end KeptIn

/-- At any point of a run all that there is stays through the rest of it, and the next operation, if
it is on entities or links, adds at most one row of that kind and touches at most one, whether it
succeeds or fails. -/
theorem Reachable.history_is_kept (h : s.Reachable) (log : List (Operation × Stamp)) :
    s.KeptIn (s.after log) ∧
      ∀ (o : Operation) (k : Kind), o.kind? = some k → ∀ stamp, s.RevisesOne k (o.apply s stamp) :=
  ⟨.after s log, fun _ k hk stamp =>
    (Operation.revised_apply hk s stamp).revisesOne (h.versioned k)⟩

/-- There are two notes when one is updated through its first id three times. The first time fails,
since the new version would have the id of the other note. -/
theorem history_of_stale_updates :
    let update : Operation := .update .entity (.str "a") (.obj []) .null
    let log : List (Operation × Stamp) :=
      [(.create (k := .entity) { typeId := .str "note", ends := () }, ⟨"a", 1⟩),
        (.create (k := .entity) { typeId := .str "note", ends := () }, ⟨"b", 2⟩)]
    let s := empty.after log
    let t := s.after [(update, ⟨"b", 3⟩), (update, ⟨"c", 4⟩), (update, ⟨"d", 5⟩)]
    update.apply s ⟨"b", 3⟩ = s ∧ s.KeptIn t ∧ s.RevisesOne .entity (update.apply s ⟨"b", 3⟩) ∧
      (t.rows .entity).map (fun r => (r.id, r.isLatest)) =
        [("a", false), ("b", true), ("c", false), ("d", true)] := by
  intro update log s t
  have hfails : update.apply s ⟨"b", 3⟩ = s := by decide +kernel
  obtain ⟨hkept, hone⟩ := Reachable.history_is_kept ⟨log, rfl⟩
    [(update, ⟨"b", 3⟩), (update, ⟨"c", 4⟩), (update, ⟨"d", 5⟩)]
  exact ⟨hfails, hkept, hone update .entity rfl ⟨"b", 3⟩, by decide +kernel⟩

end Store

end VersionedGraph
