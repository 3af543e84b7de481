import Mathlib
import VersionedGraph.Proofs.Line

/-!
# Resolving ids

An id is resolved by going forward to a latest row, and the chain of an id is what lies behind the
row so found. In a reachable store every version of a chain resolves to the one latest row of it,
and all of them have the chain itself listed, which is a line.

None of this hangs on the rows being sound. As long as no two rows have one id, rows may name
themselves, each other in a circle or rows that are missing, several may come after one row, and any
number of them may be marked: both walks come to their end, a latest row is found if there is one
ahead, and exactly the rows behind it are listed.
-/

namespace VersionedGraph

namespace Store

variable {s : Store} {k : Kind} {id : String}

theorem latest?_eq_none_iff_of_nodup (hids : ((s.rows k).map (·.id)).Nodup) :
    s.latest? k id = none ↔ ¬∃ r ∈ s.rows k, r.isLatest = true ∧
      (∃ p ∈ s.rows k, p.id = id) ∧ Relation.ReflTransGen (s.Precedes k) id r.id := by
  constructor
  · rintro hnone ⟨r, hr, hlatest, hid, hway⟩
    obtain ⟨q, hq⟩ := exists_latest?_of_forward hids hr hlatest hid hway
    rw [hnone] at hq
    cases hq
  · intro hnone
    rw [Option.eq_none_iff_forall_ne_some]
    intro r hr
    obtain ⟨hmem, hlatest⟩ := latest?_eq_some hr
    exact hnone ⟨r, hmem, hlatest, forward_of_latest? hr⟩

theorem chain_of_latest?_eq_none (h : s.latest? k id = none) : s.chain k id = [] := by
  unfold chain
  rw [h]

/-- What is listed depends on the latest row only. -/
theorem chain_congr {id' : String} (h : s.latest? k id = s.latest? k id') :
    s.chain k id = s.chain k id' := by
  unfold chain
  rw [h]

theorem nodup_chain : (s.chain k id).Nodup := by
  unfold chain
  split
  · exact List.nodup_nil
  · rw [(List.mergeSort_perm _ _).nodup_iff]
    refine List.Nodup.filterMap ?_ nodup_closure
    intro x y q hx hy
    rw [← id_of_row? hx, ← id_of_row? hy]

theorem pairwise_chain :
    (s.chain k id).Pairwise fun a b => a.version.precedes b.version = true := by
  unfold chain
  split
  · exact .nil
  · refine List.pairwise_mergeSort ?_ ?_ _
    · exact fun _ _ _ => Cell.precedes_trans
    · exact fun _ _ => Cell.precedes_total _ _

/-! No bound that is as large as the number of rows cuts a walk off. -/

theorem forwardIds_eq_of_le {bound : Nat} (h : (s.rows k).length ≤ bound) :
    closure (s.successorIds k) bound ((s.row? k id).map (·.id)).toList = s.forwardIds k id := by
  rw [← List.length_map (·.id)] at h
  have hworld : ∀ a ∈ (s.rows k).map (·.id), ∀ b,
      Closure.LeadsTo (s.successorIds k) a b → b ∈ (s.rows k).map (·.id) :=
    fun _ _ _ hab => mem_ids_of_leadsTo_successorIds hab
  rw [closure_eq_of_le _ startIds_subset hworld h, List.length_map]
  rfl

theorem backwardIds_eq_of_le {bound : Nat} (h : (s.rows k).length ≤ bound) :
    closure (s.predecessorIds k) bound ((s.row? k id).map (·.id)).toList = s.backwardIds k id := by
  rw [← List.length_map (·.id)] at h
  have hworld : ∀ a ∈ (s.rows k).map (·.id), ∀ b,
      Closure.LeadsTo (s.predecessorIds k) a b → b ∈ (s.rows k).map (·.id) :=
    fun _ _ _ hab => mem_ids_of_leadsTo_predecessorIds hab
  rw [closure_eq_of_le _ startIds_subset hworld h, List.length_map]
  rfl

/-- Whatever the rows of a kind are like, as long as no two of them have one id, both walks come to
their end by themselves. An id has no latest row exactly if no way leads forward from an existing
row of that id to a row that is marked; what is found otherwise is such a row, and the chain lists
exactly the rows from which a way leads forward to it, each once, in the order of their versions. -/
theorem resolution_on_any_rows (hids : ((s.rows k).map (·.id)).Nodup) (id : String) :
    (∀ bound, (s.rows k).length ≤ bound → ∀ start : String,
      closure (s.successorIds k) bound ((s.row? k start).map (·.id)).toList =
        s.forwardIds k start ∧
      closure (s.predecessorIds k) bound ((s.row? k start).map (·.id)).toList =
        s.backwardIds k start) ∧
    (s.latest? k id = none ↔ ¬∃ r ∈ s.rows k, r.isLatest = true ∧
      (∃ p ∈ s.rows k, p.id = id) ∧ Relation.ReflTransGen (s.Precedes k) id r.id) ∧
    (s.latest? k id = none → s.chain k id = []) ∧
    ∀ r, s.latest? k id = some r →
      (r ∈ s.rows k ∧ r.isLatest = true ∧ (∃ p ∈ s.rows k, p.id = id) ∧
        Relation.ReflTransGen (s.Precedes k) id r.id) ∧
      (∀ q, q ∈ s.chain k id ↔
        q ∈ s.rows k ∧ Relation.ReflTransGen (s.Precedes k) q.id r.id) ∧
      (s.chain k id).Nodup ∧
      (s.chain k id).Pairwise fun a b => a.version.precedes b.version = true := by
  refine ⟨fun bound hbound start => ⟨forwardIds_eq_of_le hbound, backwardIds_eq_of_le hbound⟩,
    latest?_eq_none_iff_of_nodup hids, chain_of_latest?_eq_none, fun r hr => ?_⟩
  obtain ⟨hmem, hlatest⟩ := latest?_eq_some hr
  exact ⟨⟨hmem, hlatest, forward_of_latest? hr⟩, fun _ => mem_chain_iff_of_nodup hids hr,
    nodup_chain, pairwise_chain⟩

/-- Notes that were tampered with: the first two name each other, the third and the fourth both come
after the first and are both marked, the last names itself and is not. -/
def tangledNotes : Store where
  entities :=
    [⟨"a", "note", (), "\x7b\x7d", .integer 2, some "b", .integer 1, none, false, false, none⟩,
      ⟨"b", "note", (), "\x7b\x7d", .integer 1, some "a", .integer 1, none, false, false, none⟩,
      ⟨"c", "note", (), "\x7b\x7d", .integer 3, some "a", .integer 1, none, false, true, none⟩,
      ⟨"d", "note", (), "\x7b\x7d", .integer 0, some "a", .integer 1, none, false, true, none⟩,
      ⟨"e", "note", (), "\x7b\x7d", .integer 1, some "e", .integer 1, none, false, false, none⟩]

/-- From a note in the circle one of the two marked ones is found, and both notes of the circle are
behind it; from the note that names itself none is found. -/
theorem resolution_of_tangled_notes :
    (tangledNotes.chain .entity "b").map (·.id) = ["b", "a", "c"] ∧
      (∃ r, tangledNotes.latest? .entity "b" = some r ∧
        Relation.ReflTransGen (tangledNotes.Precedes .entity) "a" r.id) ∧
      ¬∃ r ∈ tangledNotes.rows .entity, r.isLatest = true ∧
        (∃ p ∈ tangledNotes.rows .entity, p.id = "e") ∧
          Relation.ReflTransGen (tangledNotes.Precedes .entity) "e" r.id := by
  have hids : ((tangledNotes.rows .entity).map (·.id)).Nodup := by decide +kernel
  have hchain : (tangledNotes.chain .entity "b").map (·.id) = ["b", "a", "c"] := by cbv
  refine ⟨hchain, ?_, ?_⟩
  · have hfound : (tangledNotes.latest? .entity "b").isSome = true := by decide +kernel
    obtain ⟨r, hr⟩ := Option.isSome_iff_exists.1 hfound
    have hmem : "a" ∈ (tangledNotes.chain .entity "b").map (·.id) := by
      rw [hchain]
      decide
    obtain ⟨q, hq, hqid⟩ := List.mem_map.1 hmem
    obtain ⟨_, hlisted, _⟩ := (resolution_on_any_rows hids "b").2.2.2 r hr
    rw [← hqid]
    exact ⟨r, hr, ((hlisted q).1 hq).2⟩
  · exact (resolution_on_any_rows hids "e").2.1.1 (by decide +kernel)

/-! Under the version invariant. -/

namespace Versioned

theorem latest?_eq_none_iff (h : s.Versioned k) :
    s.latest? k id = none ↔ ∀ r ∈ s.rows k, r.id ≠ id := by
  rw [latest?_eq_none_iff_of_nodup h.nodup_ids]
  constructor
  · rintro hnone r hr rfl
    obtain ⟨q, hq, hlatest, hway⟩ := h.exists_latest hr
    exact hnone ⟨q, hq, hlatest, ⟨r, hr, rfl⟩, hway⟩
  · rintro hnone ⟨_, _, _, ⟨p, hp, hid⟩, _⟩
    exact hnone p hp hid

theorem latest?_congr (h : s.Versioned k) {id' : String} (hchain : s.SameChain k id id') :
    s.latest? k id = s.latest? k id' := by
  refine Option.ext fun r => ?_
  rw [h.latest?_eq_some_iff, h.latest?_eq_some_iff]
  refine and_congr_right fun _ => and_congr_right fun _ => ?_
  exact ⟨fun hr => .trans _ _ _ hchain.symm hr, fun hr => .trans _ _ _ hchain hr⟩

/-- A chain ends with its latest row. -/
theorem getLast?_chain (h : s.Versioned k) {r : Row k} (hr : r ∈ s.rows k) :
    (s.chain k r.id).getLast? = s.latest? k r.id := by
  obtain ⟨_, hlatest⟩ := h.line_chain hr
  have hself : r ∈ s.chain k r.id := h.mem_chain_iff.2 ⟨hr, .refl _⟩
  have hpos : 0 < (s.chain k r.id).length := List.length_pos_of_mem hself
  have hlast := List.getElem?_eq_getElem (Nat.sub_lt hpos Nat.one_pos)
  obtain ⟨hmem, hchain⟩ := h.mem_chain_iff.1 (List.mem_of_getElem? hlast)
  rw [List.getLast?_eq_getElem?, hlast]
  refine (h.latest?_eq_some_iff.2 ⟨hmem, ?_, hchain⟩).symm
  exact (hlatest _ _ hlast).2 (by omega)

end Versioned

/-- In every reachable store an id has no latest row exactly if no row has that id, and there is no
chain to list then. Otherwise what is found is the only latest row of the chain of that id. The
chain that is listed is the same for all its members; it has all rows of the chain and no others, it
is a line, so that the versions count up from one, and it ends with the latest row. -/
theorem Reachable.every_version_resolves (h : s.Reachable) (k : Kind) (id : String) :
    (s.latest? k id = none ↔ ∀ r ∈ s.rows k, r.id ≠ id) ∧
    ((∀ r ∈ s.rows k, r.id ≠ id) → s.chain k id = []) ∧
    ((∃ r ∈ s.rows k, r.id = id) →
      (∃ l, s.latest? k id = some l ∧
        ∀ q, q = l ↔ q ∈ s.rows k ∧ q.isLatest = true ∧ s.SameChain k id q.id) ∧
      (∀ q, q ∈ s.chain k id ↔ q ∈ s.rows k ∧ s.SameChain k id q.id) ∧
      (∀ q ∈ s.chain k id, s.chain k q.id = s.chain k id) ∧
      Line (s.chain k id) ∧
      (s.chain k id).getLast? = s.latest? k id) := by
  have hv := h.versioned k
  refine ⟨hv.latest?_eq_none_iff,
    fun hnone => chain_of_latest?_eq_none (hv.latest?_eq_none_iff.2 hnone), ?_⟩
  rintro ⟨r, hr, rfl⟩
  refine ⟨?_, fun _ => hv.mem_chain_iff, fun q hq => ?_, (hv.line_chain hr).1,
    hv.getLast?_chain hr⟩
  · obtain ⟨l, hl, hlatest, hway⟩ := hv.exists_latest hr
    have hfound := hv.latest?_eq_some_iff.2 ⟨hl, hlatest, sameChain_of_reflTransGen hway⟩
    refine ⟨l, hfound, fun q => ?_⟩
    rw [← hv.latest?_eq_some_iff, hfound, Option.some_inj, eq_comm]
  · exact chain_congr (hv.latest?_congr (hv.mem_chain_iff.1 hq).2.symm)

/-- A note is created, replaced and deleted: its first and its second version have the same chain,
which ends with the deleted version. -/
theorem versions_of_deleted_note_resolve :
    let log : List (Operation × Stamp) :=
      [(.create (k := .entity) { typeId := .str "note", ends := () }, ⟨"a", 1⟩),
        (.update .entity (.str "a") (.obj []) .null, ⟨"b", 2⟩),
        (.delete .entity (.str "a") .null, ⟨"c", 3⟩)]
    let s := empty.after log
    s.chain .entity "b" = s.chain .entity "a" ∧
      (s.chain .entity "a").getLast?.map (fun r => (r.id, r.isDeleted)) = some ("c", true) := by
  intro log s
  have hfirst : ∃ r ∈ s.rows .entity, r.id = "a" := by decide +kernel
  have hsecond : ∃ r ∈ s.rows .entity, r.id = "b" ∧ r.previous = some "a" := by decide +kernel
  have hfound : (s.latest? .entity "a").map (fun r => (r.id, r.isDeleted)) = some ("c", true) := by
    decide +kernel
  obtain ⟨_, hlisted, hshared, _, hlast⟩ :=
    (Reachable.every_version_resolves ⟨log, rfl⟩ .entity "a").2.2 hfirst
  obtain ⟨q, hq, hqid, hprevious⟩ := hsecond
  have hmem : q ∈ s.chain .entity "a" :=
    (hlisted q).2 ⟨hq, .rel _ _ ⟨q, hq, rfl, hprevious⟩⟩
  refine ⟨?_, ?_⟩
  · rw [← hqid]
    exact hshared q hmem
  · rw [hlast]
    exact hfound

end Store

end VersionedGraph
