import Mathlib.Algebra.Order.BigOperators.Group.List
import Mathlib.Algebra.Order.Ring.Nat
import Mathlib.Logic.Relation
import VersionedGraph.Proofs.Closure
import VersionedGraph.Proofs.Order
import VersionedGraph.Proofs.Versioned

/-!
# Chains as lines

Two ids name versions of one chain when a way leads from one to the other along rows and the rows
right before them, in whatever direction (`Store.SameChain`). Under the version invariant the
latest row of a chain is found from any of its ids, it is the only latest one, and the chain as it
is listed is a line: all its rows, numbered from one on, each naming the row before it, the last
one latest.
-/

namespace VersionedGraph

namespace Store

/-- An id names the row right before that of another id. -/
def Precedes (s : Store) (k : Kind) (a b : String) : Prop :=
  ∃ r ∈ s.rows k, r.id = b ∧ r.previous = some a

/-- Two ids name versions of one chain. -/
def SameChain (s : Store) (k : Kind) : String → String → Prop :=
  Relation.EqvGen (s.Precedes k)

variable {s : Store} {k : Kind} {id : String}

theorem leadsTo_successorIds_iff {a b : String} :
    Closure.LeadsTo (s.successorIds k) a b ↔ s.Precedes k a b := by
  unfold Closure.LeadsTo successorIds Precedes
  simp only [List.mem_map, List.mem_filter, decide_eq_true_eq]
  constructor
  · rintro ⟨r, ⟨hr, hprevious⟩, hid⟩
    exact ⟨r, hr, hid, hprevious⟩
  · rintro ⟨r, hr, hid, hprevious⟩
    exact ⟨r, ⟨hr, hprevious⟩, hid⟩

theorem mem_startIds_iff {x : String} :
    x ∈ ((s.row? k id).map (·.id)).toList ↔ x = id ∧ ∃ r ∈ s.rows k, r.id = id := by
  cases hrow : s.row? k id with
  | none =>
    simp only [Option.map_none, Option.toList_none, List.not_mem_nil, false_iff]
    rintro ⟨_, r, hr, hid⟩
    exact row?_eq_none_iff.1 hrow r hr hid
  | some r =>
    have hr := mem_rows_of_row? hrow
    have hid := id_of_row? hrow
    simp only [Option.map_some, Option.toList_some, List.mem_singleton, hid]
    exact ⟨fun hx => ⟨hx, r, hr, hid⟩, fun hx => hx.1⟩

/-! No walk leaves the ids that there are. -/

theorem startIds_subset : ((s.row? k id).map (·.id)).toList ⊆ (s.rows k).map (·.id) := by
  intro x hx
  obtain ⟨rfl, r, hr, hid⟩ := mem_startIds_iff.1 hx
  exact List.mem_map.2 ⟨r, hr, hid⟩

theorem mem_ids_of_leadsTo_successorIds {a b : String}
    (h : Closure.LeadsTo (s.successorIds k) a b) : b ∈ (s.rows k).map (·.id) := by
  obtain ⟨r, hr, hid, _⟩ := leadsTo_successorIds_iff.1 h
  exact List.mem_map.2 ⟨r, hr, hid⟩

theorem mem_ids_of_leadsTo_predecessorIds {a b : String}
    (h : Closure.LeadsTo (s.predecessorIds k) a b) : b ∈ (s.rows k).map (·.id) := by
  obtain ⟨p, hp⟩ := Option.isSome_iff_exists.1 (List.mem_filter.1 h).2
  exact List.mem_map.2 ⟨p, mem_rows_of_row? hp, id_of_row? hp⟩

/-- Going forward from an id finds the ids of all later versions, whatever the rows are like. -/
theorem mem_forwardIds_iff {x : String} :
    x ∈ s.forwardIds k id ↔
      (∃ r ∈ s.rows k, r.id = id) ∧ Relation.ReflTransGen (s.Precedes k) id x := by
  have hrel : Closure.LeadsTo (s.successorIds k) = s.Precedes k := by
    funext a b
    exact propext leadsTo_successorIds_iff
  unfold forwardIds
  rw [mem_closure_iff ((s.rows k).map (·.id)) startIds_subset
    (fun _ _ _ hab => mem_ids_of_leadsTo_successorIds hab) (by rw [List.length_map]), hrel]
  constructor
  · rintro ⟨a, ha, hax⟩
    obtain ⟨rfl, hrow⟩ := mem_startIds_iff.1 ha
    exact ⟨hrow, hax⟩
  · rintro ⟨hrow, hx⟩
    exact ⟨id, mem_startIds_iff.2 ⟨rfl, hrow⟩, hx⟩

/-- The latest row found from an id comes after an existing row of that id, forward. -/
theorem forward_of_latest? {r : Row k} (h : s.latest? k id = some r) :
    (∃ p ∈ s.rows k, p.id = id) ∧ Relation.ReflTransGen (s.Precedes k) id r.id := by
  unfold latest? at h
  split at h
  · next row hrow =>
    cases h
    have hself := (Option.filter_eq_some_iff.1 hrow).1
    rw [id_of_row? hself]
    exact ⟨⟨r, mem_rows_of_row? hself, id_of_row? hself⟩, .refl⟩
  · obtain ⟨x, hx, hrow⟩ := List.mem_filterMap.1 (List.mem_of_find?_eq_some h)
    rw [id_of_row? hrow]
    exact mem_forwardIds_iff.1 hx

/-! Rows of which no two have one id. -/

section

variable (hids : ((s.rows k).map (·.id)).Nodup)
include hids

theorem leadsTo_predecessorIds_iff_of_nodup {a b : String} :
    Closure.LeadsTo (s.predecessorIds k) a b ↔
      s.Precedes k b a ∧ ∃ p ∈ s.rows k, p.id = b := by
  unfold Closure.LeadsTo predecessorIds Precedes
  rw [List.mem_filter, Option.mem_toList, Option.bind_eq_some_iff, Option.isSome_iff_exists]
  constructor
  · rintro ⟨⟨r, hrow, hprevious⟩, p, hp⟩
    exact ⟨⟨r, mem_rows_of_row? hrow, id_of_row? hrow, hprevious⟩,
      p, mem_rows_of_row? hp, id_of_row? hp⟩
  · rintro ⟨⟨r, hr, hid, hprevious⟩, p, hp⟩
    exact ⟨⟨r, (row?_eq_some_iff_of_nodup hids).2 ⟨hr, hid⟩, hprevious⟩,
      p, (row?_eq_some_iff_of_nodup hids).2 hp⟩

/-- The ids on the way back are those of rows from which a way leads forward. -/
theorem reflTransGen_predecessorIds_iff {x : String} (hid : ∃ r ∈ s.rows k, r.id = id) :
    Relation.ReflTransGen (Closure.LeadsTo (s.predecessorIds k)) id x ↔
      (∃ r ∈ s.rows k, r.id = x) ∧ Relation.ReflTransGen (s.Precedes k) x id := by
  constructor
  · intro hway
    induction hway with
    | refl => exact ⟨hid, .refl⟩
    | tail _ hstep ih =>
      obtain ⟨hprecedes, hrow⟩ := (leadsTo_predecessorIds_iff_of_nodup hids).1 hstep
      exact ⟨hrow, .head hprecedes ih.2⟩
  · rintro ⟨hrow, hway⟩
    induction hway using Relation.ReflTransGen.head_induction_on with
    | refl => exact .refl
    | head hprecedes _ ih =>
      have ⟨r, hr, hrid, _⟩ := hprecedes
      exact (ih ⟨r, hr, hrid⟩).tail
        ((leadsTo_predecessorIds_iff_of_nodup hids).2 ⟨hprecedes, hrow⟩)

/-- Going back from an id finds the ids of all rows from which a way leads forward to it. -/
theorem mem_backwardIds_iff_of_nodup {x : String} :
    x ∈ s.backwardIds k id ↔ (∃ r ∈ s.rows k, r.id = id) ∧
      (∃ r ∈ s.rows k, r.id = x) ∧ Relation.ReflTransGen (s.Precedes k) x id := by
  unfold backwardIds
  rw [mem_closure_iff ((s.rows k).map (·.id)) startIds_subset
    (fun _ _ _ hab => mem_ids_of_leadsTo_predecessorIds hab) (by rw [List.length_map])]
  constructor
  · rintro ⟨a, ha, hax⟩
    obtain ⟨rfl, hrow⟩ := mem_startIds_iff.1 ha
    exact ⟨hrow, (reflTransGen_predecessorIds_iff hids hrow).1 hax⟩
  · rintro ⟨hrow, hx⟩
    exact ⟨id, mem_startIds_iff.2 ⟨rfl, hrow⟩, (reflTransGen_predecessorIds_iff hids hrow).2 hx⟩

/-- Some latest row is found from an id from which a way leads forward to one. -/
theorem exists_latest?_of_forward {r : Row k} (hr : r ∈ s.rows k) (hlatest : r.isLatest = true)
    (hid : ∃ p ∈ s.rows k, p.id = id) (hway : Relation.ReflTransGen (s.Precedes k) id r.id) :
    ∃ q, s.latest? k id = some q := by
  unfold latest?
  split
  · next row _ => exact ⟨row, rfl⟩
  · rw [← Option.isSome_iff_exists, List.find?_isSome]
    have hrow := (row?_eq_some_iff_of_nodup hids).2 ⟨hr, rfl⟩
    exact ⟨r, List.mem_filterMap.2 ⟨r.id, mem_forwardIds_iff.2 ⟨hid, hway⟩, hrow⟩, hlatest⟩

/-- A chain lists the rows from which a way leads forward to the latest row that was found. -/
theorem mem_chain_iff_of_nodup {q r : Row k} (hr : s.latest? k id = some r) :
    q ∈ s.chain k id ↔ q ∈ s.rows k ∧ Relation.ReflTransGen (s.Precedes k) q.id r.id := by
  unfold chain
  rw [hr]
  change q ∈ ((s.backwardIds k r.id).filterMap (s.row? k)).mergeSort _ ↔ _
  rw [(List.mergeSort_perm _ _).mem_iff, List.mem_filterMap]
  constructor
  · rintro ⟨x, hx, hrow⟩
    obtain ⟨hq, rfl⟩ := (row?_eq_some_iff_of_nodup hids).1 hrow
    exact ⟨hq, ((mem_backwardIds_iff_of_nodup hids).1 hx).2.2⟩
  · rintro ⟨hq, hway⟩
    have hback := (mem_backwardIds_iff_of_nodup hids).2
      ⟨⟨r, (latest?_eq_some hr).1, rfl⟩, ⟨q, hq, rfl⟩, hway⟩
    exact ⟨q.id, hback, (row?_eq_some_iff_of_nodup hids).2 ⟨hq, rfl⟩⟩

end

theorem sameChain_of_reflTransGen {a b : String}
    (h : Relation.ReflTransGen (s.Precedes k) a b) : s.SameChain k a b := by
  induction h with
  | refl => exact .refl _
  | tail _ hbc ih => exact .trans _ _ _ ih (.rel _ _ hbc)

namespace Versioned

theorem exists_of_forward (h : s.Versioned k) {r : Row k} (hr : r ∈ s.rows k)
    (hway : Relation.ReflTransGen (s.Precedes k) id r.id) : ∃ p ∈ s.rows k, p.id = id := by
  rcases Relation.ReflTransGen.cases_head hway with rfl | ⟨x, ⟨q, hq, _, hprevious⟩, _⟩
  · exact ⟨r, hr, rfl⟩
  · exact h.exists_of_previous hq hprevious

/-- Going back from an id finds the ids of all earlier versions. -/
theorem mem_backwardIds_iff (h : s.Versioned k) {x : String} :
    x ∈ s.backwardIds k id ↔
      (∃ r ∈ s.rows k, r.id = id) ∧ Relation.ReflTransGen (s.Precedes k) x id := by
  rw [mem_backwardIds_iff_of_nodup h.nodup_ids]
  refine and_congr_right fun ⟨r, hr, hid⟩ => and_iff_right_of_imp fun hway => ?_
  subst hid
  exact h.exists_of_forward hr hway

theorem eq_of_precedes (h : s.Versioned k) {a b c : String} (hb : s.Precedes k a b)
    (hc : s.Precedes k a c) : b = c := by
  obtain ⟨q, hq, rfl, hqprevious⟩ := hb
  obtain ⟨r, hr, rfl, hrprevious⟩ := hc
  have heq : q = r := by
    refine h.unbranched q hq r hr ?_ ?_
    · rw [hqprevious, hrprevious]
    · rw [hqprevious]
      exact Option.some_ne_none a
  rw [heq]

theorem not_precedes_of_isLatest (h : s.Versioned k) {r : Row k} (hr : r ∈ s.rows k)
    (hlatest : r.isLatest = true) (x : String) : ¬s.Precedes k r.id x := by
  rintro ⟨q, hq, _, hprevious⟩
  exact (h.isLatest_iff r hr).1 hlatest q hq hprevious

/-- From a version of the chain of a latest row the way to that row is forward. -/
theorem reflTransGen_of_sameChain (h : s.Versioned k) {r : Row k} (hr : r ∈ s.rows k)
    (hlatest : r.isLatest = true) {x : String} (hx : s.SameChain k x r.id) :
    Relation.ReflTransGen (s.Precedes k) x r.id := by
  -- Being on a forward way to `r` is shared by an id and the one right after it.
  have hstep (a b : String) (hab : s.Precedes k a b) :
      Relation.ReflTransGen (s.Precedes k) a r.id ↔
        Relation.ReflTransGen (s.Precedes k) b r.id := by
    constructor
    · intro ha
      rcases Relation.ReflTransGen.cases_head ha with rfl | ⟨c, hac, hc⟩
      · exact absurd hab (h.not_precedes_of_isLatest hr hlatest b)
      · rw [h.eq_of_precedes hab hac]
        exact hc
    · exact .head hab
  have hshared (a b : String) (hab : s.SameChain k a b) :
      Relation.ReflTransGen (s.Precedes k) a r.id ↔
        Relation.ReflTransGen (s.Precedes k) b r.id := by
    induction hab with
    | rel a b hab => exact hstep a b hab
    | refl a => exact Iff.rfl
    | symm a b _ ih => exact ih.symm
    | trans a b c _ _ ihab ihbc => exact ihab.trans ihbc
  exact (hshared x r.id hx).2 .refl

theorem exists_number (h : s.Versioned k) {r : Row k} (hr : r ∈ s.rows k) :
    ∃ n : Nat, r.version = .integer (n + 1) := by
  rcases h.numbered r hr with ⟨hone, _⟩ | ⟨_, _, _, n, _, _, hn⟩
  · exact ⟨0, by simpa using hone⟩
  · exact ⟨n, hn⟩

/-- From every row a way leads forward to a latest one, for there are only so many numbers. -/
theorem exists_latest (h : s.Versioned k) {r : Row k} (hr : r ∈ s.rows k) :
    ∃ q ∈ s.rows k, q.isLatest = true ∧ Relation.ReflTransGen (s.Precedes k) r.id q.id := by
  let number (r : Row k) : Nat := (r.version.integer?.getD 0).toNat
  have hbound (q : Row k) (hq : q ∈ s.rows k) : number q ≤ ((s.rows k).map number).sum :=
    List.le_sum_of_mem (List.mem_map_of_mem hq)
  induction hgap : ((s.rows k).map number).sum - number r using Nat.strongRecOn generalizing r with
  | ind gap ih =>
    by_cases hlatest : r.isLatest = true
    · exact ⟨r, hr, hlatest, .refl⟩
    · rw [h.isLatest_iff r hr] at hlatest
      push Not at hlatest
      obtain ⟨q, hq, hprevious⟩ := hlatest
      have hnumbers : number q = number r + 1 := by
        rcases h.numbered q hq with ⟨_, hnone⟩ | ⟨p, hp, hsome, n, _, hpn, hqn⟩
        · rw [hnone] at hprevious
          cases hprevious
        · rw [hsome] at hprevious
          rw [← h.eq_of_id_eq hp hr (Option.some.inj hprevious)]
          simp only [number, hpn, hqn, Cell.integer?, Option.getD_some]
          omega
      have hle := hbound q hq
      obtain ⟨l, hl, hmarked, hway⟩ := ih _ (by omega) hq rfl
      exact ⟨l, hl, hmarked, .head ⟨q, hq, rfl, hprevious⟩ hway⟩

/-- A chain has one latest row only. -/
theorem eq_of_isLatest (h : s.Versioned k) {q r : Row k} (hq : q ∈ s.rows k) (hr : r ∈ s.rows k)
    (hqlatest : q.isLatest = true) (hrlatest : r.isLatest = true)
    (hchain : s.SameChain k q.id r.id) : q = r := by
  rcases Relation.ReflTransGen.cases_head (h.reflTransGen_of_sameChain hr hrlatest hchain) with
    heq | ⟨x, hx, _⟩
  · exact h.eq_of_id_eq hq hr heq
  · exact absurd hx (h.not_precedes_of_isLatest hq hqlatest x)

/-- The latest row found from an id is the latest row of its chain. -/
theorem latest?_eq_some_iff (h : s.Versioned k) {r : Row k} :
    s.latest? k id = some r ↔
      r ∈ s.rows k ∧ r.isLatest = true ∧ s.SameChain k id r.id := by
  have hsound (q : Row k) (hq : s.latest? k id = some q) : s.SameChain k id q.id :=
    sameChain_of_reflTransGen (forward_of_latest? hq).2
  constructor
  · intro hr
    obtain ⟨hmem, hlatest⟩ := latest?_eq_some hr
    exact ⟨hmem, hlatest, hsound r hr⟩
  · rintro ⟨hr, hlatest, hchain⟩
    have hway := h.reflTransGen_of_sameChain hr hlatest hchain
    obtain ⟨q, hq⟩ :=
      exists_latest?_of_forward h.nodup_ids hr hlatest (h.exists_of_forward hr hway) hway
    obtain ⟨hqmem, hqlatest⟩ := latest?_eq_some hq
    have hsame := (hsound q hq).symm.trans _ _ _ hchain
    rw [hq, h.eq_of_isLatest hqmem hr hqlatest hlatest hsame]

/-- The chain of an id lists the rows that are versions of it. -/
theorem mem_chain_iff (h : s.Versioned k) {q : Row k} :
    q ∈ s.chain k id ↔ q ∈ s.rows k ∧ s.SameChain k id q.id := by
  cases hfound : s.latest? k id with
  | none =>
    have hnil : s.chain k id = [] := by
      unfold chain
      rw [hfound]
    rw [hnil]
    refine ⟨fun hq => absurd hq List.not_mem_nil, fun ⟨hq, hchain⟩ => ?_⟩
    obtain ⟨r, hr, hlatest, hway⟩ := h.exists_latest hq
    have hsome := h.latest?_eq_some_iff.2
      ⟨hr, hlatest, .trans _ _ _ hchain (sameChain_of_reflTransGen hway)⟩
    rw [hfound] at hsome
    cases hsome
  | some r =>
    obtain ⟨hr, hlatest, hown⟩ := h.latest?_eq_some_iff.1 hfound
    rw [mem_chain_iff_of_nodup h.nodup_ids hfound]
    refine and_congr_right fun hq => ⟨fun hway => ?_, fun hchain => ?_⟩
    · exact .trans _ _ _ hown (sameChain_of_reflTransGen hway).symm
    · exact h.reflTransGen_of_sameChain hr hlatest (.trans _ _ _ hchain.symm hown)

end Versioned

end Store

end VersionedGraph
