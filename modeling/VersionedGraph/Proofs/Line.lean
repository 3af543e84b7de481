import VersionedGraph.Proofs.Chain

/-!
# Chains are lines

A chain is listed as a line (`Line`): its rows are numbered from one on, the first names no row
before it and each other one names the row before it. A line is built along the way back from its
last row, and the order by version then leaves no choice.
-/

namespace VersionedGraph

/-- Rows follow one another: they are numbered from one on, the first names no row before it, and
each other one names the row before it. -/
structure Line {k : Kind} (rs : List (Row k)) : Prop where
  numbered : ∀ (i : Nat) (q : Row k), rs[i]? = some q → q.version = .integer (i + 1)
  first : ∀ q : Row k, rs[0]? = some q → q.previous = none
  linked : ∀ (i : Nat) (p q : Row k), rs[i]? = some p → rs[i + 1]? = some q →
    q.previous = some p.id

namespace Line

variable {k : Kind} {rs : List (Row k)}

theorem getElem?_concat_eq_some_iff {p q : Row k} {i : Nat} :
    (rs ++ [p])[i]? = some q ↔ rs[i]? = some q ∨ i = rs.length ∧ p = q := by
  rcases Nat.lt_trichotomy i rs.length with hlt | heq | hgt
  · have hne : i ≠ rs.length := by omega
    simp [List.getElem?_append_left hlt, hne]
  · simp [heq]
  · have hne : i ≠ rs.length := by omega
    have hnone : rs[i]? = none := List.getElem?_eq_none (by omega)
    have hout : (rs ++ [p])[i]? = none := List.getElem?_eq_none (by simp; omega)
    simp [hnone, hout, hne]

theorem singleton {r : Row k} (hversion : r.version = .integer 1) (hprevious : r.previous = none) :
    Line [r] := by
  refine ⟨?_, ?_, ?_⟩
  · intro i q hq
    cases i with
    | zero =>
      cases hq
      simpa using hversion
    | succ i => simp at hq
  · intro q hq
    cases hq
    exact hprevious
  · intro i p q _ hq
    simp at hq

/-- A line goes on with a row that names its last one. -/
theorem concat (h : Line rs) {n : Nat} {p r : Row k} (hlength : rs.length = n + 1)
    (hlast : rs[n]? = some p) (hversion : r.version = .integer ((n + 1 : Nat) + 1))
    (hprevious : r.previous = some p.id) : Line (rs ++ [r]) := by
  refine ⟨?_, ?_, ?_⟩
  · intro i q hq
    rcases getElem?_concat_eq_some_iff.1 hq with hq | ⟨rfl, rfl⟩
    · exact h.numbered i q hq
    · rw [hlength]
      exact hversion
  · intro q hq
    rcases getElem?_concat_eq_some_iff.1 hq with hq | ⟨hzero, _⟩
    · exact h.first q hq
    · omega
  · intro i a b ha hb
    rcases getElem?_concat_eq_some_iff.1 hb with hb | ⟨hi, rfl⟩
    · rcases getElem?_concat_eq_some_iff.1 ha with ha | ⟨hi, _⟩
      · exact h.linked i a b ha hb
      · rw [hi, List.getElem?_eq_none (by omega)] at hb
        cases hb
    · have hin : i = n := by omega
      rcases getElem?_concat_eq_some_iff.1 ha with ha | ⟨hlen, _⟩
      · rw [hin, hlast] at ha
        cases ha
        exact hprevious
      · omega

/-- The rows of a line are numbered in order. -/
theorem pairwise (h : Line rs) :
    rs.Pairwise fun a b =>
      ∃ m n : Nat, m < n ∧ a.version = .integer m ∧ b.version = .integer n := by
  rw [List.pairwise_iff_getElem]
  intro i j hi hj hij
  exact ⟨i + 1, j + 1, by omega, by exact_mod_cast h.numbered i _ (List.getElem?_eq_getElem hi),
    by exact_mod_cast h.numbered j _ (List.getElem?_eq_getElem hj)⟩

theorem nodup (h : Line rs) : rs.Nodup := by
  refine h.pairwise.imp ?_
  rintro a b ⟨m, n, hmn, ha, hb⟩ rfl
  rw [ha] at hb
  cases hb
  omega

theorem eq_of_version_eq (h : Line rs) {a b : Row k} (ha : a ∈ rs) (hb : b ∈ rs)
    (hversion : a.version = b.version) : a = b := by
  obtain ⟨i, hi⟩ := List.mem_iff_getElem?.1 ha
  obtain ⟨j, hj⟩ := List.mem_iff_getElem?.1 hb
  rw [h.numbered i a hi, h.numbered j b hj] at hversion
  have hij : i = j := by
    injection hversion
    omega
  rw [hij, hj] at hi
  exact (Option.some.inj hi).symm

end Line

namespace Store

namespace Versioned

variable {s : Store} {k : Kind}

/-- The way to a row that names another leads through that one. -/
theorem reflTransGen_iff_of_previous (h : s.Versioned k) {p q r : Row k} (hq : q ∈ s.rows k)
    (hr : r ∈ s.rows k) (hprevious : r.previous = some p.id) :
    Relation.ReflTransGen (s.Precedes k) q.id r.id ↔
      Relation.ReflTransGen (s.Precedes k) q.id p.id ∨ q = r := by
  constructor
  · intro hway
    rcases Relation.ReflTransGen.cases_tail hway with heq | ⟨x, hx, w, hw, hwid, hwprevious⟩
    · exact .inr (h.eq_of_id_eq hq hr heq.symm)
    · rw [h.eq_of_id_eq hw hr hwid, hprevious] at hwprevious
      rw [Option.some.inj hwprevious]
      exact .inl hx
  · rintro (hway | rfl)
    · exact hway.tail ⟨r, hr, rfl, hprevious⟩
    · exact .refl

/-- The rows up to a row are a line. -/
theorem exists_line (h : s.Versioned k) {n : Nat} {r : Row k} (hr : r ∈ s.rows k)
    (hversion : r.version = .integer (n + 1)) :
    ∃ rs, Line rs ∧ rs.length = n + 1 ∧ rs[n]? = some r ∧
      ∀ q, q ∈ rs ↔ q ∈ s.rows k ∧ Relation.ReflTransGen (s.Precedes k) q.id r.id := by
  induction n generalizing r with
  | zero =>
    have hprevious : r.previous = none := by
      rcases h.numbered r hr with ⟨_, hnone⟩ | ⟨_, _, _, m, hm, _, hnumber⟩
      · exact hnone
      · rw [hnumber] at hversion
        injection hversion
        omega
    refine ⟨[r], Line.singleton (by simpa using hversion) hprevious, rfl, rfl, ?_⟩
    intro q
    rw [List.mem_singleton]
    constructor
    · rintro rfl
      exact ⟨hr, .refl⟩
    · rintro ⟨hq, hway⟩
      rcases Relation.ReflTransGen.cases_tail hway with heq | ⟨x, _, w, hw, hwid, hwprevious⟩
      · exact h.eq_of_id_eq hq hr heq.symm
      · rw [h.eq_of_id_eq hw hr hwid, hprevious] at hwprevious
        cases hwprevious
  | succ n ih =>
    rcases h.numbered r hr with ⟨hone, _⟩ | ⟨p, hp, hprevious, m, _, hpnumber, hnumber⟩
    · rw [hone] at hversion
      injection hversion
      omega
    · have hm : m = n + 1 := by
        rw [hnumber] at hversion
        injection hversion
        omega
      rw [hm] at hpnumber
      obtain ⟨rs, hline, hlength, hlast, hmem⟩ := ih hp (by exact_mod_cast hpnumber)
      refine ⟨rs ++ [r], hline.concat hlength hlast hversion hprevious, by simp [hlength], ?_, ?_⟩
      · rw [Line.getElem?_concat_eq_some_iff]
        exact .inr ⟨hlength.symm, rfl⟩
      · intro q
        rw [List.mem_append, List.mem_singleton, hmem]
        constructor
        · rintro (⟨hq, hway⟩ | rfl)
          · exact ⟨hq, (h.reflTransGen_iff_of_previous hq hr hprevious).2 (.inl hway)⟩
          · exact ⟨hr, .refl⟩
        · rintro ⟨hq, hway⟩
          rcases (h.reflTransGen_iff_of_previous hq hr hprevious).1 hway with hway | heq
          · exact .inl ⟨hq, hway⟩
          · exact .inr heq

/-- A line has the order of its versions. -/
theorem mergeSort_eq_of_line {rs rows : List (Row k)} (hline : Line rs) (hnodup : rows.Nodup)
    (hmem : ∀ q, q ∈ rows ↔ q ∈ rs) :
    rows.mergeSort (fun a b => a.version.precedes b.version) = rs := by
  have hperm : (rows.mergeSort fun a b => a.version.precedes b.version).Perm rs :=
    (List.mergeSort_perm _ _).trans ((List.perm_ext_iff_of_nodup hnodup hline.nodup).2 hmem)
  refine List.Perm.eq_of_pairwise ?_ (List.pairwise_mergeSort ?_ ?_ rows) ?_ hperm
  · intro a b ha hb hab hba
    have ha := hperm.mem_iff.1 ha
    obtain ⟨i, hi⟩ := List.mem_iff_getElem?.1 ha
    obtain ⟨j, hj⟩ := List.mem_iff_getElem?.1 hb
    refine hline.eq_of_version_eq ha hb ?_
    rw [hline.numbered i a hi, hline.numbered j b hj] at hab hba ⊢
    rw [Cell.precedes_integer] at hab hba
    have hij : (i : Int) = j := by omega
    rw [hij]
  · exact fun _ _ _ => Cell.precedes_trans
  · exact fun _ _ => Cell.precedes_total _ _
  · refine hline.pairwise.imp ?_
    rintro a b ⟨m, n, hmn, ha, hb⟩
    rw [ha, hb, Cell.precedes_integer]
    omega

/-- The chain of a row is a line, of which the last row is the latest. -/
theorem line_chain (h : s.Versioned k) {r : Row k} (hr : r ∈ s.rows k) :
    Line (s.chain k r.id) ∧ ∀ (i : Nat) (q : Row k), (s.chain k r.id)[i]? = some q →
      (q.isLatest = true ↔ i + 1 = (s.chain k r.id).length) := by
  obtain ⟨l, hl, hlatest, hway⟩ := h.exists_latest hr
  have hfound := h.latest?_eq_some_iff.2 ⟨hl, hlatest, sameChain_of_reflTransGen hway⟩
  obtain ⟨n, hn⟩ := h.exists_number hl
  obtain ⟨rs, hline, hlength, hlast, hmem⟩ := h.exists_line hl hn
  have hchain : s.chain k r.id = rs := by
    unfold chain
    rw [hfound]
    refine mergeSort_eq_of_line hline ?_ ?_
    · refine List.Nodup.filterMap ?_ nodup_closure
      intro x y q hx hy
      rw [← id_of_row? hx, ← id_of_row? hy]
    · intro q
      rw [hmem, List.mem_filterMap]
      constructor
      · rintro ⟨x, hx, hrow⟩
        obtain ⟨hq, rfl⟩ := h.row?_eq_some_iff.1 hrow
        exact ⟨hq, (h.mem_backwardIds_iff.1 hx).2⟩
      · rintro ⟨hq, hway⟩
        exact ⟨q.id, h.mem_backwardIds_iff.2 ⟨⟨l, hl, rfl⟩, hway⟩, h.row?_eq_some_iff.2 ⟨hq, rfl⟩⟩
  rw [hchain]
  refine ⟨hline, fun i q hq => ⟨fun hqlatest => ?_, fun hi => ?_⟩⟩
  · obtain ⟨hqmem, hqway⟩ := (hmem q).1 (List.mem_of_getElem? hq)
    have heq := h.eq_of_isLatest hqmem hl hqlatest hlatest (sameChain_of_reflTransGen hqway)
    have hversion := hline.numbered i q hq
    rw [heq, hn] at hversion
    injection hversion
    omega
  · have hin : i = n := by omega
    rw [hin, hlast] at hq
    rw [← Option.some.inj hq]
    exact hlatest

end Versioned

/-! The rows that turn up in lists, those without ids among them. -/

section

variable {s : Store} {k : Kind}

/-- A row names another as the one right before it. What has no id cannot be named. -/
def Names (q r : ListedRow k) : Prop :=
  ∃ id, r.id = some id ∧ q.previous = some id

theorem mem_listedRows_iff {r : ListedRow k} :
    r ∈ s.listedRows k ↔
      (∃ q ∈ s.rows k, q.listed = r) ∨ ∃ q ∈ s.unnamed k, q.withId none = r := by
  rw [listedRows, List.mem_append, List.mem_map, List.mem_map]

namespace Versioned

/-- A named row is named by those rows only that say so. -/
theorem names_listed_iff (h : s.Versioned k) {r : Row k} :
    (∀ q ∈ s.listedRows k, ¬Names q r.listed) ↔ ∀ q ∈ s.rows k, q.previous ≠ some r.id := by
  constructor
  · intro hnone q hq hprevious
    exact hnone q.listed (mem_listedRows_iff.2 (.inl ⟨q, hq, rfl⟩)) ⟨r.id, rfl, hprevious⟩
  · rintro hnone q hq ⟨id, hid, hprevious⟩
    rw [Version.listed_id] at hid
    rw [← Option.some.inj hid] at hprevious
    rcases mem_listedRows_iff.1 hq with ⟨p, hp, rfl⟩ | ⟨p, hp, rfl⟩
    · exact hnone p hp hprevious
    · have hpnone : p.previous = none := (h.unnamed p hp).2.1
      exact absurd (hpnone.symm.trans hprevious) nofun

/-- A listed row is a first version and names none, or comes right after the row that it names. -/
theorem listed_cases (h : s.Versioned k) {r : ListedRow k} (hr : r ∈ s.listedRows k) :
    (r.version = .integer 1 ∧ r.previous = none) ∨
      ∃ p ∈ s.listedRows k, Names r p ∧
        ∃ n : Nat, 1 ≤ n ∧ p.version = .integer n ∧ r.version = .integer (n + 1) := by
  rcases mem_listedRows_iff.1 hr with ⟨q, hq, rfl⟩ | ⟨q, hq, rfl⟩
  · rcases h.numbered q hq with hfirst | ⟨p, hp, hsome, hnumbers⟩
    · exact .inl hfirst
    · exact .inr ⟨p.listed, mem_listedRows_iff.2 (.inl ⟨p, hp, rfl⟩), ⟨p.id, rfl, hsome⟩, hnumbers⟩
  · obtain ⟨hone, hnone, _⟩ := h.unnamed q hq
    exact .inl ⟨hone, hnone⟩

theorem isLatest_listed_iff (h : s.Versioned k) {r : ListedRow k} (hr : r ∈ s.listedRows k) :
    r.isLatest = true ↔ ∀ q ∈ s.listedRows k, ¬Names q r := by
  rcases mem_listedRows_iff.1 hr with ⟨q, hq, rfl⟩ | ⟨q, hq, rfl⟩
  · exact (h.isLatest_iff q hq).trans h.names_listed_iff.symm
  · refine ⟨fun _ p _ hnames => ?_, fun _ => (h.unnamed q hq).2.2⟩
    obtain ⟨id, hid, _⟩ := hnames
    cases hid

theorem pairwise_listedRows (h : s.Versioned k) :
    (s.listedRows k).Pairwise fun a b => a.previous = b.previous → a.previous = none := by
  have hnodup : (s.rows k).Nodup := List.Nodup.of_map _ h.nodup_ids
  rw [listedRows, List.pairwise_append, List.pairwise_map, List.pairwise_map]
  refine ⟨?_, ?_, ?_⟩
  · refine hnodup.imp_of_mem ?_
    intro a b ha hb hne heq
    by_contra hsome
    exact hne (h.unbranched a ha b hb heq hsome)
  · refine List.Pairwise.imp_of_mem ?_ (List.pairwise_of_forall fun _ _ => trivial)
    exact fun ha _ _ _ => (h.unnamed _ ha).2.1
  · intro a _ b hb heq
    obtain ⟨q, hq, rfl⟩ := List.mem_map.1 hb
    exact heq.trans (h.unnamed q hq).2.1

end Versioned

/-- In every reachable store the rows of both kinds, those without ids among them, are numbered by
positive integers; exactly the first versions name no row; every later version names a row whose
number is one less; no two rows name the same one; and exactly the rows that none names are marked
as latest. So the chain of a row is a line of all its versions, of which only the last is the
latest, and a row without an id is a chain by itself. -/
theorem Reachable.chains_are_lines (h : s.Reachable) (k : Kind) :
    (∀ r ∈ s.listedRows k,
      (∃ n : Nat, 1 ≤ n ∧ r.version = .integer n) ∧
      (r.version = .integer 1 ↔ r.previous = none) ∧
      (∀ n : Nat, 1 ≤ n → r.version = .integer (n + 1) →
        ∃ p ∈ s.listedRows k, Names r p ∧ p.version = .integer n) ∧
      (r.isLatest = true ↔ ∀ q ∈ s.listedRows k, ¬Names q r)) ∧
    ((s.listedRows k).Pairwise fun a b => a.previous = b.previous → a.previous = none) ∧
    (∀ r ∈ s.rows k, Line (s.chain k r.id) ∧
      (∀ q, q ∈ s.chain k r.id ↔ q ∈ s.rows k ∧ s.SameChain k r.id q.id) ∧
      ∀ (i : Nat) (q : Row k), (s.chain k r.id)[i]? = some q →
        (q.isLatest = true ↔ i + 1 = (s.chain k r.id).length)) ∧
    ∀ r ∈ s.unnamed k, r.version = .integer 1 ∧ r.previous = none ∧ r.isLatest = true := by
  have hv := h.versioned k
  refine ⟨?_, hv.pairwise_listedRows, ?_, hv.unnamed⟩
  · intro r hr
    have hlatest := hv.isLatest_listed_iff hr
    rcases hv.listed_cases hr with ⟨hone, hnone⟩ | ⟨p, hp, hnames, m, hm, hpnumber, hrnumber⟩
    · refine ⟨⟨1, Nat.le_refl 1, hone⟩, ⟨fun _ => hnone, fun _ => hone⟩, ?_, hlatest⟩
      intro n hn hnumber
      rw [hone] at hnumber
      injection hnumber
      omega
    · refine ⟨⟨m + 1, by omega, hrnumber⟩, ⟨?_, ?_⟩, ?_, hlatest⟩
      · intro hone
        rw [hrnumber] at hone
        injection hone
        omega
      · intro hnone
        obtain ⟨_, _, hsome⟩ := hnames
        rw [hnone] at hsome
        cases hsome
      · intro n _ hnumber
        rw [hrnumber] at hnumber
        have hmn : m = n := by
          injection hnumber
          omega
        rw [← hmn]
        exact ⟨p, hp, hnames, hpnumber⟩
  · intro r hr
    obtain ⟨hline, hlatest⟩ := hv.line_chain hr
    exact ⟨hline, fun _ => hv.mem_chain_iff, hlatest⟩

end

/-- An entity is created, replaced through its first id, deleted through it, and then created once
more with an id that is taken. -/
theorem chain_of_stale_writes_is_line :
    let log : List (Operation × Stamp) :=
      [(.create (k := .entity) { typeId := .str "note", ends := () }, ⟨"a", 1⟩),
        (.update .entity (.str "a") (.obj []) .null, ⟨"b", 2⟩),
        (.delete .entity (.str "a") .null, ⟨"c", 3⟩),
        (.create (k := .entity) { typeId := .str "note", ends := () }, ⟨"b", 4⟩)]
    ((empty.after log).rows .entity).map (·.id) = ["a", "b", "c"] ∧
      Line ((empty.after log).chain .entity "a") := by
  intro log
  have hids : ((empty.after log).rows .entity).map (·.id) = ["a", "b", "c"] := by decide +kernel
  refine ⟨hids, ?_⟩
  have hmem : "a" ∈ ((empty.after log).rows .entity).map (·.id) := by
    rw [hids]
    exact List.mem_cons_self
  obtain ⟨r, hr, hid⟩ := List.mem_map.1 hmem
  rw [← hid]
  exact ((Reachable.chains_are_lines ⟨log, rfl⟩ .entity).2.2.1 r hr).1

end Store

end VersionedGraph
