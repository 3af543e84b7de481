import VersionedGraph.Proofs.Canonical
import VersionedGraph.Proofs.FilteredQuery
import VersionedGraph.Proofs.RowSearch
import VersionedGraph.Proofs.Widening

/-!
# What searches for rows find

A search for a caller with few access lists names these in its query, so that it finds exactly the
first ones of the latest rows that meet every condition it gives and that the caller may read. The
conditions are stated about the columns and properties of rows (`SearchTerms.Meets`), and the order
is a strict one: newer rows come first, and of equally old ones that with the greater id
(`Store.Outranks`).
-/

namespace VersionedGraph

/-- The conditions that a search for latest rows may give. -/
structure SearchTerms where
  typeId : Option LooseText := none
  createdBy : Option LooseText := none
  createdFrom : Option Int := none
  createdUntil : Option Int := none
  /-- The ends of links; entities have none. -/
  source : Option LooseText := none
  target : Option LooseText := none
  includeDeleted : Bool := false
  filter : Option FilterExpr := none

namespace SearchTerms

def given (text : Option LooseText) : Json :=
  (text.map Json.str).getD .null

/-- The criteria that only links have. -/
def ownCriteria (q : SearchTerms) : (k : Kind) → List (Criterion k)
  | .entity => []
  | .link =>
    RowSearch.asked .sourceIs (given q.source) ++ RowSearch.asked .targetIs (given q.target)

/-- The search for rows of a kind by a caller, if that is anybody. -/
def search (q : SearchTerms) (k : Kind) (caller : Option String) (limit : Int) : RowSearch k where
  user := .ofText? caller
  typeId := given q.typeId
  filter := q.filter
  createdBy := given q.createdBy
  createdFrom := .ofInt? q.createdFrom
  createdUntil := .ofInt? q.createdUntil
  includeDeleted := q.includeDeleted
  own := q.ownCriteria k
  limit := .int limit

/-- What a search asks of the columns of rows, whoever asks. -/
def criteria (q : SearchTerms) (k : Kind) : List (Criterion k) :=
  (q.search k none 1).columnCriteria

/-- All that a search asks of rows. -/
def asked (q : SearchTerms) (k : Kind) (filters : List CompiledFilter) (clause : AclClause Int) :
    List (Criterion k) :=
  q.criteria k ++ filters.map .properties ++ [.access clause]

/-- Links have exactly the ends that are given, as they are stored. -/
def Joins (q : SearchTerms) : (k : Kind) → k.Ends String → Prop
  | .entity, _ => True
  | .link, ends => (∀ t, q.source = some t → t = ends.source) ∧
    ∀ t, q.target = some t → t = ends.target

/-- A row meets every condition that is given. -/
structure Meets (q : SearchTerms) (k : Kind) (row : ListedRow k) : Prop where
  typeId : ∀ t, q.typeId = some t → t = row.typeId
  createdBy : ∀ t, q.createdBy = some t → ∃ actor, row.createdBy = some actor ∧ t = actor
  createdFrom : ∀ n, q.createdFrom = some n → (Cell.integer n).precedes row.createdAt = true
  createdUntil : ∀ n, q.createdUntil = some n → row.createdAt.precedes (.integer n) = true
  deleted : q.includeDeleted = true ∨ row.isDeleted = false
  joins : q.Joins k row.ends
  filter : ∀ f, q.filter = some f → f.HoldsOn k row

/-- What a search hands over: the values that its conditions give, the parameters of its filter and
the ids of the access lists that let the caller read. -/
inductive Hands (q : SearchTerms) (k : Kind) (s : Store) (caller : Option String) :
    Json → Prop where
  | column {c : Criterion k} {v : Json} (asked : c ∈ q.criteria k) (bound : v ∈ c.bound) :
    Hands q k s caller v
  | filter {f : FilterExpr} {c : CompiledFilter} {v : Json} (given : q.filter = some f)
    (compiles : f.compile (.str k.rowName) = .ok c)
    (parameter : v ∈ c.parameters.map Scalar.toJson) : Hands q k s caller v
  | access {id : Int} (readable : s.MayRead caller id) : Hands q k s caller (.int id)

end SearchTerms

theorem Json.cellOrder?_int_eq (n : Int) (content : Cell) :
    (Json.int n).cellOrder? content = some (content.compare (.integer n)) := by
  cases content <;> rfl

/-! Criteria that may not be asked. -/

namespace Criterion

variable {k : Kind} {row : ListedRow k} {criteria more : List (Criterion k)}

/-- The values that criteria need can be handed over. -/
def Bindable (criteria : List (Criterion k)) : Prop :=
  ∀ c ∈ criteria, ∀ v ∈ c.bound, v.bindFault? 1 = none

theorem bindable_append_iff :
    Bindable (criteria ++ more) ↔ Bindable criteria ∧ Bindable more :=
  List.forall_mem_append

theorem allMet_append_iff :
    AllMet (criteria ++ more) row ↔ AllMet criteria row ∧ AllMet more row :=
  List.forall_mem_append

theorem allMet_asked_text_iff {text : Option LooseText} {c : Json → Criterion k}
    {content : Option String} (hc : ∀ v, (c v).holds row = .ok (v.isColumnText content))
    (hbound : ∀ v, (c v).bound = [v])
    (hbindable : Bindable (RowSearch.asked c (SearchTerms.given text))) :
    AllMet (RowSearch.asked c (SearchTerms.given text)) row ↔
      ∀ t, text = some t → ∃ s, content = some s ∧ t = LooseText.ofString s := by
  cases text with
  | none => simp [AllMet, RowSearch.asked, SearchTerms.given, Json.isNull]
  | some t =>
    have hasked : RowSearch.asked c (SearchTerms.given (some t)) = [c (.str t)] := rfl
    rw [hasked, Bindable, List.forall_mem_singleton, hbound, List.forall_mem_singleton] at hbindable
    have ht : LooseText.ofString t.replaced = t :=
      LooseText.ofString_replaced (Option.map_eq_none_iff.1 hbindable)
    rw [hasked, AllMet, List.forall_mem_singleton, hc, Except.ok.injEq, ← ht]
    simp only [Json.isColumnText_str, decide_eq_true_eq, Option.some.injEq, forall_eq']
    constructor
    · intro hcontent
      exact ⟨_, hcontent, rfl⟩
    · rintro ⟨s, hs, heq⟩
      rw [hs, ← LooseText.replaced_ofString t.replaced, heq, LooseText.replaced_ofString]

theorem allMet_asked_from_iff {time : Option Int} :
    AllMet (RowSearch.asked (.createdFrom (k := k)) (.ofInt? time)) row ↔
      ∀ n, time = some n → (Cell.integer n).precedes row.createdAt = true := by
  cases time with
  | none => simp [AllMet, RowSearch.asked, Json.ofInt?, Json.isNull]
  | some n =>
    have hasked : RowSearch.asked (.createdFrom (k := k)) (.ofInt? (some n)) =
      [.createdFrom (.int n)] := rfl
    have hswap : (Cell.integer n).compare row.createdAt =
        (row.createdAt.compare (.integer n)).swap := Std.OrientedCmp.eq_swap
    rw [hasked, AllMet, List.forall_mem_singleton, holds, Json.cellOrder?_int_eq, Except.ok.injEq]
    simp only [Option.any_some, Option.some.injEq, forall_eq', Cell.precedes, hswap]
    cases row.createdAt.compare (.integer n) <;> decide

theorem allMet_asked_until_iff {time : Option Int} :
    AllMet (RowSearch.asked (.createdUntil (k := k)) (.ofInt? time)) row ↔
      ∀ n, time = some n → row.createdAt.precedes (.integer n) = true := by
  cases time with
  | none => simp [AllMet, RowSearch.asked, Json.ofInt?, Json.isNull]
  | some n =>
    have hasked : RowSearch.asked (.createdUntil (k := k)) (.ofInt? (some n)) =
      [.createdUntil (.int n)] := rfl
    rw [hasked, AllMet, List.forall_mem_singleton, holds, Json.cellOrder?_int_eq, Except.ok.injEq]
    simp only [Option.any_some, Option.some.injEq, forall_eq', Cell.precedes]

theorem allMet_undeleted_iff {includeDeleted : Bool} :
    AllMet (if includeDeleted then [] else [.undeleted (k := k)]) row ↔
      includeDeleted = true ∨ row.isDeleted = false := by
  cases includeDeleted <;> simp [AllMet, holds]

end Criterion

namespace SearchTerms

open Criterion

variable {q : SearchTerms} {k : Kind} {row : ListedRow k}

/-- Only the filter of a search looks into properties. -/
theorem isOnProperties_criteria (q : SearchTerms) (k : Kind) :
    ∀ c ∈ q.criteria k, c.isOnProperties = false := by
  have hasked {l : Kind} {c : Json → Criterion l} {value : Json}
      (hc : ∀ v, (c v).isOnProperties = false) :
      ∀ d ∈ RowSearch.asked c value, d.isOnProperties = false := by
    unfold RowSearch.asked
    split
    · exact List.forall_mem_nil _
    · exact List.forall_mem_singleton.2 (hc value)
  unfold criteria RowSearch.columnCriteria
  simp only [List.forall_mem_append]
  refine ⟨⟨⟨⟨⟨hasked fun _ => rfl, hasked fun _ => rfl⟩, hasked fun _ => rfl⟩,
    hasked fun _ => rfl⟩, ?_⟩, ?_⟩
  · split
    · exact List.forall_mem_nil _
    · exact List.forall_mem_singleton.2 rfl
  · cases k with
    | entity => exact List.forall_mem_nil _
    | link => exact List.forall_mem_append.2 ⟨hasked fun _ => rfl, hasked fun _ => rfl⟩

theorem allMet_ownCriteria_iff (h : Bindable (q.ownCriteria k)) :
    AllMet (q.ownCriteria k) row ↔ q.Joins k row.ends := by
  cases k with
  | entity => exact iff_of_true nofun trivial
  | link =>
    obtain ⟨hsource, htarget⟩ := bindable_append_iff.1 h
    have hends : AllMet (q.ownCriteria .link) row ↔ _ := allMet_append_iff.trans <| and_congr
      (allMet_asked_text_iff (fun _ => rfl) (fun _ => rfl) hsource)
      (allMet_asked_text_iff (fun _ => rfl) (fun _ => rfl) htarget)
    rw [hends]
    simp only [Option.some.injEq, exists_eq_left', Joins]

/-- Rows meet the criteria of a search if they meet its conditions. -/
theorem matches_iff_meets {caller : Option String} {limit : Int} (h : Bindable (q.criteria k))
    (hcompiles : ∀ f, q.filter = some f → ∃ c, f.compile (.str k.rowName) = .ok c)
    (hevaluates : ∀ f, q.filter = some f → f.EvaluatesOn k row) :
    (q.search k caller limit).Matches row ↔ q.Meets k row := by
  have hcolumns := h
  simp only [criteria, RowSearch.columnCriteria, bindable_append_iff] at hcolumns
  obtain ⟨⟨⟨⟨⟨htype, hcreator⟩, hfrom⟩, huntil⟩, hdeleted⟩, hown⟩ := hcolumns
  have hfilter : (∀ f, q.filter = some f → ∃ c, f.compile (.str k.rowName) = .ok c ∧
      c.holdsOn row.properties = .ok true) ↔ ∀ f, q.filter = some f → f.HoldsOn k row := by
    refine forall₂_congr fun f hf => ?_
    obtain ⟨c, hc⟩ := hcompiles f hf
    obtain ⟨_, hmeans⟩ := FilterExpr.compilesTo_of_compile hc
    obtain ⟨b, hb⟩ := hmeans.exists_holdsOn (hevaluates f hf)
    rw [← hmeans.eq_true_iff hb]
    simp only [hc, Except.ok.injEq, exists_eq_left', hb]
  unfold RowSearch.Matches RowSearch.columnCriteria
  simp only [search, allMet_append_iff, allMet_asked_from_iff, allMet_asked_until_iff]
  rw [allMet_asked_text_iff (fun _ => rfl) (fun _ => rfl) htype,
    allMet_asked_text_iff (fun _ => rfl) (fun _ => rfl) hcreator, allMet_ownCriteria_iff hown,
    hfilter]
  simp only [Option.some.injEq, exists_eq_left']
  constructor
  · rintro ⟨⟨⟨⟨⟨⟨mtype, mcreator⟩, mfrom⟩, muntil⟩, mdeleted⟩, mown⟩, mfilter⟩
    exact ⟨mtype, mcreator, mfrom, muntil, allMet_undeleted_iff.1 mdeleted, mown, mfilter⟩
  · intro hmeets
    exact ⟨⟨⟨⟨⟨⟨hmeets.typeId, hmeets.createdBy⟩, hmeets.createdFrom⟩, hmeets.createdUntil⟩,
      allMet_undeleted_iff.2 hmeets.deleted⟩, hmeets.joins⟩, hmeets.filter⟩

end SearchTerms

/-! What is handed over. -/

theorem Json.exists_of_handOver_eq_error {values : List Json} {place : Nat} {f : Fault}
    (h : handOver values place = .error f) :
    (∃ v ∈ values, v.bindFault? 1 ≠ none) ∧ ∃ e, f = .unbindable e := by
  constructor
  · by_contra hall
    push Not at hall
    rw [handOver_eq_ok_iff.2 hall] at h
    cases h
  · unfold handOver at h
    split at h
    · cases h
      exact ⟨_, rfl⟩
    · cases h

namespace Criterion

/-- Criteria whose filters speak of rows by their own name need only that their values can be handed
over. -/
theorem handOver_of_rowNames {k : Kind} {criteria : List (Criterion k)}
    (h : ∀ c, Criterion.properties c ∈ criteria → c.rowName = k.rowName) (limit : Json) :
    handOver criteria limit = Json.handOver (criteria.flatMap bound ++ [limit]) := by
  have hchecked : criteria.forM checkRowName = .ok () := by
    cases hforM : criteria.forM checkRowName with
    | ok _ => rfl
    | error f =>
      obtain ⟨c, hc, hfails⟩ := exists_mem_of_forM_eq_error hforM
      cases c with
      | properties filter =>
        simp [checkRowName, CompiledFilter.checkRowName, h filter hc] at hfails
      | _ => cases hfails
  unfold handOver
  rw [hchecked]
  rfl

end Criterion

theorem Acl.isInline_of_filterFor {ids : List Int} {authenticated : Bool} {cap : Int}
    {a : AclFilter Int} (hfew : ids.length ≤ cap)
    (h : filterFor ids authenticated (.int cap) = .ok a) : a.clause.isInline = true := by
  unfold filterFor at h
  rw [Json.exceeds_int] at h
  split at h
  · cases h
    rfl
  · split at h
    · cases h
      rfl
    · rw [ok_bind, if_neg (by simpa using hfew)] at h
      cases h
      rfl

namespace Store

variable {s : Store} {k : Kind} {caller : Option String} {cap : Int} {access : AclFilter Int}

/-- A caller who may read by no more access lists than a query names, if the caller is anybody. -/
def NamesAllFor (s : Store) (cap : Int) (caller : Option String) : Prop :=
  caller = none ∨ ∃ ids : List Int, (∀ id, s.MayRead caller id → id ∈ ids) ∧ ids.length ≤ cap

theorem isInline_of_namesAllFor (h : s.NamesAllFor cap caller)
    (haccess : s.readFilter (.ofText? caller) (.int cap) = .ok access) :
    access.clause.isInline = true := by
  simp only [readFilter, bind_eq_ok_iff, mapError_eq_ok_iff] at haccess
  obtain ⟨granted, hgranted, haccess⟩ := haccess
  rcases h with rfl | ⟨ids, hall, hfew⟩
  · rcases Acl.filterFor_cases haccess with ⟨_, rfl⟩ | ⟨⟨hsomebody, _⟩, _⟩
    · rfl
    · cases hsomebody
  · refine Acl.isInline_of_filterFor ?_ haccess
    cases caller with
    | none =>
      cases hgranted
      exact (Int.natCast_nonneg _).trans hfew
    | some user =>
      have hserves : (s.principalsOf user).length ≤ maxPrincipals := by
        by_contra hmany
        change s.accessibleIds (.str user) .read = _ at hgranted
        rw [accessibleIds_of_many .read (by omega)] at hgranted
        cases hgranted
      change s.accessibleIds (.str user) .read = _ at hgranted
      rw [accessibleIds_str .read hserves] at hgranted
      cases hgranted
      have hsubset : s.grantedIds user .read ⊆ ids := fun id hid =>
        hall id ⟨user, rfl, mem_grantedIds_iff.1 hid⟩
      have hle := ((s.nodup_grantedIds user .read).subperm hsubset).length_le
      omega

theorem serves_of_readFilter {cap : Json} (h : s.readFilter (.ofText? caller) cap = .ok access) :
    s.Serves caller := by
  by_contra hserves
  rw [readFilter_of_not_serves hserves] at h
  cases h

/-- A query names only access lists by which the caller may read. -/
theorem mayRead_of_mem_bindings {cap : Json}
    (haccess : s.readFilter (.ofText? caller) cap = .ok access) {id : Int}
    (hid : id ∈ access.clause.bindings) : s.MayRead caller id := by
  obtain ⟨ids, hids, hmay⟩ := exists_accessibleIds_eq_ok (serves_of_readFilter haccess)
  simp only [readFilter, bind_eq_ok_iff, mapError_eq_ok_iff] at haccess
  obtain ⟨granted, hgranted, haccess⟩ := haccess
  rw [hids] at hgranted
  cases hgranted
  rcases Acl.filterFor_cases haccess with ⟨_, rfl⟩ | ⟨⟨hsomebody, _⟩, rfl | rfl⟩
  · cases hid
  · exact (hmay id).1 ⟨hsomebody, hid⟩
  · cases hid

/-! A strict order. -/

/-- A row comes before another one: it is newer, or as old and has the greater id. Rows that lack an
id come last among equally old ones. -/
def Outranks (a b : ListedRow k) : Prop :=
  a.createdAt.compare b.createdAt = .gt ∨ a.createdAt.compare b.createdAt = .eq ∧
    (b.id = none ∨ ∃ i j, a.id = some i ∧ b.id = some j ∧ j < i)

theorem pairwise_id_ne_listedRows (h : s.Versioned k) :
    (s.listedRows k).Pairwise fun a b => ∀ i, a.id = some i → b.id ≠ some i := by
  unfold listedRows
  rw [List.pairwise_append, List.pairwise_map, List.pairwise_map]
  refine ⟨(List.pairwise_map.1 h.nodup_ids).imp ?_, List.pairwise_of_forall ?_, ?_⟩
  · intro a b hne i ha hb
    exact hne (Option.some.inj (ha.trans hb.symm))
  · intro a b i hid
    cases hid
  · rintro a _ b hb i _ hid
    obtain ⟨_, _, rfl⟩ := List.mem_map.1 hb
    cases hid

theorem outranks_of_newerFirst {a b : ListedRow k} (h : newerFirst a b = true)
    (hne : ∀ i, a.id = some i → b.id ≠ some i) : Outranks a b := by
  refine (newerFirst_iff.1 h).imp_right (And.imp_right fun hid => ?_)
  cases hb : b.id with
  | none => exact .inl rfl
  | some j =>
    cases ha : a.id with
    | none =>
      rw [ha, hb] at hid
      cases hid
    | some i =>
      rw [ha, hb] at hid
      refine .inr ⟨i, j, rfl, rfl, lt_of_le_of_ne (of_decide_eq_true hid) ?_⟩
      rintro rfl
      exact hne j ha hb

theorem Ranks.pairwise_outranks (h : s.Versioned k) {p : ListedRow k → Prop}
    {rows : List (ListedRow k)} (hranks : s.Ranks k p rows) : rows.Pairwise Outranks := by
  classical
  have hlisted : ((s.latestRows k).filter fun row => p row).Sublist (s.listedRows k) :=
    List.filter_sublist.trans List.filter_sublist
  have hdiffer := (hranks.perm.pairwise_iff fun hab i hb ha => hab i ha hb).2
    ((pairwise_id_ne_listedRows h).sublist hlisted)
  exact hranks.sorted.imp₂ (fun _ _ => outranks_of_newerFirst) hdiffer

/-! Exact searches. -/

section

variable {q : SearchTerms} {filters : List CompiledFilter} {limit : Int}

theorem mem_of_properties_mem_asked {clause : AclClause Int} {filter : CompiledFilter}
    (h : .properties filter ∈ q.asked k filters clause) : filter ∈ filters := by
  rcases List.mem_append.1 h with h | h
  · rcases List.mem_append.1 h with h | h
    · cases q.isOnProperties_criteria k _ h
    · obtain ⟨_, hmem, heq⟩ := List.mem_map.1 h
      cases heq
      exact hmem
  · cases List.mem_singleton.1 h

variable (haccess : s.readFilter (.ofText? caller) (.int cap) = .ok access)
  (hfilters : q.filter.toList.mapM (fun f : FilterExpr => f.compile (.str k.rowName)) = .ok filters)

include hfilters

theorem exists_filter_of_mem {c : CompiledFilter} (hc : c ∈ filters) :
    ∃ f, q.filter = some f ∧ f.compile (.str k.rowName) = .ok c := by
  obtain ⟨f, hf, hcompiles⟩ := (mem_iff_of_mapM_eq_ok hfilters).1 hc
  exact ⟨f, Option.mem_toList.1 hf, hcompiles⟩

include haccess

/-- Whatever a query needs is handed over by the search. -/
theorem hands_of_mem {v : Json}
    (hv : v ∈ (q.asked k filters access.clause).flatMap Criterion.bound) :
    q.Hands k s caller v := by
  obtain ⟨c, hc, hbound⟩ := List.mem_flatMap.1 hv
  rcases List.mem_append.1 hc with hc | hc
  · rcases List.mem_append.1 hc with hc | hc
    · exact .column hc hbound
    · obtain ⟨filter, hfilter, rfl⟩ := List.mem_map.1 hc
      obtain ⟨f, hf, hcompiles⟩ := exists_filter_of_mem hfilters hfilter
      exact .filter hf hcompiles hbound
  · rw [List.mem_singleton.1 hc] at hbound
    obtain ⟨id, hid, rfl⟩ := List.mem_map.1 hbound
    exact .access (mayRead_of_mem_bindings haccess hid)

/-- What a query asks, once it is handed over, is that rows meet the terms of the search and are
public or readable. -/
theorem allMet_asked_iff {row : ListedRow k} (hinline : access.clause.isInline = true)
    (hbindable : Criterion.Bindable (q.criteria k))
    (hevaluates : ∀ f, q.filter = some f → f.EvaluatesOn k row) :
    Criterion.AllMet (q.asked k filters access.clause) row ↔
      q.Meets k row ∧ ∀ id, row.acl = some id → s.MayRead caller id := by
  have hterms : Criterion.AllMet (q.criteria k ++ filters.map .properties) row ↔ q.Meets k row := by
    refine (RowSearch.allMet_iff_matches (r := q.search k caller 1) hfilters).trans
      (SearchTerms.matches_iff_meets hbindable (fun f hf => ?_) hevaluates)
    obtain ⟨c, _, hcompiles⟩ := exists_of_mem_of_mapM_eq_ok hfilters (Option.mem_toList.2 hf)
    exact ⟨c, hcompiles⟩
  have hreadable : Criterion.AllMet [.access access.clause] row ↔
      ∀ id, row.acl = some id → s.MayRead caller id := by
    rw [Criterion.AllMet, List.forall_mem_singleton, Criterion.holds, Except.ok.injEq,
      permits_iff_canRead haccess hinline, canRead_iff_mayRead (serves_of_readFilter haccess)]
    cases row.acl <;> simp
  unfold SearchTerms.asked
  rw [Criterion.allMet_append_iff, hterms, hreadable]

/-- A query that names all access lists of a caller is refused as it hands over what cannot be, or
it comes to reading the rows that rank first among those that meet the terms of the search and are
public or readable. -/
theorem queryLatest_of_terms (hinline : access.clause.isInline = true)
    (hlimit : 1 ≤ limit ∧ limit ≤ 100)
    (hevaluates : ∀ row ∈ s.latestRows k, ∀ f, q.filter = some f → f.EvaluatesOn k row) :
    (∃ v e, q.Hands k s caller v ∧ v.bindFault? 1 ≠ none ∧
      s.queryLatest k (q.asked k filters access.clause) (.int limit) = .error (.unbindable e)) ∨
    ∃ ranked, s.Ranks k (fun row => q.Meets k row ∧
        ∀ id, row.acl = some id → s.MayRead caller id) ranked ∧
      s.queryLatest k (q.asked k filters access.clause) (.int limit) =
        (ranked.take limit.toNat).mapM Version.decode := by
  have hnames (c : CompiledFilter) (hc : .properties c ∈ q.asked k filters access.clause) :
      c.rowName = k.rowName := by
    obtain ⟨f, _, hcompiles⟩ := exists_filter_of_mem hfilters (mem_of_properties_mem_asked hc)
    exact (FilterExpr.compilesTo_of_compile hcompiles).1
  have hcases := s.queryLatest_cases (q.asked k filters access.clause) (by omega : 0 < limit)
  rw [Criterion.handOver_of_rowNames hnames] at hcases
  rcases hcases with ⟨f, hrefused, hf⟩ | ⟨hhanded, ⟨f, ⟨row, hrow, c, hc, hfails⟩, _⟩ |
    ⟨ranked, hranks, hquery⟩⟩
  · obtain ⟨⟨v, hv, hunbindable⟩, e, rfl⟩ := Json.exists_of_handOver_eq_error hrefused
    refine .inl ⟨v, e, ?_, hunbindable, hf⟩
    rcases List.mem_append.1 hv with hv | hv
    · exact hands_of_mem haccess hfilters hv
    · have hfits : fitsWord limit = true := by
        have : 100 < wordBound := by decide
        simp only [fitsWord, Bool.and_eq_true, decide_eq_true_eq]
        omega
      rw [List.mem_singleton.1 hv, Json.bindFault?_int hfits] at hunbindable
      exact absurd rfl hunbindable
  · obtain ⟨hon, _⟩ := Criterion.evaluation_of_holds_eq_error hfails
    cases c with
    | properties filter =>
      obtain ⟨f, hf, hcompiles⟩ := exists_filter_of_mem hfilters (mem_of_properties_mem_asked hc)
      obtain ⟨b, hb⟩ := (FilterExpr.compilesTo_of_compile hcompiles).2.exists_holdsOn
        (hevaluates row hrow f hf)
      rw [Criterion.holds, hb] at hfails
      cases hfails
    | _ => cases hon
  · refine .inr ⟨ranked, hranks.congr_latest fun row hrow => ?_, hquery⟩
    refine allMet_asked_iff haccess hfilters hinline (fun c hc v hv => ?_) (hevaluates row hrow)
    refine Json.handOver_eq_ok_iff.1 hhanded v (List.mem_append_left _ (List.mem_flatMap.2 ?_))
    exact ⟨c, List.mem_append_left _ (List.mem_append_left _ hc), hv⟩

end

theorem run_search {q : SearchTerms} {limit : Int} (hlimit : 1 ≤ limit ∧ limit ≤ 100) :
    (q.search k caller limit).run s (.int cap) =
      (q.filter.toList.mapM fun f : FilterExpr => f.compile (.str k.rowName)).mapError .filter >>=
        fun filters => s.readFilter (.ofText? caller) (.int cap) >>= fun access =>
          RowSearch.answer s (q.criteria k ++ filters.map .properties) limit access := by
  have hchecked : RowSearch.checkLimit (q.search k caller limit).limit = .ok limit :=
    RowSearch.checkLimit_eq_ok_iff.2 ⟨rfl, hlimit⟩
  rw [RowSearch.run_eq_bind, hchecked, ok_bind]
  rfl

end Store

end VersionedGraph
