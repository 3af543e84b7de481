import Mathlib.Data.List.Infix
import VersionedGraph.Graph.RowSearch
import VersionedGraph.Proofs.Access
import VersionedGraph.Proofs.Alike
import VersionedGraph.Proofs.Latest
import VersionedGraph.Proofs.Noninterference
import VersionedGraph.Proofs.Record

/-!
# What searches for rows list

The rows that meet what a search asks apart from access are ranked newest first. If the query names
the access lists within reach, the search lists the first ones of these that the caller may read.
If it does not, rows are dropped from a limited number of the ranked ones, so what is listed is the
same up to where that number ends.
-/

namespace VersionedGraph

theorem mapM_take {ε α β : Type} {f : α → Except ε β} {items : List α} {results : List β}
    (h : items.mapM f = .ok results) (n : Nat) : (items.take n).mapM f = .ok (results.take n) :=
  mapM_eq_ok_iff.2 (List.forall₂_take n (mapM_eq_ok_iff.1 h))

theorem prefix_of_mapM {ε α β : Type} {f : α → Except ε β} {items items' : List α}
    {results results' : List β} (hitems : items <+: items') (h : items.mapM f = .ok results)
    (h' : items'.mapM f = .ok results') : results <+: results' := by
  have htake := mapM_take h' items.length
  rw [← List.prefix_iff_eq_take.1 hitems, h] at htake
  rw [Except.ok.inj htake]
  exact List.take_prefix _ _

namespace Json

theorem handOver_append {values more : List Json} (hmore : ∀ v ∈ more, ∀ place,
    v.bindFault? place = none) (place : Nat) :
    handOver (values ++ more) place = handOver values place := by
  have hhanded : handOver more (place + values.length) = .ok () :=
    handOver_eq_ok_iff.2 fun v hv => hmore v hv 1
  rw [handOver_append_eq_bind, hhanded]
  exact bind_pure (handOver values place)

end Json

namespace Store

variable {s : Store} {caller : Json} {ids : List Int}

theorem fitsWord_of_mem_aclIdsGranting (h : s.HasIdsForAcls) {principals : List Principal}
    {permissions : List String} {id : Int} (hid : id ∈ s.aclIdsGranting principals permissions) :
    fitsWord id = true := by
  unfold aclIdsGranting at hid
  obtain ⟨⟨_, acl⟩, ha, rfl⟩ := List.mem_map.1 hid
  exact h.fitsWord_of_acl? (mem_numberedAcls_iff.1 (List.mem_filter.1 ha).1)

theorem fitsWord_of_mem_accessibleIds (h : s.HasIdsForAcls) {permission : Permission}
    (hids : s.accessibleIds caller permission = .ok ids) {id : Int} (hid : id ∈ ids) :
    fitsWord id = true := by
  unfold accessibleIds at hids
  split at hids
  · cases hids
    cases hid
  · simp only [bind_eq_ok_iff] at hids
    obtain ⟨_, _, user?, _, hids⟩ := hids
    cases user? with
    | none =>
      cases hids
      cases hid
    | some user =>
      dsimp only at hids
      split at hids
      · cases hids
      · cases hids
        exact fitsWord_of_mem_aclIdsGranting h hid

theorem fitsWord_of_mem_bindings (h : s.HasIdsForAcls) {cap : Json} {access : AclFilter Int}
    (haccess : s.readFilter caller cap = .ok access) {id : Int}
    (hid : id ∈ access.clause.bindings) : fitsWord id = true := by
  simp only [readFilter, bind_eq_ok_iff, mapError_eq_ok_iff] at haccess
  obtain ⟨ids, hids, haccess⟩ := haccess
  rcases Acl.filterFor_cases haccess with ⟨_, rfl⟩ | ⟨_, rfl | rfl⟩
  · cases hid
  · exact fitsWord_of_mem_accessibleIds h hids hid
  · cases hid

/-- Access is left to be looked at afterwards. -/
def Defers (s : Store) (caller cap : Json) : Prop :=
  ∃ access, s.readFilter caller cap = .ok access ∧ access.clause.isInline = false

/-- Limits on the access lists that a query names matter only in whether it names them. -/
theorem readFilter_congr {m n : Int} (h : s.Defers caller (.int m) ↔ s.Defers caller (.int n)) :
    s.readFilter caller (.int m) = s.readFilter caller (.int n) := by
  unfold Defers at h
  unfold readFilter at h ⊢
  cases hids : s.accessibleIds caller .read with
  | error f => rfl
  | ok ids =>
    simp only [hids, ok_bind, mapError_eq_ok_iff] at h ⊢
    obtain ⟨a, ha⟩ := Acl.exists_filterFor_eq_ok ids (!caller.isNull) m
    obtain ⟨b, hb⟩ := Acl.exists_filterFor_eq_ok ids (!caller.isNull) n
    have hinline : a.clause.isInline = b.clause.isInline := by
      rw [ha, hb] at h
      simpa using h
    rw [ha, hb, Acl.eq_of_filterFor ha hb hinline]

/-- What a caller may read is within the reach that a query is given. -/
theorem canRead_iff_isReadable {cap : Json} {access : AclFilter Int}
    (h : s.readFilter caller cap = .ok access) {acl : Option Int} :
    s.CanRead caller acl ↔ Acl.isReadable access.accessible acl = true := by
  rw [← lets_iff_canRead h]
  simp only [readFilter, bind_eq_ok_iff, mapError_eq_ok_iff] at h
  obtain ⟨ids, _, haccess⟩ := h
  exact Acl.lets_iff_isReadable haccess

/-- A clause that is part of a query permits what the caller may read. -/
theorem permits_iff_canRead {cap : Json} {access : AclFilter Int}
    (h : s.readFilter caller cap = .ok access) (hinline : access.clause.isInline = true)
    {acl : Option Int} : access.clause.permits acl = true ↔ s.CanRead caller acl := by
  rw [← lets_iff_canRead h, AclFilter.Lets, hinline]
  simp

end Store

namespace RowSearch

variable {s : Store} {k : Kind} {criteria : List (Criterion k)} {limit : Int}
  {access : AclFilter Int} {user cap : Json} {ranked : List (ListedRow k)}

/-- What a search answers, given all that it asks of rows and how access is checked. -/
def answer (s : Store) (criteria : List (Criterion k)) (limit : Int) (access : AclFilter Int) :
    Except Fault (List (Listing k)) :=
  let criteria := criteria ++ [.access access.clause]
  if access.clause.isInline then s.queryLatest k criteria (.int limit)
  else do
    let rows ← s.queryLatest k criteria (.int fetchLimit)
    let readable := Acl.keepReadable access.accessible (fun row : Listing k => row.acl) rows
    return readable.take limit.toNat

/-- What a search asks of rows apart from access. -/
def Matches (r : RowSearch k) (row : ListedRow k) : Prop :=
  Criterion.AllMet r.columnCriteria row ∧ ∀ f, r.filter = some f →
    ∃ c, f.compile (.str k.rowName) = .ok c ∧ c.holdsOn row.properties = .ok true

theorem allMet_iff_matches {r : RowSearch k} {filters : List CompiledFilter}
    (h : r.filter.toList.mapM (fun f => f.compile (.str k.rowName)) = .ok filters)
    {row : ListedRow k} :
    Criterion.AllMet (r.columnCriteria ++ filters.map .properties) row ↔ r.Matches row := by
  unfold Criterion.AllMet Matches
  rw [List.forall_mem_append, List.forall_mem_map]
  refine and_congr_right fun _ => ?_
  constructor
  · intro hholds f hf
    have hmem : f ∈ r.filter.toList := Option.mem_toList.2 hf
    obtain ⟨c, hc, hcompile⟩ := exists_of_mem_of_mapM_eq_ok h hmem
    exact ⟨c, hcompile, hholds c hc⟩
  · intro hholds c hc
    obtain ⟨f, hf, hcompile⟩ := (mem_iff_of_mapM_eq_ok h).1 hc
    obtain ⟨c', hcompile', htrue⟩ := hholds f (Option.mem_toList.1 hf)
    rw [hcompile] at hcompile'
    cases hcompile'
    exact htrue

theorem handOver_access (hids : ∀ id ∈ access.clause.bindings, fitsWord id = true)
    (hlimit : fitsWord limit = true) :
    Criterion.handOver (criteria ++ [.access access.clause]) (.int limit) =
      criteria.forM Criterion.checkRowName >>= fun _ =>
        Json.handOver (criteria.flatMap Criterion.bound) := by
  have hchecked : (criteria ++ [Criterion.access access.clause]).forM Criterion.checkRowName =
      criteria.forM Criterion.checkRowName :=
    forM_append_of_ok fun c hc => by rw [List.mem_singleton.1 hc]; rfl
  unfold Criterion.handOver
  rw [hchecked, List.flatMap_append, List.append_assoc, Json.handOver_append]
  intro v hv place
  rcases List.mem_append.1 hv with hv | hv
  · have hbound : v ∈ access.clause.bindings.map Json.int := by
      simpa [Criterion.bound] using hv
    obtain ⟨id, hid, rfl⟩ := List.mem_map.1 hbound
    exact Json.bindFault?_int (hids id hid) place
  · rw [List.mem_singleton.1 hv]
    exact Json.bindFault?_int hlimit place

/-- The fault of a search that cannot evaluate its filter or cannot read a row that it ranks. -/
def Fails (ranked : List (ListedRow k)) (f : Fault) : Prop :=
  (∃ e, f = .evaluation e) ∨ ∃ row ∈ ranked, row.decode = .error f

/-- What is asked before any row is looked at. -/
def ask (criteria : List (Criterion k)) : Except Fault Unit := do
  criteria.forM Criterion.checkRowName
  Json.handOver (criteria.flatMap Criterion.bound)

theorem queryLatest_access_cases (s : Store) (criteria : List (Criterion k))
    (hids : ∀ id ∈ access.clause.bindings, fitsWord id = true) (hpos : 0 < limit)
    (hlimit : fitsWord limit = true) :
    (∃ f, ask criteria = .error f ∧
      s.queryLatest k (criteria ++ [.access access.clause]) (.int limit) = .error f) ∨
    ask criteria = .ok () ∧
      ((∃ e, s.queryLatest k (criteria ++ [.access access.clause]) (.int limit) =
        .error (.evaluation e)) ∨
      ∃ found, s.Ranks k (fun row => Criterion.AllMet criteria row ∧
          access.clause.permits row.acl = true) found ∧
        s.queryLatest k (criteria ++ [.access access.clause]) (.int limit) =
          (found.take limit.toNat).mapM Version.decode) := by
  have hcases := s.queryLatest_cases (criteria ++ [.access access.clause]) hpos
  rw [handOver_access hids hlimit] at hcases
  rcases hcases with hrefused | ⟨hasked, ⟨f, ⟨row, _, c, _, hfails⟩, hf⟩ | ⟨found, hranks, hfound⟩⟩
  · exact .inl hrefused
  · obtain ⟨_, e, rfl⟩ := Criterion.evaluation_of_holds_eq_error hfails
    exact .inr ⟨hasked, .inl ⟨e, hf⟩⟩
  · refine .inr ⟨hasked, .inr ⟨found, hranks.congr fun row => ?_, hfound⟩⟩
    unfold Criterion.AllMet
    rw [List.forall_mem_append, List.forall_mem_singleton]
    exact and_congr_right fun _ => by rw [Criterion.holds, Except.ok.injEq]

theorem Fails.of_mapM {rows : List (ListedRow k)} (hrows : ∀ row ∈ rows, row ∈ ranked) {f : Fault}
    (h : rows.mapM Version.decode = .error f) : Fails ranked f := by
  obtain ⟨row, hrow, hf⟩ := exists_mem_of_mapM_eq_error h
  exact .inr ⟨row, hrows row hrow, hf⟩

theorem acl_of_decode {row : ListedRow k} {listing : Listing k} (h : row.decode = .ok listing) :
    listing.acl = row.acl := by
  obtain ⟨_, _, rfl⟩ := Version.decode_eq_ok_iff.1 h
  rfl

theorem answer_of_inline (hinline : access.clause.isInline = true) :
    answer s criteria limit access =
      s.queryLatest k (criteria ++ [.access access.clause]) (.int limit) := by
  unfold answer
  rw [hinline]
  rfl

theorem answer_of_deferred (hdeferred : access.clause.isInline = false) :
    answer s criteria limit access =
      (s.queryLatest k (criteria ++ [.access access.clause]) (.int fetchLimit)).map fun rows =>
        (rows.filter fun row => Acl.isReadable access.accessible row.acl).take limit.toNat := by
  unfold answer
  rw [hdeferred]
  dsimp only
  cases s.queryLatest k (criteria ++ [.access access.clause]) (.int fetchLimit) <;> rfl

/-- What comes of reading the rows that were fetched and then dropping those that the caller may
not read. -/
theorem read_then_drop {rows : List (ListedRow k)} {listings : List (Listing k)}
    (h : rows.mapM Version.decode = .ok listings) (accessible : List Int) :
    (rows.filter fun row => Acl.isReadable accessible row.acl).mapM Version.decode =
      .ok (listings.filter fun listing => Acl.isReadable accessible listing.acl) := by
  have hkept (row : ListedRow k) (_ : row ∈ rows) (listing : Listing k)
      (hdecode : row.decode = .ok listing) :
      Acl.isReadable accessible listing.acl = Acl.isReadable accessible row.acl := by
    rw [acl_of_decode hdecode]
  rcases mapM_filter_cases hkept with ⟨_, _, _, _, _, hfails⟩ | hmap
  · rw [h] at hfails
    cases hfails
  · rw [← hmap, h]
    rfl

section

variable (h : s.Versioned k) (huntied : s.Untied k) (hids : s.HasIdsForAcls)
  (haccess : s.readFilter user cap = .ok access)
  (hranks : s.Ranks k (Criterion.AllMet criteria) ranked)

include h huntied hids haccess hranks

theorem answer_inline_cases (hinline : access.clause.isInline = true) (hpos : 0 < limit)
    (hlimit : fitsWord limit = true) :
    (∃ f, ask criteria = .error f ∧ answer s criteria limit access = .error f) ∨
    ask criteria = .ok () ∧
      ((∃ f, Fails ranked f ∧ answer s criteria limit access = .error f) ∨
      ∃ rows, answer s criteria limit access = .ok rows ∧
        ((ranked.filter fun row => Acl.isReadable access.accessible row.acl).take
          limit.toNat).mapM Version.decode = .ok rows) := by
  have hbindings : ∀ id ∈ access.clause.bindings, fitsWord id = true :=
    fun id hid => Store.fitsWord_of_mem_bindings hids haccess hid
  rw [answer_of_inline hinline]
  rcases queryLatest_access_cases s criteria hbindings hpos hlimit with
    hrefused | ⟨hasked, ⟨e, hf⟩ | ⟨found, hfound, hanswer⟩⟩
  · exact .inl hrefused
  · exact .inr ⟨hasked, .inl ⟨_, .inl ⟨e, rfl⟩, hf⟩⟩
  · have hpermits (acl : Option Int) : access.clause.permits acl = true ↔
        Acl.isReadable access.accessible acl = true := by
      rw [← Store.canRead_iff_isReadable haccess, ← Store.lets_iff_canRead haccess, AclFilter.Lets,
        hinline]
      simp
    have hsame : found = ranked.filter fun row => Acl.isReadable access.accessible row.acl :=
      hfound.unique h huntied (hranks.filter.congr fun row => and_congr_right fun _ =>
        (hpermits row.acl).symm)
    rw [hsame] at hanswer
    rw [hanswer]
    refine .inr ⟨hasked, ?_⟩
    cases hrows : ((ranked.filter fun row => Acl.isReadable access.accessible row.acl).take
        limit.toNat).mapM Version.decode with
    | error f =>
      refine .inl ⟨f, Fails.of_mapM (fun row hrow => ?_) hrows, rfl⟩
      exact (List.mem_filter.1 (List.mem_of_mem_take hrow)).1
    | ok rows => exact .inr ⟨rows, rfl, rfl⟩

theorem answer_deferred_cases (hdeferred : access.clause.isInline = false) :
    (∃ f, ask criteria = .error f ∧ answer s criteria limit access = .error f) ∨
    ask criteria = .ok () ∧
      ((∃ f, Fails ranked f ∧ answer s criteria limit access = .error f) ∨
      ∃ rows, answer s criteria limit access = .ok rows ∧
        (((ranked.take fetchLimit.toNat).filter fun row =>
          Acl.isReadable access.accessible row.acl).take limit.toNat).mapM Version.decode =
            .ok rows) := by
  have hbindings : ∀ id ∈ access.clause.bindings, fitsWord id = true :=
    fun id hid => Store.fitsWord_of_mem_bindings hids haccess hid
  have hclause : access.clause = .deferred := by
    cases hclause : access.clause <;> rw [hclause] at hdeferred <;> first | rfl | cases hdeferred
  have hfetch : 0 < fetchLimit ∧ fitsWord fetchLimit = true := by decide
  rw [answer_of_deferred hdeferred]
  rcases queryLatest_access_cases s criteria hbindings hfetch.1 hfetch.2 with
    ⟨f, hrefused, hf⟩ | ⟨hasked, ⟨e, hf⟩ | ⟨found, hfound, hanswer⟩⟩
  · rw [hf]
    exact .inl ⟨f, hrefused, rfl⟩
  · rw [hf]
    exact .inr ⟨hasked, .inl ⟨_, .inl ⟨e, rfl⟩, rfl⟩⟩
  · have hsame : found = ranked :=
      hfound.unique h huntied (hranks.congr fun row => by simp [hclause])
    rw [hsame] at hanswer
    rw [hanswer]
    refine .inr ⟨hasked, ?_⟩
    cases hrows : (ranked.take fetchLimit.toNat).mapM Version.decode with
    | error f => exact .inl ⟨f, Fails.of_mapM (fun row => List.mem_of_mem_take) hrows, rfl⟩
    | ok rows => exact .inr ⟨_, rfl, mapM_take (read_then_drop hrows access.accessible) _⟩

end

theorem checkLimit_eq_ok_iff {value : Json} :
    checkLimit value = .ok limit ↔ value = .int limit ∧ 1 ≤ limit ∧ limit ≤ maxLimit := by
  cases value with
  | int n =>
    simp only [checkLimit, Bool.and_eq_true, decide_eq_true_eq, Json.int.injEq]
    split
    · next hn =>
      rw [Except.ok.injEq]
      exact ⟨fun heq => ⟨heq, heq ▸ hn⟩, And.left⟩
    · next hn =>
      constructor
      · intro heq
        cases heq
      · rintro ⟨rfl, hlimit⟩
        exact absurd hlimit hn
  | _ => simp [checkLimit]

theorem run_eq_bind (s : Store) (cap : Json) (r : RowSearch k) :
    r.run s cap = checkLimit r.limit >>= fun limit =>
      (r.filter.toList.mapM fun f : FilterExpr => f.compile (.str k.rowName)).mapError .filter >>=
        fun filters : List CompiledFilter => s.readFilter r.user cap >>= fun access =>
          answer s (r.columnCriteria ++ filters.map .properties) limit access := rfl

/-- What is listed from some of the ranked rows comes first in what is listed from all of them, and
is all of it if these are all, or if it is as much as was asked for. -/
theorem prefix_of_listed {fetched n : Nat} {p : ListedRow k → Bool}
    {rows rows' : List (Listing k)}
    (h : (((ranked.take fetched).filter p).take n).mapM Version.decode = .ok rows)
    (h' : ((ranked.filter p).take n).mapM Version.decode = .ok rows') :
    rows <+: rows' ∧ (ranked.length ≤ fetched ∨ rows.length = n → rows = rows') := by
  have hbegins : rows <+: rows' :=
    prefix_of_mapM (List.IsPrefix.take ((List.take_prefix fetched ranked).filter p) n) h h'
  refine ⟨hbegins, ?_⟩
  rintro (hall | hfull)
  · rw [List.take_of_length_le hall, h'] at h
    exact (Except.ok.inj h).symm
  · refine hbegins.eq_of_length_le ?_
    rw [← (mapM_eq_ok_iff.1 h').length_eq, hfull]
    exact List.length_take_le n _

theorem answers_alike (h : s.Versioned k) (huntied : s.Untied k) (hids : s.HasIdsForAcls)
    {access' : AclFilter Int} {cap' : Json} (haccess : s.readFilter user cap = .ok access)
    (haccess' : s.readFilter user cap' = .ok access')
    (hdeferred : access.clause.isInline = false) (hinline : access'.clause.isInline = true)
    (hranks : s.Ranks k (Criterion.AllMet criteria) ranked) (hpos : 0 < limit)
    (hlimit : fitsWord limit = true) :
    Alike (Fails ranked) (Fails ranked)
      (fun rows rows' => rows <+: rows' ∧
        (ranked.length ≤ fetchLimit.toNat ∨ rows.length = limit.toNat → rows = rows'))
      (answer s criteria limit access) (answer s criteria limit access') := by
  have hsame : (fun row : ListedRow k => Acl.isReadable access.accessible row.acl) =
      fun row => Acl.isReadable access'.accessible row.acl := funext fun row => by
    rw [Bool.eq_iff_iff, ← Store.canRead_iff_isReadable haccess,
      ← Store.canRead_iff_isReadable haccess']
  rcases answer_deferred_cases h huntied hids haccess hranks hdeferred with
    ⟨f, hasked, hf⟩ | ⟨hasked, ⟨f, hfails, hf⟩ | ⟨rows, hrows, hlisted⟩⟩
  · rcases answer_inline_cases h huntied hids haccess' hranks hinline hpos hlimit with
      ⟨f', hasked', hf'⟩ | ⟨hasked', _⟩
    · rw [hasked] at hasked'
      cases hasked'
      rw [hf, hf']
      exact .error f
    · rw [hasked] at hasked'
      cases hasked'
  · rw [hf]
    exact .left hfails _
  · rcases answer_inline_cases h huntied hids haccess' hranks hinline hpos hlimit with
      ⟨f', hasked', _⟩ | ⟨_, ⟨f', hfails', hf'⟩ | ⟨rows', hrows', hlisted'⟩⟩
    · rw [hasked] at hasked'
      cases hasked'
    · rw [hf']
      exact .right _ hfails'
    · rw [hrows, hrows']
      rw [hsame] at hlisted
      exact .ok (prefix_of_listed hlisted hlisted')

end RowSearch

namespace Store

variable {s : Store} {k : Kind}

/-- The newest note that the first user may read. -/
def newest : RowSearch .entity := { user := .str "u", limit := .int 1 }

def openNote : Row .entity :=
  ⟨"a", "note", (), "{}", .integer 1, none, .integer 3, none, false, true, none⟩

def barredNote (i : Nat) : Row .entity :=
  ⟨String.ofList (List.replicate (i + 1) 'b'), "note", (), "{}", .integer 1, none, .integer (4 + i),
    none, false, true, some 2⟩

def barredCreation : Creation .entity := { typeId := .str "note", ends := (), acl := .int 2 }

def crowding (n : Nat) : List (Operation × Stamp) :=
  [(.internAcl (grantTo "u"), ⟨"g", 1⟩), (.internAcl (grantTo "v"), ⟨"h", 2⟩),
    (.create (k := .entity) { typeId := .str "note", ends := () }, ⟨"a", 3⟩)] ++
    (List.range n).map fun i => (.create barredCreation, ⟨(barredNote i).id, 4 + i⟩)

/-- What is stored then. -/
def crowded (n : Nat) : Store :=
  { barred "{}" with entities := openNote :: (List.range n).map barredNote, links := [] }

/-- The notes, newest first. -/
def crowd (n : Nat) : List (ListedRow .entity) :=
  ((List.range n).map fun i => (barredNote i).listed).reverse ++ [openNote.listed]

theorem barredNote_id_inj {i j : Nat} (h : (barredNote i).id = (barredNote j).id) : i = j := by
  have hlength := congrArg (fun s : String => s.toList.length) h
  simpa [barredNote] using hlength

theorem row?_crowded (n : Nat) : (crowded n).row? .entity (barredNote n).id = none := by
  rw [row?_eq_none_iff]
  intro r hr heq
  rcases List.mem_cons.1 hr with rfl | hr
  · have hchars := congrArg String.toList heq
    simp [barredNote, openNote, List.replicate_succ] at hchars
  · obtain ⟨i, hi, rfl⟩ := List.mem_map.1 hr
    rw [barredNote_id_inj heq] at hi
    exact absurd (List.mem_range.1 hi) (lt_irrefl n)

theorem handOver_barred {n : Nat} (hn : fitsWord (4 + n) = true) :
    Json.handOver (barredCreation.columns ⟨(barredNote n).id, 4 + n⟩).parameters = .ok () := by
  have hvalues : (barredCreation.columns ⟨(barredNote n).id, 4 + n⟩).parameters =
      [.str (barredNote n).id, .str "note", .str "{}", .int 1, .null, .int (4 + n), .null,
        .bool false, .bool true, .int 2] := rfl
  rw [hvalues, Json.handOver_eq_ok_iff]
  simp only [List.forall_mem_cons]
  exact ⟨Json.bindFault?_str _ 1, Json.bindFault?_str _ 1, Json.bindFault?_str _ 1,
    Json.bindFault?_int (by decide) 1, rfl, Json.bindFault?_int hn 1, rfl, rfl, rfl,
    Json.bindFault?_int (by decide) 1, by simp⟩

theorem settled_barred {n : Nat} (hn : fitsWord (4 + n) = true) :
    (barredCreation.columns ⟨(barredNote n).id, 4 + n⟩).Settled (barredNote n).listed where
  written := rfl
  handed := handOver_barred hn
  id := (Json.columnText?_str _).symm
  typeId := Json.columnText?_str _
  ends := rfl
  properties := (LooseText.replaced_ofString "{}").symm
  version := rfl
  positive := rfl
  previous := rfl
  createdAt := rfl
  createdBy := rfl
  isDeleted := rfl
  isLatest := rfl
  acl := rfl

theorem storeAfter_create_barred {n : Nat} (hn : fitsWord (4 + n) = true) :
    (Action.create barredCreation ⟨(barredNote n).id, 4 + n⟩).storeAfter (crowded n) =
      crowded (n + 1) := by
  have hadd : (crowded n).addListed (barredNote n).listed = crowded (n + 1) := by
    rw [addListed_of_id_eq_some rfl]
    unfold crowded addRow
    rw [List.range_succ, List.map_append]
    rfl
  have hinsert : (Action.insert (barredCreation.columns ⟨(barredNote n).id, 4 + n⟩)).Yields
      (crowded n) (barredNote n).listed (crowded (n + 1)) :=
    Action.insert_yields_iff.2 ⟨settled_barred hn, row?_crowded n, rfl, rfl, hadd⟩
  have hcreate : (Action.create barredCreation ⟨(barredNote n).id, 4 + n⟩).Yields (crowded n)
      (barredCreation.columns ⟨(barredNote n).id, 4 + n⟩) (crowded (n + 1)) :=
    Action.create_yields_iff.2 ⟨rfl, rfl, _, hinsert⟩
  exact Action.storeAfter_of_yields hcreate

theorem after_crowding {n : Nat} (hn : (n : Int) + 4 < wordBound) :
    empty.after (crowding n) = crowded n := by
  induction n with
  | zero =>
    have hlog : crowding 0 = (.internAcl (grantTo "u"), ⟨"g", 1⟩) ::
        (.internAcl (grantTo "v"), ⟨"h", 2⟩) ::
          [(.create (k := .entity) { typeId := .str "note", ends := () }, ⟨"a", 3⟩)] := rfl
    rw [hlog, after_granting]
    decide +kernel
  | succ n ih =>
    have hlog : crowding (n + 1) =
        crowding n ++ [(.create barredCreation, ⟨(barredNote n).id, 4 + n⟩)] := by
      unfold crowding
      rw [List.range_succ, List.map_append, List.append_assoc]
      rfl
    rw [hlog, after_append, ih (by push_cast at hn; omega)]
    refine storeAfter_create_barred ?_
    simp only [fitsWord, Bool.and_eq_true, decide_eq_true_eq]
    have : 0 ≤ wordBound := by decide
    push_cast at hn
    omega

theorem latestRows_crowded (n : Nat) : (crowded n).latestRows .entity =
    openNote.listed :: (List.range n).map fun i => (barredNote i).listed := by
  have hall : (List.range n).filter ((·.isLatest) ∘ Version.listed ∘ barredNote) = List.range n :=
    List.filter_eq_self.2 fun _ _ => rfl
  unfold latestRows
  rw [listedRows_of_unnamed_eq_nil rfl]
  change ((openNote :: (List.range n).map barredNote).map Version.listed).filter _ = _
  rw [List.map_cons, List.map_map, List.filter_cons_of_pos rfl, List.filter_map, hall]
  rfl

theorem ranks_crowded (n : Nat) :
    (crowded n).Ranks .entity (Criterion.AllMet [.undeleted]) (crowd n) := by
  classical
  unfold crowd
  constructor
  · have hmet : ∀ row ∈ (crowded n).latestRows .entity,
        decide (Criterion.AllMet [.undeleted] row) = true := by
      rw [latestRows_crowded]
      simp [Criterion.AllMet, Criterion.holds, openNote, barredNote, Version.listed, Version.withId]
    rw [List.filter_eq_self.2 hmet, latestRows_crowded]
    exact (List.perm_append_singleton _ _).trans (List.Perm.cons _ (List.reverse_perm _))
  · rw [List.pairwise_append, List.pairwise_reverse, List.pairwise_map]
    refine ⟨?_, List.pairwise_singleton _ _, ?_⟩
    · refine List.pairwise_lt_range.imp fun {i j} hij => newerFirst_iff.2 (.inl ?_)
      change compare ((4 : Int) + j) (4 + i) = .gt
      rw [compare_gt_iff_gt]
      omega
    · intro a ha b hb
      obtain ⟨i, _, rfl⟩ := List.mem_map.1 (List.mem_reverse.1 ha)
      rw [List.mem_singleton.1 hb]
      refine newerFirst_iff.2 (.inl ?_)
      change compare ((4 : Int) + i) 3 = .gt
      rw [compare_gt_iff_gt]
      omega

theorem queryLatest_crowded {n : Nat} (hfits : (n : Int) + 4 < wordBound) (clause : AclClause Int)
    (limit : Int) (hlimit : 0 < limit) (hhanded : Criterion.handOver (k := .entity)
      [.undeleted, .access clause] (.int limit) = .ok ()) :
    (crowded n).queryLatest .entity [.undeleted, .access clause] (.int limit) =
      (((crowd n).filter fun row => clause.permits row.acl).take limit.toNat).mapM
        Version.decode := by
  obtain ⟨ranked, hranks, hquery⟩ := queryLatest_of_columns (s := crowded n) hlimit
    (by simp [Criterion.isOnProperties]) hhanded
  have hversioned := Reachable.versioned ⟨_, after_crowding hfits⟩ .entity
  have hcrowd := (ranks_crowded n).filter (q := fun row => clause.permits row.acl)
  have hsame : ranked = (crowd n).filter fun row => clause.permits row.acl := by
    refine hranks.unique hversioned .nil (hcrowd.congr fun row => ?_)
    simp [Criterion.AllMet, Criterion.holds]
  rw [hquery, hsame]

theorem newest_run (s : Store) (cap : Json) : newest.run s cap =
    s.readFilter (.str "u") cap >>= fun access => RowSearch.answer s [.undeleted] 1 access := rfl

/-- Behind ten thousand notes that are fetched and dropped nothing is found. -/
theorem newest_crowded_deferred {n : Nat} (hfits : (n : Int) + 4 < wordBound) (hn : 10000 ≤ n) :
    newest.run (crowded n) (.int 0) = .ok [] := by
  have haccess : (crowded n).readFilter (.str "u") (.int 0) = .ok ⟨.deferred, [1]⟩ := rfl
  have hbarred : ∀ row ∈ (crowd n).take 10000, row.acl = some 2 ∧ row.properties = "{}" := by
    unfold crowd
    rw [List.take_append_of_le_length (by simpa using hn)]
    intro row hrow
    obtain ⟨i, _, rfl⟩ := List.mem_map.1 (List.mem_reverse.1 (List.mem_of_mem_take hrow))
    exact ⟨rfl, rfl⟩
  obtain ⟨listings, hread⟩ := exists_mapM_eq_ok (f := Version.decode) fun row hrow =>
    ⟨_, Version.decode_of_empty (hbarred row hrow).2⟩
  have hnone : ((crowd n).take 10000).filter (fun row => Acl.isReadable [1] row.acl) = [] :=
    List.filter_eq_nil_iff.2 fun row hrow => by simp [(hbarred row hrow).1, Acl.isReadable]
  have hdropped := RowSearch.read_then_drop hread [1]
  rw [hnone, List.mapM_nil, pure_eq_ok_iff] at hdropped
  have hall : (crowd n).filter (fun row => AclClause.deferred.permits row.acl) = crowd n :=
    List.filter_eq_self.2 fun _ _ => rfl
  have hfetched : RowSearch.fetchLimit.toNat = 10000 := rfl
  have hquery := queryLatest_crowded hfits .deferred RowSearch.fetchLimit (by decide) rfl
  rw [hall, hfetched, hread] at hquery
  rw [newest_run, haccess, ok_bind, RowSearch.answer_of_deferred rfl]
  change Except.map _ ((crowded n).queryLatest .entity [.undeleted, .access .deferred] _) = _
  rw [hquery, Except.map, ← hdropped, List.take_nil]

theorem newest_crowded_inline {n : Nat} (hfits : (n : Int) + 4 < wordBound) :
    newest.run (crowded n) (.int 1000) = .ok [openNote.listed.withProperties (.obj [])] := by
  have haccess : (crowded n).readFilter (.str "u") (.int 1000) = .ok ⟨.oneOf [1], [1]⟩ := by
    change (barred "{}").readFilter (.str "u") (.int 1000) = _
    cbv
  have hopen : (crowd n).filter (fun row => (AclClause.oneOf [1]).permits row.acl) =
      [openNote.listed] := by
    unfold crowd
    rw [List.filter_append, List.filter_eq_nil_iff.2]
    · rfl
    · intro row hrow
      obtain ⟨i, _, rfl⟩ := List.mem_map.1 (List.mem_reverse.1 hrow)
      exact Bool.false_ne_true
  have hquery := queryLatest_crowded hfits (.oneOf [1]) 1 (by decide) rfl
  rw [hopen] at hquery
  rw [newest_run, haccess, ok_bind, RowSearch.answer_of_inline rfl]
  exact hquery

end Store

end VersionedGraph
