import VersionedGraph.Proofs.Attachment
import VersionedGraph.Proofs.Canonical
import VersionedGraph.Proofs.ReadBack

/-!
# What writes answer

A creation answers with the columns that it proposed, and a change with the new version as it is
read back. Columns with values of their own types are read back as they were proposed
(`Columns.Settled.exists_record`), so either answer is what is found from then on by its id and by
every id of its chain (`Store.HandsOut`).

What a creation proposes is what was supplied, apart from values that hold nothing: the id that is
the empty text and the time that is zero count as left out, and are replaced by the generated id and
the time of the write.
-/

namespace VersionedGraph

namespace Json

/-! Values of one type. -/

def IsText (v : Json) : Prop :=
  ∃ s, v = .str s

def IsInteger (v : Json) : Prop :=
  ∃ n, v = .int n

/-- An object that some JSON text stands for, without doubles. -/
structure IsExactObject (v : Json) : Prop where
  isObject : ∃ fields, v = .obj fields
  isDenoted : v.isDenoted = true
  isExact : v.isExact = true

theorem isExactObject_empty : (Json.obj []).IsExactObject :=
  ⟨⟨[], rfl⟩, rfl, rfl⟩

/-- A default has the type of the values that it stands in for. -/
theorem orElse_of {P : Json → Prop} {v default : Json} (hv : v = .null ∨ P v)
    (hdefault : P default) : P (v.orElse default) := by
  unfold orElse
  split
  · exact hdefault
  · next hvacant =>
    rcases hv with rfl | hv
    · exact absurd rfl hvacant
    · exact hv

theorem orElse_str (s : LooseText) (default : Json) :
    (Json.str s).orElse default = if s.isEmpty then default else .str s :=
  rfl

theorem orElse_int (n : Int) (default : Json) :
    (Json.int n).orElse default = if n = 0 then default else .int n := by
  simp [orElse, isVacant]

theorem orElse_empty {v : Json} (hv : v = .null ∨ v.IsExactObject) :
    v.orElse (.obj []) = if v.isNull then .obj [] else v := by
  rcases hv with rfl | ⟨⟨fields, rfl⟩, _, _⟩
  · rfl
  · cases fields <;> rfl

/-! What columns keep of such values. -/

theorem str_replaced_of_handed {s : LooseText} (h : (Json.str s).bindFault? 1 = none) :
    Json.str s.replaced = .str s :=
  congrArg Json.str (LooseText.ofString_replaced (Option.map_eq_none_iff.1 h))

theorem ofText?_columnText? {v : Json} (hv : v = .null ∨ v.IsText)
    (h : v.bindFault? 1 = none) : ofText? v.columnText? = v := by
  rcases hv with rfl | ⟨s, rfl⟩
  · rfl
  · exact str_replaced_of_handed h

theorem str_of_columnText? {v : Json} (hv : v.IsText) (h : v.bindFault? 1 = none) {text : String}
    (htext : v.columnText? = some text) : Json.str text = v := by
  rw [← ofText?_columnText? (.inr hv) h, htext]
  rfl

theorem toJson_of_cell? {v : Json} (hv : v.IsInteger) {cell : Cell} (hcell : v.cell? = some cell) :
    cell.toJson = v := by
  obtain ⟨n, rfl⟩ := hv
  rw [← Option.some.inj hcell]
  rfl

theorem ofInt?_cell? {v : Json} (hv : v = .null ∨ v.IsInteger) :
    ofInt? (v.cell?.bind Cell.integer?) = v := by
  rcases hv with rfl | ⟨n, rfl⟩ <;> rfl

theorem readProperties_storedText {v : Json} (hdenoted : v.isDenoted = true)
    (hexact : v.isExact = true) (hwithin : v.excess? .forValues = none) :
    readProperties (storedText v) = .ok v := by
  have hsome : (storedText v).isEmpty = false := by
    obtain ⟨c, cs, hwrite, _⟩ := exists_write_eq_cons v
    rw [storedText, hwrite]
    simp
  rw [readProperties, hsome, read_storedText hdenoted hexact hwithin]
  rfl

end Json

theorem Kind.endValues_of_settleEnds {k : Kind} {ends : k.Ends Json} {kept : k.Ends String}
    (h : k.settleEnds ends = .ok kept) (htexts : ∀ v ∈ k.endList ends, v.IsText)
    (hhanded : ∀ v ∈ k.endList ends, v.bindFault? 1 = none) : k.endValues kept = ends := by
  cases k with
  | entity => rfl
  | link =>
    obtain ⟨source, target⟩ := ends
    have hkeeps {v : Json} (hv : v ∈ Kind.link.endList ⟨source, target⟩) {text : String}
        (htext : v.columnText? = some text) : Json.str text = v :=
      Json.str_of_columnText? (htexts v hv) (hhanded v hv) htext
    simp only [settleEnds] at h
    split at h
    · cases h
    · cases h
    · next sourceText targetText hsource htarget =>
      cases h
      rw [endValues, hkeeps List.mem_cons_self hsource,
        hkeeps (List.mem_cons_of_mem _ List.mem_cons_self) htarget]

namespace Columns

variable {k : Kind} {c : Columns k} {row : ListedRow k}

/-- Columns hold values of their own types. -/
structure IsTyped (c : Columns k) : Prop where
  id : c.id.IsText
  typeId : c.typeId.IsText
  ends : ∀ v ∈ k.endList c.ends, v.IsText
  properties : c.properties.IsExactObject
  version : c.version.IsInteger
  previous : c.previous = .null ∨ c.previous.IsText
  createdAt : c.createdAt.IsInteger
  createdBy : c.createdBy = .null ∨ c.createdBy.IsText
  isDeleted : ∃ b, c.isDeleted = .bool b
  isLatest : ∃ b, c.isLatest = .bool b
  acl : c.acl = .null ∨ c.acl.IsInteger

theorem Settled.readProperties_eq (h : c.Settled row) (hproperties : c.properties.IsExactObject) :
    readProperties row.properties = .ok c.properties := by
  have hwithin : c.properties.excess? .forValues = none := Option.map_eq_none_iff.1 h.written
  have htext : row.properties = Json.storedText c.properties := by
    obtain ⟨fields, hfields⟩ := hproperties.isObject
    rw [h.properties, hfields]
    exact LooseText.replaced_ofString _
  rw [htext, Json.readProperties_storedText hproperties.isDenoted hproperties.isExact hwithin]

/-- Columns with values of their own types are read back as they were proposed. -/
theorem Settled.exists_record (h : c.Settled row) (htyped : c.IsTyped) {id : String}
    (hid : row.id = some id) :
    ∃ r : Record k, (row.withId id : Row k).decode = .ok r ∧ r.columns = c := by
  refine ⟨(row.withId id).withProperties c.properties, Version.decode_eq_ok_iff.2
    ⟨c.properties, h.readProperties_eq htyped.properties, rfl⟩, ?_⟩
  have hhanded (v : Json) (hv : v ∈ c.parameters) : v.bindFault? 1 = none :=
    Json.handOver_eq_ok_iff.1 h.handed v hv
  have hidText : Json.str id = c.id :=
    Json.str_of_columnText? htyped.id (hhanded _ (by simp [parameters])) (h.id.symm.trans hid)
  have htypeId : Json.str row.typeId = c.typeId :=
    Json.str_of_columnText? htyped.typeId (hhanded _ (by simp [parameters])) h.typeId
  have hends : k.endValues row.ends = c.ends :=
    Kind.endValues_of_settleEnds h.ends htyped.ends fun v hv =>
      hhanded v (by simp [parameters, hv])
  have hprevious : Json.ofText? row.previous = c.previous := by
    rw [h.previous]
    exact Json.ofText?_columnText? htyped.previous (hhanded _ (by simp [parameters]))
  have hcreatedBy : Json.ofText? row.createdBy = c.createdBy := by
    rw [h.createdBy]
    exact Json.ofText?_columnText? htyped.createdBy (hhanded _ (by simp [parameters]))
  have hisDeleted : Json.bool row.isDeleted = c.isDeleted := by
    obtain ⟨b, hb⟩ := htyped.isDeleted
    rw [h.isDeleted, hb, Json.isVacant, Bool.not_not]
  have hisLatest : Json.bool row.isLatest = c.isLatest := by
    obtain ⟨b, hb⟩ := htyped.isLatest
    rw [h.isLatest, hb, Json.isVacant, Bool.not_not]
  have hacl : Json.ofInt? row.acl = c.acl := by
    rw [h.acl]
    exact Json.ofInt?_cell? htyped.acl
  have hversion := Json.toJson_of_cell? htyped.version h.version
  have hcreatedAt := Json.toJson_of_cell? htyped.createdAt h.createdAt
  cases c
  exact (Columns.mk.injEq ..).mpr ⟨hidText, htypeId, hends, rfl, hversion, hprevious, hcreatedAt,
    hcreatedBy, hisDeleted, hisLatest, hacl⟩

end Columns

namespace Creation

variable {k : Kind} {c : Creation k}

/-- What is supplied has the types that are asked for, and the rest is left out. An integer without
a 64-bit form has its type too, and is refused. -/
structure IsTyped (c : Creation k) : Prop where
  typeId : c.typeId.IsText
  ends : ∀ v ∈ k.endList c.ends, v.IsText
  properties : c.properties = .null ∨ c.properties.IsExactObject
  createdBy : c.createdBy = .null ∨ c.createdBy.IsText
  acl : c.acl = .null ∨ c.acl.IsInteger
  id : c.id = .null ∨ c.id.IsText
  createdAt : c.createdAt = .null ∨ c.createdAt.IsInteger

theorem IsTyped.columns (h : c.IsTyped) (stamp : Stamp) : (c.columns stamp).IsTyped where
  id := Json.orElse_of h.id ⟨_, rfl⟩
  typeId := h.typeId
  ends := h.ends
  properties := Json.orElse_of h.properties Json.isExactObject_empty
  version := ⟨1, rfl⟩
  previous := .inl rfl
  createdAt := Json.orElse_of h.createdAt ⟨_, rfl⟩
  createdBy := h.createdBy
  isDeleted := ⟨false, rfl⟩
  isLatest := ⟨true, rfl⟩
  acl := h.acl

end Creation

namespace Store

/-- A record is what some latest row is read as. -/
def HoldsLatest (s : Store) {k : Kind} (r : Record k) : Prop :=
  ∃ row ∈ s.rows k, row.isLatest = true ∧ row.decode = .ok r

/-- A record is what is found by its own id, and as the latest version by every id of its chain. -/
structure HandsOut (s : Store) {k : Kind} (r : Record k) : Prop where
  exact : s.getExact k (.str r.id) = .ok (some r)
  latest : ∀ id, s.SameChain k id r.id → s.getLatest k (.str id) = .ok (some r)

theorem Versioned.handsOut {s : Store} {k : Kind} (h : s.Versioned k) {r : Record k}
    (hr : s.HoldsLatest r) : s.HandsOut r := by
  obtain ⟨row, hrow, hlatest, hdecode⟩ := hr
  have hid : row.id = r.id := by
    obtain ⟨_, _, rfl⟩ := Version.decode_eq_ok_iff.1 hdecode
    rfl
  constructor
  · rw [← hid, h.getExact_self hrow, hdecode]
    rfl
  · intro id hchain
    rw [← hid] at hchain
    have hfound := h.latest?_eq_some_iff.2 ⟨hrow, hlatest, hchain⟩
    rw [getLatest_of_latest? (Json.lookupText_str id) hfound, hdecode]
    rfl

end Store

namespace Action

variable {k : Kind} {s t : Store} {stamp : Stamp}

theorem exists_holdsLatest_of_create {c : Creation k} (htyped : c.IsTyped) {columns : Columns k}
    (h : (create c stamp).Yields s columns t) :
    ∃ r : Record k, t.HoldsLatest r ∧ r.columns = columns := by
  obtain ⟨-, rfl, row, hinsert⟩ := create_yields_iff.1 h
  obtain ⟨hsettled, -, -, -, rfl⟩ := insert_yields_iff.1 hinsert
  have hcolumns := htyped.columns stamp
  obtain ⟨text, htext⟩ := hcolumns.id
  have hid : row.id = some text.replaced := by
    rw [hsettled.id, htext]
    rfl
  obtain ⟨r, hdecode, hr⟩ := hsettled.exists_record hcolumns hid
  refine ⟨r, ⟨row.withId text.replaced, ?_, hsettled.isLatest, hdecode⟩, hr⟩
  rw [Store.addListed_of_id_eq_some hid, Store.rows_addRow]
  exact List.mem_append_right _ List.mem_cons_self

/-- An atomic write whose answer is the row that it ends with. -/
theorem holdsLatest_of_read {x : Action (Row k)}
    (hlatest : ∀ row t, x.Yields s row t → row ∈ t.rows k ∧ row.isLatest = true) {r : Record k}
    (h : (atomically x >>= fun row => liftM row.decode : Action (Record k)).Yields s r t) :
    t.HoldsLatest r := by
  simp only [yields_bind, yields_atomically, yields_lift] at h
  obtain ⟨row, _, hrow, hdecode, rfl⟩ := h
  obtain ⟨hmem, hmarked⟩ := hlatest row _ hrow
  exact ⟨row, hmem, hmarked, hdecode⟩

theorem holdsLatest_of_change {id : Json} {objection? : Row k → Option Fault} {c : Change}
    {actor : Json} {r : Record k} (h : (change k id objection? c actor stamp).Yields s r t) :
    t.HoldsLatest r := by
  rw [change_eq] at h
  exact holdsLatest_of_read (fun _ _ => latest_of_changeRow) h

theorem holdsLatest_of_setAcl {id acl actor : Json} {r : Record k}
    (h : (setAcl k id acl actor stamp).Yields s r t) : t.HoldsLatest r := by
  rw [setAcl_eq] at h
  exact holdsLatest_of_read (fun _ _ => latest_of_setAclRow) h

end Action

namespace Store

variable {s : Store}

/-- What an operation leaves as a latest row is handed out from then on. -/
theorem Reachable.handsOut (h : s.Reachable) {o : Operation} {stamp : Stamp} {t : Store}
    (ht : o.apply s stamp = t) {k : Kind} {r : Record k} (hr : t.HoldsLatest r) :
    t.HandsOut r := by
  subst ht
  exact ((h.apply o stamp).versioned k).handsOut hr

end Store

end VersionedGraph
