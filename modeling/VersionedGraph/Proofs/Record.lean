import VersionedGraph.Proofs.Chain
import VersionedGraph.Proofs.Outcome

/-!
# What records are handed out

A record is a row of which the properties could be read, and it has all else in common with that
row. Looking a record up finds the row first, so all that goes wrong with a row that exists is its
properties.
-/

namespace VersionedGraph

/-- Rows are read as records that differ in the form of their properties only. -/
theorem Version.decode_eq_ok_iff {ι ε : Type} {row : Version ι ε String}
    {record : Version ι ε Json} : row.decode = .ok record ↔
      ∃ properties, readProperties row.properties = .ok properties ∧
        row.withProperties properties = record := by
  simp only [Version.decode, bind_eq_ok_iff, pure_eq_ok_iff]

/-- All that goes wrong with reading a row is its properties. -/
theorem Version.decode_eq_error_iff {ι ε : Type} {row : Version ι ε String} {f : Fault} :
    row.decode = .error f ↔ readProperties row.properties = .error f := by
  unfold decode
  cases readProperties row.properties <;> simp [bind, Except.bind, pure, Except.pure]

theorem Version.decode_of_empty {ι ε : Type} {row : Version ι ε String}
    (h : row.properties = "{}") : row.decode = .ok (row.withProperties (.obj [])) := by
  have hread : readProperties "{}" = .ok (.obj []) := rfl
  exact decode_eq_ok_iff.2 ⟨.obj [], by rw [h, hread], rfl⟩

theorem Version.exists_of_decode_eq_error {ι ε : Type} {row : Version ι ε String} {f : Fault}
    (h : row.decode = .error f) : ∃ e, f = .unreadable e := by
  rw [decode_eq_error_iff, readProperties] at h
  split at h
  · cases h
  · cases hread : Json.read row.properties with
    | ok properties =>
      rw [hread] at h
      cases h
    | error e =>
      rw [hread] at h
      cases h
      exact ⟨e, rfl⟩

namespace Store

variable {s : Store} {k : Kind} {id : Json} {record : Record k}

theorem mapM_decode_eq_ok_some_iff {row? : Option (Row k)} :
    row?.mapM Version.decode = .ok (some record) ↔
      ∃ row, row? = some row ∧ row.decode = .ok record := by
  cases row? with
  | none =>
    change Except.ok none = Except.ok (some record) ↔ _
    simp
  | some row =>
    change row.decode.map some = Except.ok (some record) ↔ _
    cases hdecode : row.decode with
    | ok record' => simp [Except.map, hdecode]
    | error f => simp [Except.map, hdecode]

theorem getLatest_eq_ok_some_iff :
    s.getLatest k id = .ok (some record) ↔
      ∃ text row, id.lookupText = .ok (some text) ∧ s.latest? k text = some row ∧
        row.decode = .ok record := by
  simp only [getLatest, bind_eq_ok_iff, mapM_decode_eq_ok_some_iff, Option.bind_eq_some_iff]
  constructor
  · rintro ⟨_, htext, row, ⟨text, rfl, hrow⟩, hdecode⟩
    exact ⟨text, row, htext, hrow, hdecode⟩
  · rintro ⟨text, row, htext, hrow, hdecode⟩
    exact ⟨some text, htext, row, ⟨text, rfl, hrow⟩, hdecode⟩

theorem getLatest_of_latest? {text : String} {row : Row k} (htext : id.lookupText = .ok (some text))
    (hrow : s.latest? k text = some row) : s.getLatest k id = row.decode.map some := by
  unfold getLatest
  rw [htext]
  change ((some text).bind (s.latest? k)).mapM Version.decode = _
  rw [Option.bind_some, hrow]
  rfl

/-- A row is found by its own id. -/
theorem Versioned.getExact_self (h : s.Versioned k) {row : Row k} (hrow : row ∈ s.rows k) :
    s.getExact k (.str row.id) = row.decode.map some := by
  unfold getExact
  rw [Json.lookupText_str]
  change ((some row.id).bind (s.row? k)).mapM Version.decode = _
  rw [Option.bind_some, h.row?_eq_some_iff.2 ⟨hrow, rfl⟩]
  rfl

end Store

end VersionedGraph
