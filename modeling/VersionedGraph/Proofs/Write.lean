import VersionedGraph.Proofs.Action
import VersionedGraph.Proofs.Outcome
import VersionedGraph.Store.Groups
import VersionedGraph.Store.Interning
import VersionedGraph.Store.Write

/-!
# What writes do to rows

However a write to the rows of a kind is called and whether it succeeds or fails, it does nothing,
adds a first version, or adds the version that follows a latest row, which loses its mark
(`Store.Revised`). Other writes add an access list with a new digest, or touch neither rows nor
access lists and take no group away (`Store.Written`). What all writes keep is read off these cases,
and no later proof looks into a write again.
-/

namespace VersionedGraph

namespace Json

theorem bindFault?_int {n : Int} (h : fitsWord n = true) (place : Nat) :
    (Json.int n).bindFault? place = none := by
  rw [bindFault?, if_pos h]

theorem bindFault?_str (text : String) (place : Nat) : (Json.str text).bindFault? place = none := by
  rw [bindFault?, LooseText.firstHalves?_ofString]
  rfl

/-- Values can be handed over when each of them can be, whatever its place. -/
theorem handOver_eq_ok_iff {values : List Json} {place : Nat} :
    handOver values place = .ok () ↔ ∀ v ∈ values, v.bindFault? 1 = none := by
  have hplace (v : Json) (place : Nat) : v.bindFault? place = none ↔ v.bindFault? 1 = none := by
    cases v <;> simp [bindFault?]
  have hfirst : firstBindFault? place values = none ↔ ∀ v ∈ values, v.bindFault? 1 = none := by
    induction values generalizing place with
    | nil => simp [firstBindFault?]
    | cons v rest ih =>
      rw [List.forall_mem_cons, ← hplace v place, ← @ih (place + 1), firstBindFault?]
      cases v.bindFault? place <;> simp
  rw [← hfirst, handOver]
  cases firstBindFault? place values <;> simp

/-- Values are handed over one after another. -/
theorem handOver_append_eq_bind (values more : List Json) (place : Nat) :
    handOver (values ++ more) place =
      handOver values place >>= fun _ => handOver more (place + values.length) := by
  have hfirst : firstBindFault? place (values ++ more) = (firstBindFault? place values).or
      (firstBindFault? (place + values.length) more) := by
    induction values generalizing place with
    | nil => rfl
    | cons v rest ih =>
      rw [List.cons_append, firstBindFault?, firstBindFault?]
      cases v.bindFault? place with
      | some fault => rfl
      | none =>
        rw [List.length_cons, Nat.add_comm rest.length, ← Nat.add_assoc]
        exact ih (place + 1)
  unfold handOver
  rw [hfirst]
  cases firstBindFault? place values <;> rfl

theorem handOver_texts (texts : List String) (place : Nat) :
    handOver (texts.map fun t : String => Json.str t) place = .ok () := by
  simp [handOver_eq_ok_iff, bindFault?]

end Json

namespace Columns

variable {k : Kind} {c : Columns k} {r : ListedRow k}

/-- Columns can be handed over and propose a row. -/
structure Settled (c : Columns k) (r : ListedRow k) : Prop where
  written : writeFault? c.properties = none
  handed : Json.handOver c.parameters = .ok ()
  id : r.id = c.id.columnText?
  typeId : c.typeId.columnText? = some r.typeId
  ends : k.settleEnds c.ends = .ok r.ends
  properties : r.properties = (document c.properties).replaced
  version : c.version.cell? = some r.version
  positive : r.version.isPositive = true
  previous : r.previous = c.previous.columnText?
  createdAt : c.createdAt.cell? = some r.createdAt
  createdBy : r.createdBy = c.createdBy.columnText?
  isDeleted : r.isDeleted = !c.isDeleted.isVacant
  isLatest : r.isLatest = !c.isLatest.isVacant
  acl : r.acl = c.acl.cell?.bind Cell.integer?

theorem require_eq_ok_iff {α : Type} {column : String} {o : Option α} {a : α} :
    require k column o = .ok a ↔ o = some a := by
  cases o <;> simp [require]

/-- Columns are settled as exactly the row that they propose. -/
theorem settle_eq_ok_iff : c.settle = .ok r ↔ c.Settled r := by
  unfold settle
  cases hwritten : writeFault? c.properties with
  | some fault =>
    refine ⟨nofun, fun h => ?_⟩
    rw [h.written] at hwritten
    cases hwritten
  | none =>
    simp only [bind_eq_ok_iff, require_eq_ok_iff, mapError_eq_ok_iff]
    constructor
    · rintro ⟨_, handed, typeId, htype, ends, hends, version, hversion, createdAt, hcreated, h⟩
      split at h
      · cases h
      · next hpos =>
        rw [pure_eq_ok_iff] at h
        subst h
        simp at hpos
        exact ⟨hwritten, handed, rfl, htype, hends, rfl, hversion, hpos, rfl, hcreated, rfl, rfl,
          rfl, rfl⟩
    · intro h
      refine ⟨(), h.handed, _, h.typeId, _, h.ends, _, h.version, _, h.createdAt, ?_⟩
      rw [if_neg (by simp [h.positive]), pure_eq_ok_iff, ← h.id, ← h.properties, ← h.previous,
        ← h.createdBy, ← h.isDeleted, ← h.isLatest, ← h.acl]

end Columns

namespace Store

def addListed (s : Store) {k : Kind} (row : ListedRow k) : Store :=
  match row.id with
  | some id => s.addRow (row.withId id)
  | none => s.addUnnamed k (row.withId ())

theorem addListed_of_id_eq_some {s : Store} {k : Kind} {row : ListedRow k} {id : String}
    (h : row.id = some id) : s.addListed row = s.addRow (row.withId id) := by
  simp only [addListed, h]

theorem addListed_of_id_eq_none {s : Store} {k : Kind} {row : ListedRow k} (h : row.id = none) :
    s.addListed row = s.addUnnamed k (row.withId ()) := by
  simp only [addListed, h]

theorem latest?_eq_some {s : Store} {k : Kind} {id : String} {r : Row k}
    (h : s.latest? k id = some r) : r ∈ s.rows k ∧ r.isLatest = true := by
  unfold latest? at h
  split at h
  · next row hrow =>
    cases h
    obtain ⟨hfound, hlatest⟩ := Option.filter_eq_some_iff.1 hrow
    exact ⟨List.mem_of_find?_eq_some hfound, hlatest⟩
  · obtain ⟨id', _, hfound⟩ := List.mem_filterMap.1 (List.mem_of_find?_eq_some h)
    exact ⟨List.mem_of_find?_eq_some hfound, List.find?_some h⟩

end Store

theorem Store.row?_clearLatest (s : Store) (k : Kind) (id x : String) :
    (s.clearLatest k id).row? k x = (s.row? k x).map (Store.unmark id) := by
  have hid :
      (fun r : Row k => decide (r.id = x)) ∘ Store.unmark id = fun r => decide (r.id = x) := by
    funext r
    simp
  unfold Store.row?
  rw [Store.rows_clearLatest, List.find?_map, hid]

theorem Change.nextVersion_eq_ok_iff {k : Kind} {change : Change} {r : Row k} {actor : Json}
    {stamp : Stamp} {c : Columns k} :
    change.nextVersion r actor stamp = .ok c ↔
      ∃ version, r.version.next = .ok version ∧
        c = { change.apply r.columns with
              id := .str stamp.id
              version
              previous := .str r.id
              createdAt := .int stamp.time
              createdBy := actor
              isLatest := .bool true } := by
  simp only [Change.nextVersion, bind_eq_ok_iff, mapError_eq_ok_iff, pure_eq_ok_iff]
  constructor
  · rintro ⟨version, hversion, rfl⟩
    exact ⟨version, hversion, rfl⟩
  · rintro ⟨version, hversion, rfl⟩
    exact ⟨version, hversion, rfl⟩

/-- What a row must be like to be changed. Only what is not deleted has its properties replaced, and
a deletion or its undoing changes something. -/
def Change.Suits {k : Kind} (r : Row k) : Change → Prop
  | .properties _ => r.isDeleted = false
  | .deletion isDeleted => r.isDeleted = !isDeleted
  | .acl _ => True

namespace Action

variable {k : Kind} {s t : Store}

theorem insert_yields_iff {c : Columns k} {row : ListedRow k} :
    (insert c).Yields s row t ↔
      c.Settled row ∧ row.id.bind (s.row? k) = none ∧ c.namesAcl = true ∧
        s.hasReferences row = true ∧ s.addListed row = t := by
  unfold insert
  simp only [yields_bind, yields_lift, yields_get, yields_guard, Columns.settle_eq_ok_iff]
  constructor
  · rintro ⟨r, _, ⟨hrow, rfl⟩, _, _, ⟨rfl, rfl⟩, hnew, href, h⟩
    have hdone : r = row ∧ s.addListed r = t := by
      cases hid : r.id with
      | some id =>
        simp only [hid, yields_bind, yields_set, yields_pure] at h
        obtain ⟨_, _, rfl, rfl, rfl⟩ := h
        exact ⟨rfl, Store.addListed_of_id_eq_some hid⟩
      | none =>
        simp only [hid, yields_bind, yields_set, yields_pure] at h
        obtain ⟨_, _, rfl, rfl, rfl⟩ := h
        exact ⟨rfl, Store.addListed_of_id_eq_none hid⟩
    obtain ⟨rfl, rfl⟩ := hdone
    rw [Option.not_isSome_iff_eq_none] at hnew
    simp only [Bool.not_eq_true', Bool.not_eq_false, Bool.and_eq_true] at href
    exact ⟨hrow, hnew, href.1, href.2, rfl⟩
  · rintro ⟨hrow, hnew, hnames, href, rfl⟩
    refine ⟨row, s, ⟨hrow, rfl⟩, s, s, ⟨rfl, rfl⟩, by simp [hnew], by simp [hnames, href], ?_⟩
    cases hid : row.id with
    | some id =>
      simp only [yields_bind, yields_set, yields_pure]
      exact ⟨(), _, rfl, trivial, (Store.addListed_of_id_eq_some hid).symm⟩
    | none =>
      simp only [yields_bind, yields_set, yields_pure]
      exact ⟨(), _, rfl, trivial, (Store.addListed_of_id_eq_none hid).symm⟩

/-- The version that follows a row has the id of the stamp and is added to the store in which the
row has lost its mark. -/
theorem exists_settled_of_succeed_yields {current row : Row k} {change : Change} {actor : Json}
    {stamp : Stamp} (h : (succeed current change actor stamp).Yields s row t) :
    ∃ next, change.nextVersion current actor stamp = .ok next ∧ next.Settled row.listed ∧
      s.row? k row.id = none ∧ (s.clearLatest k current.id).hasReferences row.listed = true ∧
      t = (s.clearLatest k current.id).addRow row := by
  unfold succeed at h
  simp only [yields_bind, yields_lift, yields_modify, yields_pure, insert_yields_iff] at h
  obtain ⟨next, _, ⟨hnext, rfl⟩, _, _, rfl, added, _, ⟨hrow, hnew, _, href, rfl⟩, rfl, rfl⟩ := h
  have hid : added.id = some stamp.id := by
    obtain ⟨version, _, rfl⟩ := Change.nextVersion_eq_ok_iff.1 hnext
    rw [hrow.id, Json.columnText?_str]
  have hlisted : (added.withId stamp.id : Row k).listed = added := by
    unfold Version.listed
    rw [Version.withId_id, ← hid]
    rfl
  rw [hid, Option.bind_some, Store.row?_clearLatest, Option.map_eq_none_iff] at hnew
  refine ⟨next, hnext, ?_, hnew, ?_, Store.addListed_of_id_eq_some hid⟩
  · rw [hlisted]
    exact hrow
  · rw [hlisted]
    exact href

/-- A version that can be settled is added if its id is new and what it names exists. -/
theorem succeed_yields_of_settled {current row : Row k} {change : Change} {actor : Json}
    {stamp : Stamp} {next : Columns k} (hnext : change.nextVersion current actor stamp = .ok next)
    (hsettled : next.Settled row.listed) (hnames : next.namesAcl = true)
    (hnew : s.row? k row.id = none)
    (hreferences : (s.clearLatest k current.id).hasReferences row.listed = true) :
    (succeed current change actor stamp).Yields s row
      ((s.clearLatest k current.id).addRow row) := by
  have hid : row.id = stamp.id := by
    obtain ⟨version, _, rfl⟩ := Change.nextVersion_eq_ok_iff.1 hnext
    exact Option.some.inj (hsettled.id.trans (Json.columnText?_str stamp.id))
  unfold succeed
  simp only [yields_bind, yields_lift, yields_modify, yields_pure, insert_yields_iff]
  refine ⟨next, s, ⟨hnext, rfl⟩, (), _, rfl, row.listed, _, ⟨hsettled, ?_, hnames, hreferences,
    rfl⟩, ?_, rfl⟩
  · rw [Version.listed_id, Option.bind_some, Store.row?_clearLatest, hnew]
    rfl
  · rw [← hid]
    rfl

theorem yields_requireLatest_iff {id : Json} {row : Row k} :
    (requireLatest k id).Yields s row t ↔
      ∃ text, id.lookupText = .ok text ∧ text.bind (s.latest? k) = some row ∧ s = t := by
  unfold requireLatest
  simp only [yields_bind, yields_lift, yields_get]
  constructor
  · rintro ⟨text, _, ⟨htext, rfl⟩, _, _, ⟨rfl, rfl⟩, h⟩
    split at h
    · next r hr =>
      obtain ⟨rfl, rfl⟩ := yields_pure.1 h
      exact ⟨text, htext, hr, rfl⟩
    · exact absurd h not_yields_throw
  · rintro ⟨text, htext, hrow, rfl⟩
    refine ⟨text, s, ⟨htext, rfl⟩, s, s, ⟨rfl, rfl⟩, ?_⟩
    rw [hrow]
    exact yields_pure.2 ⟨rfl, rfl⟩

/-- What a change does before it reads the new version back. -/
def changeRow (k : Kind) (id : Json) (objection? : Row k → Option Fault) (c : Change)
    (actor : Json) (stamp : Stamp) : Action (Row k) := do
  let current ← requireLatest k id
  if let some fault := objection? current then throw fault
  succeed current c actor stamp

theorem change_eq (id : Json) (objection? : Row k → Option Fault) (c : Change) (actor : Json)
    (stamp : Stamp) :
    change k id objection? c actor stamp =
      atomically (changeRow k id objection? c actor stamp) >>= fun row => liftM row.decode :=
  rfl

/-- A change is made to the latest row that is found, to which it has no objection. -/
theorem changeRow_yields_iff {id : Json} {objection? : Row k → Option Fault} {c : Change}
    {actor : Json} {stamp : Stamp} {row : Row k} :
    (changeRow k id objection? c actor stamp).Yields s row t ↔
      ∃ text current, id.lookupText = .ok (some text) ∧ s.latest? k text = some current ∧
        objection? current = none ∧ (succeed current c actor stamp).Yields s row t := by
  simp only [changeRow, yields_bind, yields_requireLatest_iff]
  constructor
  · rintro ⟨current, _, ⟨text?, htext, hcurrent, rfl⟩, h⟩
    obtain ⟨text, rfl, hlatest⟩ := Option.bind_eq_some_iff.1 hcurrent
    cases hobj : objection? current with
    | some fault => simp [hobj] at h
    | none =>
      simp only [hobj] at h
      exact ⟨text, current, htext, hlatest, hobj, h⟩
  · rintro ⟨text, current, htext, hlatest, hobj, h⟩
    refine ⟨current, s, ⟨some text, htext, hlatest, rfl⟩, ?_⟩
    simp only [hobj]
    exact h

theorem exists_succeed_of_changeRow {id : Json} {objection? : Row k → Option Fault} {c : Change}
    {actor : Json} {stamp : Stamp} {row : Row k}
    (h : (changeRow k id objection? c actor stamp).Yields s row t) :
    ∃ current, (∃ id, s.latest? k id = some current) ∧ objection? current = none ∧
      (succeed current c actor stamp).Yields s row t := by
  obtain ⟨text, current, _, hlatest, hobj, h⟩ := changeRow_yields_iff.1 h
  exact ⟨current, ⟨text, hlatest⟩, hobj, h⟩

theorem eq_of_requireAcl_yields {acl : Json} {t : Store} {a : Unit}
    (h : (requireAcl acl).Yields s a t) : s = t := by
  unfold requireAcl at h
  simp only [yields_bind, yields_lift, yields_get] at h
  obtain ⟨_, _, ⟨_, rfl⟩, _, _, ⟨rfl, rfl⟩, h⟩ := h
  split at h
  · exact absurd h not_yields_throw
  · exact (yields_pure.1 h).2

/-- What the giving of an access list does before it reads the row back. -/
def setAclRow (k : Kind) (id acl actor : Json) (stamp : Stamp) : Action (Row k) := do
  let current ← requireLatest k id
  if (Json.ofInt? current.acl).sameAs acl then return current
  if !acl.isNull then requireAcl acl
  succeed current (.acl acl) actor stamp

theorem setAcl_eq (id acl actor : Json) (stamp : Stamp) :
    setAcl k id acl actor stamp =
      atomically (setAclRow k id acl actor stamp) >>= fun row => liftM row.decode :=
  rfl

/-- A latest row that has the access list already is left alone. -/
theorem setAclRow_cases {id acl actor : Json} {stamp : Stamp} {row : Row k}
    (h : (setAclRow k id acl actor stamp).Yields s row t) :
    ∃ current, (∃ id, s.latest? k id = some current) ∧
      (row = current ∧ t = s ∨ (succeed current (.acl acl) actor stamp).Yields s row t) := by
  simp only [setAclRow, yields_bind, yields_requireLatest_iff] at h
  obtain ⟨current, _, ⟨text, _, hcurrent, rfl⟩, h⟩ := h
  obtain ⟨id, _, hlatest⟩ := Option.bind_eq_some_iff.1 hcurrent
  refine ⟨current, ⟨id, hlatest⟩, ?_⟩
  by_cases hsame : (Json.ofInt? current.acl).sameAs acl = true
  · rw [if_pos hsame] at h
    obtain ⟨rfl, rfl⟩ := yields_pure.1 h
    exact .inl ⟨rfl, rfl⟩
  · rw [if_neg hsame] at h
    by_cases hnull : (!acl.isNull) = true
    · rw [if_pos hnull, yields_bind] at h
      obtain ⟨_, _, hacl, h⟩ := h
      rw [← eq_of_requireAcl_yields hacl] at h
      exact .inr h
    · rw [if_neg hnull] at h
      exact .inr h

end Action

/-- A stored list has the digest of some drafts and the entries that they propose. -/
structure AccessList.Keeps (acl : AccessList) (drafts : List AclDraft) : Prop where
  digest : Acl.digest drafts = .ok acl.digest
  entries : AclDraft.settleAll [] (Acl.distinct drafts) = .ok acl.entries

/-- One store comes of another by a write to the rows of a kind: nothing is touched, a first version
is added, or the version that follows a latest row is added and takes over the mark. -/
inductive Store.Revised (s : Store) (k : Kind) : Store → Prop where
  | kept : Revised s k s
  | created (c : Creation k) (stamp : Stamp) (row : ListedRow k)
    (settled : (c.columns stamp).Settled row) (new : row.id.bind (s.row? k) = none)
    (references : s.hasReferences row = true) : Revised s k (s.addListed row)
  | changed (current : Row k) (change : Change) (actor : Json) (stamp : Stamp) (next : Columns k)
    (row : Row k) (latest : ∃ id, s.latest? k id = some current) (suits : change.Suits current)
    (follows : change.nextVersion current actor stamp = .ok next)
    (settled : next.Settled row.listed) (new : s.row? k row.id = none)
    (references : (s.clearLatest k current.id).hasReferences row.listed = true) :
    Revised s k ((s.clearLatest k current.id).addRow row)

/-- A write to rows leaves access lists, groups and memberships alone. -/
theorem Store.Revised.same_aside {s t : Store} {k : Kind} (h : s.Revised k t) :
    t.acls = s.acls ∧ t.groups = s.groups ∧ t.memberships = s.memberships := by
  cases h with
  | kept => exact ⟨rfl, rfl, rfl⟩
  | created _ _ row =>
    unfold Store.addListed
    split <;> cases k <;> exact ⟨rfl, rfl, rfl⟩
  | changed => cases k <;> exact ⟨rfl, rfl, rfl⟩

/-- One store comes of another by a write, which may hand over drafts: neither rows nor access lists
are touched and groups are at most added, a list is added for the drafts since none has their
digest, or the rows of one kind are written to. -/
inductive Store.Written (s : Store) (drafts? : Option (List AclDraft)) : Store → Prop where
  | aside {t : Store} (rows : ∀ k, t.rows k = s.rows k) (unnamed : ∀ k, t.unnamed k = s.unnamed k)
    (acls : t.acls = s.acls) (groups : s.groups <+: t.groups) : Written s drafts? t
  | interned {drafts : List AclDraft} (acl : AccessList) (handed : drafts? = some drafts)
    (keeps : acl.Keeps drafts) (new : s.aclByDigest? acl.digest = none) :
    Written s drafts? { s with acls := s.acls ++ [acl] }
  | revised {k : Kind} {t : Store} (revised : s.Revised k t) : Written s drafts? t

namespace Action

variable {k : Kind} {s t : Store} {drafts? : Option (List AclDraft)}

theorem written_self (s : Store) : s.Written drafts? s :=
  .aside (fun _ => rfl) (fun _ => rfl) rfl (List.prefix_refl _)

/-- What is created is what was proposed, as a row that is added. -/
theorem create_yields_iff {c : Creation k} {stamp : Stamp} {columns : Columns k} :
    (create c stamp).Yields s columns t ↔
      s.checkEndpoints k c.ends = .ok () ∧ c.columns stamp = columns ∧
        ∃ row, (insert (c.columns stamp)).Yields s row t := by
  unfold create
  simp only [yields_atomically, yields_bind, yields_get, yields_lift, yields_pure]
  constructor
  · rintro ⟨_, _, ⟨rfl, rfl⟩, _, _, ⟨hends, rfl⟩, row, _, hrow, rfl, rfl⟩
    exact ⟨hends, rfl, row, hrow⟩
  · rintro ⟨hends, rfl, row, hrow⟩
    exact ⟨s, s, ⟨rfl, rfl⟩, (), s, ⟨hends, rfl⟩, row, t, hrow, rfl, rfl⟩

theorem revised_create (c : Creation k) (stamp : Stamp) :
    s.Revised k ((create c stamp).storeAfter s) := by
  refine storeAfter_atomically .kept ?_
  intro columns t h
  obtain ⟨-, -, row, hinsert⟩ := create_yields_iff.1 (yields_atomically.2 h)
  obtain ⟨hrow, hnew, _, href, rfl⟩ := insert_yields_iff.1 hinsert
  exact .created c stamp row hrow hnew href

theorem revised_of_succeed {current row : Row k} (change : Change) {actor : Json} {stamp : Stamp}
    {t : Store} (hlatest : ∃ id, s.latest? k id = some current) (hsuits : change.Suits current)
    (h : (succeed current change actor stamp).Yields s row t) : s.Revised k t := by
  obtain ⟨next, hnext, hrow, hnew, href, rfl⟩ := exists_settled_of_succeed_yields h
  exact .changed current change actor stamp next row hlatest hsuits hnext hrow hnew href

theorem revised_change {id : Json} {objection? : Row k → Option Fault} {c : Change} {actor : Json}
    {stamp : Stamp} (hsuits : ∀ r, objection? r = none → c.Suits r) :
    s.Revised k ((change k id objection? c actor stamp).storeAfter s) := by
  rw [change_eq, storeAfter_bind_lift]
  refine storeAfter_atomically .kept ?_
  intro row t h
  obtain ⟨current, hlatest, hobj, h⟩ := exists_succeed_of_changeRow h
  exact revised_of_succeed c hlatest (hsuits current hobj) h

theorem revised_setAcl (id acl actor : Json) (stamp : Stamp) :
    s.Revised k ((setAcl k id acl actor stamp).storeAfter s) := by
  rw [setAcl_eq, storeAfter_bind_lift]
  refine storeAfter_atomically .kept ?_
  intro row t h
  obtain ⟨current, hlatest, ⟨rfl, rfl⟩ | h⟩ := setAclRow_cases h
  · exact .kept
  · exact revised_of_succeed (.acl acl) hlatest trivial h

/-! Access lists and groups are kept beside the rows. -/

theorem modify_length_append_singleton {α : Type} (items : List α) (a : α) (f : α → α) :
    (items ++ [a]).modify items.length f = items ++ [f a] := by
  induction items with
  | nil => rfl
  | cons b items ih =>
    rw [List.cons_append, List.length_cons, List.modify_succ_cons, ih, List.cons_append]

section

variable {drafts : List AclDraft} {acl : AccessList} {t : Store}

theorem addAcl_yields_iff {digest : String} {id : Int} :
    (addAcl digest).Yields s id t ↔
      id = s.nextAclId ∧ t = { s with acls := s.acls ++ [⟨digest, []⟩] } := by
  simp only [addAcl, yields_bind, yields_get, yields_set, yields_pure]
  constructor
  · rintro ⟨_, _, ⟨rfl, rfl⟩, _, _, rfl, rfl, rfl⟩
    exact ⟨rfl, rfl⟩
  · rintro ⟨rfl, rfl⟩
    exact ⟨s, s, ⟨rfl, rfl⟩, (), _, rfl, rfl, rfl⟩

/-- The list that was added last is found by its id, and it is the one that gets an entry. -/
theorem addEntry_yields_iff {d : AclDraft} {a : Unit} :
    (addEntry s.nextAclId d).Yields { s with acls := s.acls ++ [acl] } a t ↔
      ∃ entry, d.settle = .ok entry ∧ acl.entries.contains entry = false ∧
        t = { s with acls := s.acls ++ [{ acl with entries := acl.entries ++ [entry] }] } := by
  have hplace : (s.nextAclId - 1).toNat = s.acls.length := by
    unfold Store.nextAclId
    omega
  have hfound : Store.acl? { s with acls := s.acls ++ [acl] } s.nextAclId = some acl := by
    unfold Store.acl?
    rw [if_pos (by unfold Store.nextAclId; omega), hplace]
    simp
  have hadded (entry : AclEntry) :
      Store.withEntry { s with acls := s.acls ++ [acl] } s.nextAclId entry =
        { s with acls := s.acls ++ [{ acl with entries := acl.entries ++ [entry] }] } := by
    unfold Store.withEntry
    rw [hplace, modify_length_append_singleton]
  simp only [addEntry, yields_bind, yields_lift, yields_get, yields_guard, yields_set]
  constructor
  · rintro ⟨entry, _, ⟨hentry, rfl⟩, _, _, ⟨rfl, rfl⟩, hnew, rfl⟩
    rw [hfound, Option.any_some, Bool.not_eq_true] at hnew
    exact ⟨entry, hentry, hnew, hadded entry⟩
  · rintro ⟨entry, hentry, hnew, rfl⟩
    refine ⟨entry, _, ⟨hentry, rfl⟩, _, _, ⟨rfl, rfl⟩, ?_, hadded entry⟩
    rw [hfound, Option.any_some, hnew]
    exact Bool.false_ne_true

/-- Entries that are added one by one are the entries of the drafts together. -/
theorem forM_addEntry_yields_iff {a : Unit} :
    (drafts.forM (addEntry s.nextAclId)).Yields { s with acls := s.acls ++ [acl] } a t ↔
      ∃ entries, AclDraft.settleAll acl.entries drafts = .ok entries ∧
        t = { s with acls := s.acls ++ [{ acl with entries }] } := by
  induction drafts generalizing acl with
  | nil =>
    change (pure ⟨⟩ : Action PUnit).Yields _ a t ↔ _
    rw [yields_pure, AclDraft.settleAll]
    constructor
    · rintro ⟨-, rfl⟩
      exact ⟨acl.entries, rfl, rfl⟩
    · rintro ⟨_, hsame, rfl⟩
      cases hsame
      exact ⟨rfl, rfl⟩
  | cons d rest ih =>
    change (addEntry s.nextAclId d >>= fun _ => rest.forM (addEntry s.nextAclId)).Yields _ a t ↔ _
    simp only [yields_bind, AclDraft.settleAll, bind_eq_ok_iff]
    constructor
    · rintro ⟨_, _, hfirst, hrest⟩
      obtain ⟨entry, hentry, hnew, rfl⟩ := addEntry_yields_iff.1 hfirst
      obtain ⟨entries, hentries, rfl⟩ := ih.1 hrest
      refine ⟨entries, ⟨entry, hentry, ?_⟩, rfl⟩
      rw [hnew, if_neg Bool.false_ne_true]
      exact hentries
    · rintro ⟨entries, ⟨entry, hentry, hentries⟩, rfl⟩
      split at hentries
      · cases hentries
      · next hnew =>
        exact ⟨(), _, addEntry_yields_iff.2 ⟨entry, hentry, by simpa using hnew, rfl⟩,
          ih.2 ⟨entries, hentries, rfl⟩⟩

end

/-- The list of some drafts is the one with their digest, or else one that is added. -/
theorem internAcl_yields_iff {drafts : List AclDraft} (hne : drafts ≠ []) {id : Option Int}
    {t : Store} :
    (internAcl drafts).Yields s id t ↔
      ∃ digest, Acl.digest drafts = .ok digest ∧
        ((∃ n, s.aclByDigest? digest = some n ∧ id = some n ∧ t = s) ∨
          s.aclByDigest? digest = none ∧ id = some s.nextAclId ∧
            ∃ entries, AclDraft.settleAll [] (Acl.distinct drafts) = .ok entries ∧
              t = { s with acls := s.acls ++ [⟨digest, entries⟩] }) := by
  unfold internAcl
  rw [if_neg (by simpa using hne)]
  simp only [yields_atomically, yields_bind, yields_lift, yields_get, mapError_eq_ok_iff]
  constructor
  · rintro ⟨digest, _, ⟨hdigest, rfl⟩, _, _, ⟨rfl, rfl⟩, h⟩
    refine ⟨digest, hdigest, ?_⟩
    split at h
    · next n hfound =>
      obtain ⟨rfl, rfl⟩ := yields_pure.1 h
      exact .inl ⟨n, hfound, rfl, rfl⟩
    · next hnew =>
      simp only [yields_bind, yields_pure, addAcl_yields_iff] at h
      obtain ⟨_, _, ⟨rfl, rfl⟩, _, _, hadded, rfl, rfl⟩ := h
      exact .inr ⟨hnew, rfl, forM_addEntry_yields_iff.1 hadded⟩
  · rintro ⟨digest, hdigest, h⟩
    refine ⟨digest, s, ⟨hdigest, rfl⟩, s, s, ⟨rfl, rfl⟩, ?_⟩
    rcases h with ⟨n, hfound, rfl, rfl⟩ | ⟨hnew, rfl, hentries⟩
    · rw [hfound]
      exact yields_pure.2 ⟨rfl, rfl⟩
    · rw [hnew]
      simp only [yields_bind, yields_pure, addAcl_yields_iff]
      exact ⟨_, _, ⟨rfl, rfl⟩, (), t, forM_addEntry_yields_iff.2 hentries, rfl, rfl⟩

theorem written_internAcl (drafts : List AclDraft) :
    s.Written (some drafts) ((internAcl drafts).storeAfter s) := by
  by_cases hne : drafts = []
  · rw [hne]
    exact written_self s
  · have hyields {id : Option Int} {t : Store} (h : (internAcl drafts).Yields s id t) :
        s.Written (some drafts) t := by
      obtain ⟨digest, hdigest, ⟨_, _, _, rfl⟩ | ⟨hnew, _, entries, hentries, rfl⟩⟩ :=
        (internAcl_yields_iff hne).1 h
      · exact written_self t
      · exact .interned ⟨digest, entries⟩ rfl ⟨hdigest, hentries⟩ hnew
    unfold internAcl at hyields ⊢
    rw [if_neg (by simpa using hne)] at hyields ⊢
    exact storeAfter_atomically (written_self s) fun _ _ h => hyields (yields_atomically.2 h)

/-- The drafts given by a value, if the value holds any. -/
def givenDrafts? (entries : Json) : Option (List AclDraft) :=
  if entries.isVacant then none else (AclDraft.listOfJson entries).toOption

theorem written_internGiven (entries : Json) :
    s.Written (givenDrafts? entries) ((internGiven entries).storeAfter s) := by
  unfold internGiven givenDrafts?
  split
  · exact written_self s
  · refine storeAfter_lift_bind (written_self s) ?_
    intro drafts hdrafts
    rw [mapError_eq_ok_iff.1 hdrafts]
    exact written_internAcl drafts

/-- The drafts of the access list of a new resource, unless it becomes public. -/
def resourceDrafts? (creator given : Json) : Option (List AclDraft) :=
  match givenDrafts given with
  | .ok (some []) => none
  | .ok given => (creatorDraft creator).toOption.map fun creator => resourceDrafts creator given
  | .error _ => none

theorem written_internResourceAcl (creator given : Json) :
    s.Written (resourceDrafts? creator given) ((internResourceAcl creator given).storeAfter s) := by
  unfold internResourceAcl resourceDrafts?
  refine storeAfter_lift_bind (written_self s) ?_
  intro drafts hdrafts
  rw [mapError_eq_ok_iff.1 hdrafts]
  rcases drafts with _ | ⟨_ | ⟨first, rest⟩⟩
  case some.nil => exact written_self s
  all_goals
    refine storeAfter_lift_bind (written_self s) ?_
    intro draft hdraft
    rw [mapError_eq_ok_iff.1 hdraft]
    exact written_internAcl _

theorem written_createGroup (c : GroupCreation) (stamp : Stamp) :
    s.Written drafts? ((createGroup c stamp).storeAfter s) := by
  unfold createGroup
  rw [storeAfter_get_bind]
  refine storeAfter_lift_bind (written_self s) ?_
  intro group _
  dsimp only
  split
  · exact written_self s
  · split
    · exact written_self s
    · exact .aside (fun k => by cases k <;> rfl) (fun k => by cases k <;> rfl) rfl
        (List.prefix_append _ _)

/-- A member that is added is one more membership, if it changes anything. -/
theorem exists_storeAfter_addMember (group memberType memberId : Json) :
    ∃ more, (addMember group memberType memberId).storeAfter s =
      { s with memberships := s.memberships ++ more } := by
  have hsame : ∃ more, s = { s with memberships := s.memberships ++ more } :=
    ⟨[], by rw [List.append_nil]⟩
  unfold addMember
  split
  · exact hsame
  · dsimp only
    split
    · exact hsame
    · rw [storeAfter_get_bind]
      refine storeAfter_lift_bind
        (P := fun t => ∃ more, t = { s with memberships := s.memberships ++ more }) hsame ?_
      intro text _
      split
      · exact hsame
      · refine storeAfter_lift_bind
          (P := fun t => ∃ more, t = { s with memberships := s.memberships ++ more }) hsame ?_
        intro _ _
        split
        · split
          · exact ⟨_, rfl⟩
          · exact hsame
        · exact hsame

theorem written_addMember (group memberType memberId : Json) :
    s.Written drafts? ((addMember group memberType memberId).storeAfter s) := by
  obtain ⟨more, hmore⟩ := exists_storeAfter_addMember (s := s) group memberType memberId
  rw [hmore]
  exact .aside (fun k => by cases k <;> rfl) (fun k => by cases k <;> rfl) rfl
    (List.prefix_refl _)

theorem written_removeMember (group memberType memberId : Json) :
    s.Written drafts? ((removeMember group memberType memberId).storeAfter s) := by
  unfold removeMember
  refine storeAfter_lift_bind (written_self s) ?_
  intro _ _
  exact .aside (fun k => by cases k <;> rfl) (fun k => by cases k <;> rfl) rfl
    (List.prefix_refl _)

end Action

/-- The writes that callers can ask for, with any arguments. -/
inductive Operation where
  | create {k : Kind} (c : Creation k)
  | update (k : Kind) (id properties actor : Json)
  | delete (k : Kind) (id actor : Json)
  | restore (k : Kind) (id actor : Json)
  | setAcl (k : Kind) (id acl actor : Json)
  | internAcl (entries : Json)
  | internResourceAcl (creator entries : Json)
  | createGroup (c : GroupCreation)
  | addMember (group memberType memberId : Json)
  | removeMember (group memberType memberId : Json)

namespace Operation

/-- The store after an operation, whether it succeeds or fails; the stamp is the id that would be
generated and the time. -/
def apply (s : Store) (stamp : Stamp) : Operation → Store
  | create c => (Action.create c stamp).storeAfter s
  | update k id properties actor => (Action.update k id properties actor stamp).storeAfter s
  | delete k id actor => (Action.delete k id actor stamp).storeAfter s
  | restore k id actor => (Action.restore k id actor stamp).storeAfter s
  | setAcl k id acl actor => (Action.setAcl k id acl actor stamp).storeAfter s
  | internAcl entries => (Action.internGiven entries).storeAfter s
  | internResourceAcl creator entries => (Action.internResourceAcl creator entries).storeAfter s
  | createGroup c => (Action.createGroup c stamp).storeAfter s
  | addMember group type id => (Action.addMember group type id).storeAfter s
  | removeMember group type id => (Action.removeMember group type id).storeAfter s

/-- The drafts that an operation wants kept as one access list, if it wants any. -/
def drafts? : Operation → Option (List AclDraft)
  | internAcl entries => Action.givenDrafts? entries
  | internResourceAcl creator entries => Action.resourceDrafts? creator entries
  | _ => none

/-- The kind whose rows an operation writes to, if it writes to rows. -/
def kind? : Operation → Option Kind
  | @create k _ => some k
  | update k .. | delete k .. | restore k .. | setAcl k .. => some k
  | internAcl _ | internResourceAcl .. | createGroup _ | addMember .. | removeMember .. => none

/-- An operation on rows writes to the rows of its kind only. -/
theorem revised_apply {o : Operation} {k : Kind} (h : o.kind? = some k) (s : Store)
    (stamp : Stamp) : s.Revised k (o.apply s stamp) := by
  cases o <;> cases h
  case create c => exact Action.revised_create c stamp
  case update id properties actor =>
    refine Action.revised_change fun r h => ?_
    by_cases hdel : r.isDeleted = true
    · simp [hdel] at h
    · simpa [Change.Suits] using hdel
  case delete id actor =>
    refine Action.revised_change fun r h => ?_
    by_cases hdel : r.isDeleted = true
    · simp [hdel] at h
    · simpa [Change.Suits] using hdel
  case restore id actor =>
    refine Action.revised_change fun r h => ?_
    by_cases hdel : r.isDeleted = true
    · simpa [Change.Suits] using hdel
    · simp [hdel] at h
  case setAcl id acl actor => exact Action.revised_setAcl id acl actor stamp

/-- Every operation comes to one of the kinds of writes. -/
theorem written_apply (o : Operation) (s : Store) (stamp : Stamp) :
    s.Written o.drafts? (o.apply s stamp) := by
  cases o with
  | create | update | delete | restore | setAcl => exact .revised (revised_apply rfl s stamp)
  | internAcl entries => exact Action.written_internGiven entries
  | internResourceAcl creator entries => exact Action.written_internResourceAcl creator entries
  | createGroup c => exact Action.written_createGroup c stamp
  | addMember group type id => exact Action.written_addMember group type id
  | removeMember group type id => exact Action.written_removeMember group type id

end Operation

namespace Store

/-- The store after operations one after the other, each with its stamp. -/
def after (s : Store) (log : List (Operation × Stamp)) : Store :=
  log.foldl (fun t entry => entry.1.apply t entry.2) s

/-- Some operations lead from the empty store to a store. -/
def Reachable (s : Store) : Prop :=
  ∃ log, empty.after log = s

theorem after_append (s : Store) (log log' : List (Operation × Stamp)) :
    s.after (log ++ log') = (s.after log).after log' :=
  List.foldl_append

/-- What holds of the empty store and is kept by writes holds of every reachable store. -/
theorem Reachable.induction {P : Store → Prop} (hempty : P empty)
    (hwritten : ∀ s t drafts?, P s → s.Written drafts? t → P t) {s : Store} (h : s.Reachable) :
    P s := by
  obtain ⟨log, rfl⟩ := h
  have hafter (t : Store) (ht : P t) : P (t.after log) := by
    induction log generalizing t with
    | nil => exact ht
    | cons entry rest ih => exact ih _ (hwritten t _ _ ht (entry.1.written_apply t entry.2))
  exact hafter empty hempty

end Store

end VersionedGraph
