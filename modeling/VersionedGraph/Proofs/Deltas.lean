import VersionedGraph.Proofs.Attachment
import VersionedGraph.Proofs.Resolution

/-!
# What one version changes

A version is a copy of the one before it with a single change (`Row.Made`). So in every reachable
store two versions that come right after one another have their type and their ends in common and
differ in the properties, in whether they are deleted, or in the access list, never in two of these
(`Row.DiffersByOne`); and only what is there before and after has its properties replaced. A
deletion changes nothing else, and neither does its undoing, which therefore brings everything back.
-/

namespace VersionedGraph

variable {k : Kind} {s t : Store}

/-- What a change makes of a row: the version that names the row and has all in common with it that
the change is not about. -/
structure Row.Made (p : Row k) (change : Change) (r : Row k) : Prop where
  typeId : r.typeId = p.typeId
  ends : r.ends = p.ends
  previous : r.previous = some p.id
  changed : match change with
    | .properties text => r.properties = text ∧ r.isDeleted = p.isDeleted ∧ r.acl = p.acl
    | .deletion isDeleted => r.properties = p.properties ∧ r.isDeleted = isDeleted ∧ r.acl = p.acl
    | .acl _ => r.properties = p.properties ∧ r.isDeleted = p.isDeleted

/-- A row differs from another one in no more than one of properties, deletion and access list, and
in the properties only if neither is deleted. -/
structure Row.DiffersByOne (p r : Row k) : Prop where
  typeId : r.typeId = p.typeId
  ends : r.ends = p.ends
  one : (r.properties = p.properties ∧ r.isDeleted = p.isDeleted) ∨
    (r.properties = p.properties ∧ r.acl = p.acl) ∨ (r.isDeleted = p.isDeleted ∧ r.acl = p.acl)
  undeleted : r.properties ≠ p.properties → p.isDeleted = false ∧ r.isDeleted = false

namespace Json

@[simp] theorem not_isVacant_bool (b : Bool) : (!(Json.bool b).isVacant) = b := by
  cases b <;> rfl

@[simp] theorem cell?_ofInt? (n : Option Int) : (Json.ofInt? n).cell?.bind Cell.integer? = n := by
  cases n <;> rfl

end Json

namespace Change

@[simp] theorem apply_typeId (change : Change) (c : Columns k) :
    (change.apply c).typeId = c.typeId := by
  cases change <;> rfl

@[simp] theorem apply_ends (change : Change) (c : Columns k) :
    (change.apply c).ends = c.ends := by
  cases change <;> rfl

end Change

namespace Row

/-- The version that follows a row is made of it by the change. -/
theorem made_of_settled {p r : Row k} {change : Change} {actor : Json} {stamp : Stamp}
    {next : Columns k} (hnext : change.nextVersion p actor stamp = .ok next)
    (hsettled : next.Settled r.listed) : p.Made change r := by
  obtain ⟨version, _, rfl⟩ := Change.nextVersion_eq_ok_iff.1 hnext
  have htype : (change.apply p.columns).typeId.columnText? = some r.typeId := hsettled.typeId
  have hends : k.settleEnds (change.apply p.columns).ends = .ok r.ends := hsettled.ends
  rw [Change.apply_typeId] at htype
  rw [Change.apply_ends] at hends
  refine ⟨?_, ?_, hsettled.previous.trans (Json.columnText?_str p.id), ?_⟩
  · exact Option.some.inj (htype.symm.trans (Json.columnText?_str p.typeId))
  · exact Except.ok.inj (hends.symm.trans (Kind.settleEnds_endValues k p.ends))
  · have htext (text : String) : (Columns.document (.str text)).replaced = text :=
      LooseText.replaced_ofString text
    cases change with
    | properties text =>
      exact ⟨hsettled.properties.trans (htext text),
        hsettled.isDeleted.trans (Json.not_isVacant_bool p.isDeleted),
        hsettled.acl.trans (Json.cell?_ofInt? p.acl)⟩
    | deletion isDeleted =>
      exact ⟨hsettled.properties.trans (htext p.properties),
        hsettled.isDeleted.trans (Json.not_isVacant_bool isDeleted),
        hsettled.acl.trans (Json.cell?_ofInt? p.acl)⟩
    | acl id =>
      exact ⟨hsettled.properties.trans (htext p.properties),
        hsettled.isDeleted.trans (Json.not_isVacant_bool p.isDeleted)⟩

/-- A change that suits a row makes one difference at most. -/
theorem Made.differsByOne {p r : Row k} {change : Change} (h : p.Made change r)
    (hsuits : change.Suits p) : p.DiffersByOne r := by
  obtain ⟨htype, hends, _, hchanged⟩ := h
  cases change with
  | properties text =>
    obtain ⟨_, hdeleted, hacl⟩ := hchanged
    exact ⟨htype, hends, .inr (.inr ⟨hdeleted, hacl⟩), fun _ => ⟨hsuits, hdeleted.trans hsuits⟩⟩
  | deletion isDeleted =>
    obtain ⟨hproperties, _, hacl⟩ := hchanged
    exact ⟨htype, hends, .inr (.inl ⟨hproperties, hacl⟩), fun hne => absurd hproperties hne⟩
  | acl id =>
    obtain ⟨hproperties, hdeleted⟩ := hchanged
    exact ⟨htype, hends, .inl ⟨hproperties, hdeleted⟩, fun hne => absurd hproperties hne⟩

/-- The mark of the latest is not among the differences. -/
theorem DiffersByOne.remains {p p' r r' : Row k} (h : p.DiffersByOne r) (hp : Row.Remains p p')
    (hr : Row.Remains r r') : p'.DiffersByOne r' := by
  rw [hp.same, hr.same]
  exact ⟨h.typeId, h.ends, h.one, h.undeleted⟩

end Row

namespace Store

/-- Rows that come right after one another differ by one change, and first ones are not deleted. -/
structure Stepwise (s : Store) (k : Kind) : Prop where
  follows : ∀ p ∈ s.rows k, ∀ r ∈ s.rows k, r.previous = some p.id → p.DiffersByOne r
  first : ∀ r ∈ s.rows k, r.previous = none → r.isDeleted = false
  unnamed : ∀ r ∈ s.unnamed k, r.isDeleted = false

namespace Stepwise

theorem empty (k : Kind) : Store.empty.Stepwise k := by
  have hrows : Store.empty.rows k = [] := by cases k <;> rfl
  have hunnamed : Store.empty.unnamed k = [] := by cases k <;> rfl
  exact ⟨by simp [hrows], by simp [hrows], by simp [hunnamed]⟩

/-- It is about the rows of one kind only. -/
theorem congr (h : s.Stepwise k) (hrows : t.rows k = s.rows k)
    (hunnamed : t.unnamed k = s.unnamed k) : t.Stepwise k := by
  refine ⟨?_, ?_, ?_⟩
  · rw [hrows]
    exact h.follows
  · rw [hrows]
    exact h.first
  · rw [hunnamed]
    exact h.unnamed

/-- A row that nothing names and that is no more than one change after what it names, or not
deleted if it names nothing, is added to rows of which some lose their mark. -/
theorem addRow (h : s.Stepwise k) (hs : s.Versioned k) {row : Row k} {f : Row k → Row k}
    (hf : ∀ r, Row.Remains r (f r)) (hrows : t.rows k = (s.rows k).map f ++ [row])
    (hunnamed : t.unnamed k = s.unnamed k) (hnew : ∀ r ∈ s.rows k, r.id ≠ row.id)
    (hfirst : row.previous = none → row.isDeleted = false) (hself : row.previous ≠ some row.id)
    (hnext : ∀ p ∈ s.rows k, row.previous = some p.id → p.DiffersByOne row) : t.Stepwise k := by
  have hmem {r : Row k} (hr : r ∈ t.rows k) : (∃ q ∈ s.rows k, Row.Remains q r) ∨ r = row := by
    rw [hrows, List.mem_append, List.mem_map, List.mem_singleton] at hr
    rcases hr with ⟨q, hq, rfl⟩ | hr
    · exact .inl ⟨q, hq, hf q⟩
    · exact .inr hr
  have hprevious {q r : Row k} (hr : Row.Remains q r) : r.previous = q.previous := by
    rw [hr.same]
  refine ⟨?_, ?_, ?_⟩
  · intro p hp r hr hnames
    rcases hmem hr with ⟨r', hr', hrremains⟩ | rfl
    · rw [hprevious hrremains] at hnames
      rcases hmem hp with ⟨p', hp', hpremains⟩ | rfl
      · rw [hpremains.id_eq] at hnames
        exact (h.follows p' hp' r' hr' hnames).remains hpremains hrremains
      · obtain ⟨o, ho, hoid⟩ := hs.exists_of_previous hr' hnames
        exact absurd hoid (hnew o ho)
    · rcases hmem hp with ⟨p', hp', hpremains⟩ | rfl
      · rw [hpremains.id_eq] at hnames
        exact (hnext p' hp' hnames).remains hpremains (.refl r)
      · exact absurd hnames hself
  · intro r hr hnone
    rcases hmem hr with ⟨q, hq, hremains⟩ | rfl
    · rw [hprevious hremains] at hnone
      rw [hremains.same]
      exact h.first q hq hnone
    · exact hfirst hnone
  · rw [hunnamed]
    exact h.unnamed

theorem addListed_first (h : s.Stepwise k) (hs : s.Versioned k) {row : ListedRow k}
    (hnew : row.id.bind (s.row? k) = none) (hprevious : row.previous = none)
    (hdeleted : row.isDeleted = false) : (s.addListed row).Stepwise k := by
  cases hid : row.id with
  | some id =>
    rw [addListed_of_id_eq_some hid]
    rw [hid] at hnew
    have hrows : (s.addRow (row.withId id)).rows k = (s.rows k).map (fun r => r) ++
        [row.withId id] := by simp
    refine h.addRow hs Row.Remains.refl hrows (unnamed_withRows s k k _) (row?_eq_none_iff.1 hnew)
      (fun _ => hdeleted) ?_ ?_
    · exact fun hself => absurd (hprevious.symm.trans hself) nofun
    · exact fun p _ hnames => absurd (hprevious.symm.trans hnames) nofun
  | none =>
    rw [addListed_of_id_eq_none hid]
    refine ⟨?_, ?_, ?_⟩
    · rw [rows_addUnnamed]
      exact h.follows
    · rw [rows_addUnnamed]
      exact h.first
    · intro r hr
      rw [unnamed_addUnnamed] at hr
      rcases List.mem_append.1 hr with hr | hr
      · exact h.unnamed r hr
      · rw [List.mem_singleton.1 hr]
        exact hdeleted

/-- A write to the rows of a kind keeps both kinds stepwise. -/
theorem revised (h : ∀ k, s.Stepwise k) (hs : ∀ k, s.Versioned k) (hr : s.Revised k t)
    (l : Kind) : t.Stepwise l := by
  by_cases hl : l = k
  case neg => exact (h l).congr (hr.elsewhere hl).1 (hr.elsewhere hl).2
  subst hl
  cases hr with
  | kept => exact h l
  | created c stamp row settled new references =>
    exact (h l).addListed_first (hs l) new settled.previous settled.isDeleted
  | changed current change actor stamp next row latest suits follows settled new references =>
    obtain ⟨id, hid⟩ := latest
    have hcurrent := (latest?_eq_some hid).1
    have hnew := row?_eq_none_iff.1 new
    have hmade := Row.made_of_settled follows settled
    refine (h l).addRow (hs l) (Row.Remains.unmark current.id) (by simp) (unnamed_next row) hnew
      ?_ ?_ ?_
    · exact fun hnone => absurd (hmade.previous.symm.trans hnone) nofun
    · intro hself
      exact hnew current hcurrent (Option.some.inj (hmade.previous.symm.trans hself))
    · intro p hp hnames
      have hid : current.id = p.id := Option.some.inj (hmade.previous.symm.trans hnames)
      rw [← (hs l).eq_of_id_eq hcurrent hp hid]
      exact hmade.differsByOne suits

theorem written {drafts? : Option (List AclDraft)} (h : ∀ k, s.Stepwise k)
    (hs : ∀ k, s.Versioned k) (hw : s.Written drafts? t) (l : Kind) : t.Stepwise l := by
  cases hw with
  | aside rows unnamed => exact (h l).congr (rows l) (unnamed l)
  | interned acl => exact (h l).congr (by cases l <;> rfl) (by cases l <;> rfl)
  | revised hr => exact revised h hs hr l

end Stepwise

/-- In every reachable store one version differs from the next by one change. -/
theorem Reachable.stepwise (h : s.Reachable) (k : Kind) : s.Stepwise k := by
  have hboth : ∀ k, s.Versioned k ∧ s.Stepwise k :=
    Reachable.induction (P := fun s => ∀ k, s.Versioned k ∧ s.Stepwise k)
      (fun k => ⟨.empty k, .empty k⟩)
      (fun _ _ _ hs hw k => ⟨Versioned.written (fun k => (hs k).1) hw k,
        Stepwise.written (fun k => (hs k).2) (fun k => (hs k).1) hw k⟩) h
  exact (hboth k).2

end Store

/-! Access lists of rows. -/

theorem fitsWord_of_le {m n : Int} (h : fitsWord n = true) (hpositive : 0 < m) (hle : m ≤ n) :
    fitsWord m = true := by
  have hbound : 0 < wordBound := by decide
  simp only [fitsWord, Bool.and_eq_true, decide_eq_true_eq] at h ⊢
  omega

theorem fitsWord_of_integerOfReal? {x : Binary64} {n : Int}
    (h : Scalar.integerOfReal? x = some n) : fitsWord n = true := by
  unfold Scalar.integerOfReal? at h
  simp only [Option.ite_none_right_eq_some, Option.some.injEq, Bool.and_eq_true,
    decide_eq_true_eq] at h
  obtain ⟨⟨⟨_, hlow⟩, hhigh⟩, rfl⟩ := h
  simp only [fitsWord, Bool.and_eq_true, decide_eq_true_eq]
  omega

/-- An integer that a column keeps of a value that could be handed over has a 64-bit form. -/
theorem Json.fitsWord_of_cell? {v : Json} {n : Int} (hbind : v.bindFault? 1 = none)
    (h : v.cell?.bind Cell.integer? = some n) : fitsWord n = true := by
  have hreal {x : Binary64}
      (hx : ((Cell.ofScalar? (Scalar.ofReal x)).bind Cell.integer?) = some n) :
      fitsWord n = true := by
    unfold Scalar.ofReal at hx
    split at hx
    · next m hm =>
      cases hx
      exact fitsWord_of_integerOfReal? hm
    · cases hx
  cases v with
  | null => cases h
  | bool b =>
    cases b <;> cases h <;> decide
  | int m =>
    cases h
    simpa [bindFault?] using hbind
  | float x =>
    have hcell : (Json.float x).cell? =
        Cell.ofScalar? (if x.isNaN then Scalar.null else .real x).numeric := rfl
    rw [hcell] at h
    split at h
    · cases h
    · exact hreal h
  | str text =>
    have hcell : (Json.str text).cell? = Cell.ofScalar? (Scalar.text text).numeric := rfl
    rw [hcell] at h
    simp only [Scalar.numeric] at h
    split at h
    · cases h
    · split at h
      · next hfits =>
        cases h
        exact (Bool.and_eq_true_iff.1 hfits).2
      · exact hreal h
  | arr items => cases hbind
  | obj fields => cases hbind

namespace Store

/-- What rows name as their access lists are access lists, with ids of 64 bits. -/
def AclsExist (s : Store) : Prop :=
  ∀ k, ∀ r ∈ s.rows k, ∀ id, r.acl = some id → fitsWord id = true ∧ (s.acl? id).isSome = true

/-- The access list of a row that is added was looked up. -/
theorem acl_of_settled {c : Columns k} {row : ListedRow k} (hsettled : c.Settled row)
    (hreferences : s.hasReferences row = true) {id : Int} (hid : row.acl = some id) :
    fitsWord id = true ∧ (s.acl? id).isSome = true := by
  have hbind : c.acl.bindFault? 1 = none :=
    Json.handOver_eq_ok_iff.1 hsettled.handed c.acl (by simp [Columns.parameters])
  refine ⟨Json.fitsWord_of_cell? hbind (hsettled.acl.symm.trans hid), ?_⟩
  simp only [hasReferences, Bool.and_eq_true, hid, Option.all_some] at hreferences
  exact hreferences.1.1

theorem AclsExist.written {drafts? : Option (List AclDraft)} (h : s.AclsExist)
    (hw : s.Written drafts? t) : t.AclsExist := by
  intro k r hr id hid
  have hbefore : fitsWord id = true ∧ (s.acl? id).isSome = true := by
    rcases hw.mem_cases hr with ⟨q, hq, hremains⟩ | ⟨_, hsettled, hreferences⟩
    · rw [hremains.same] at hid
      exact h k q hq id hid
    · exact acl_of_settled hsettled hreferences hid
  obtain ⟨acl, hfound⟩ := Option.isSome_iff_exists.1 hbefore.2
  exact ⟨hbefore.1, Option.isSome_iff_exists.2 ⟨acl, acl?_of_grown hw.acls_grow hfound⟩⟩

theorem Reachable.aclsExist (h : s.Reachable) : s.AclsExist := by
  have hempty : Store.empty.AclsExist := by
    intro k r hr
    cases k <;> cases hr
  exact Reachable.induction hempty (fun _ _ _ hs hw => hs.written hw) h

/-- A stamp and an actor will do for a further version of anything: the id is new, and the time and
the actor can be handed over. -/
structure Admits (s : Store) (k : Kind) (actor : Json) (stamp : Stamp) : Prop where
  new : s.row? k stamp.id = none
  time : fitsWord stamp.time = true
  actor : actor.bindFault? 1 = none

end Store

/-- The version of a number that a deletion or its undoing makes of a row. -/
def Row.switched (r : Row k) (isDeleted : Bool) (number : Int) (actor : Json) (stamp : Stamp) :
    Row k :=
  { r with
    id := stamp.id
    version := .integer number
    previous := some r.id
    createdAt := .integer stamp.time
    createdBy := actor.columnText?
    isDeleted
    isLatest := true }

namespace Action

variable {current : Row k} {actor : Json} {stamp : Stamp}

theorem settled_switched {next : Columns k} {n : Int} {isDeleted : Bool} (hpositive : 0 < n)
    (hversion : current.version = .integer n) (hroom : fitsWord (n + 1) = true)
    (hadmits : s.Admits k actor stamp) (hacl : ∀ id, current.acl = some id → fitsWord id = true)
    (hnext : (Change.deletion isDeleted).nextVersion current actor stamp = .ok next) :
    next.Settled (current.switched isDeleted (n + 1) actor stamp).listed ∧
      next.namesAcl = true := by
  obtain ⟨version, hsum, rfl⟩ := Change.nextVersion_eq_ok_iff.1 hnext
  rw [hversion] at hsum
  cases hsum
  have hcell : ((Json.ofInt? current.acl).cell?.all fun cell => cell.integer?.isSome) = true := by
    cases current.acl <;> rfl
  refine ⟨⟨?_, ?_, ?_, ?_, ?_, ?_, ?_, ?_, ?_, ?_, ?_, ?_, ?_, ?_⟩, hcell⟩
  · rfl
  · have hstr (text : String) : (Json.str text).bindFault? 1 = none := Json.bindFault?_str text 1
    have hends : ∀ v ∈ k.endList (k.endValues current.ends), v.bindFault? 1 = none := by
      cases k with
      | entity => nofun
      | link => simp [Kind.endList, Kind.endValues, hstr]
    have hlist : (Json.ofInt? current.acl).bindFault? 1 = none := by
      cases hid : current.acl with
      | none => rfl
      | some id => exact Json.bindFault?_int (hacl id hid) 1
    rw [Json.handOver_eq_ok_iff]
    intro v hv
    simp only [Columns.parameters, List.mem_append, List.mem_cons, List.not_mem_nil, or_false] at hv
    rcases hv with ((rfl | rfl) | hv) | rfl | rfl | rfl | rfl | rfl | rfl | rfl | rfl
    · exact hstr stamp.id
    · exact hstr current.typeId
    · exact hends v hv
    · exact hstr current.properties
    · exact Json.bindFault?_int hroom 1
    · exact hstr current.id
    · exact Json.bindFault?_int hadmits.time 1
    · exact hadmits.actor
    · rfl
    · rfl
    · exact hlist
  · exact (Json.columnText?_str stamp.id).symm
  · exact Json.columnText?_str current.typeId
  · exact Kind.settleEnds_endValues k current.ends
  · exact (LooseText.replaced_ofString current.properties).symm
  · rfl
  · change (Cell.integer (n + 1)).isPositive = true
    rw [Cell.isPositive_integer, decide_eq_true_eq]
    omega
  · exact (Json.columnText?_str current.id).symm
  · rfl
  · rfl
  · exact (Json.not_isVacant_bool isDeleted).symm
  · rfl
  · exact (Json.cell?_ofInt? current.acl).symm

/-- A deletion or its undoing adds a version. -/
theorem succeed_yields_switched (h : s.Reachable) (hcurrent : current ∈ s.rows k)
    (hadmits : s.Admits k actor stamp) {n : Int} (hpositive : 0 < n)
    (hversion : current.version = .integer n) (hroom : fitsWord (n + 1) = true)
    (isDeleted : Bool) :
    (succeed current (.deletion isDeleted) actor stamp).Yields s
      (current.switched isDeleted (n + 1) actor stamp)
      ((s.clearLatest k current.id).addRow (current.switched isDeleted (n + 1) actor stamp)) := by
  have hacl := h.aclsExist k current hcurrent
  obtain ⟨next, hnext⟩ :
      ∃ next, (Change.deletion isDeleted).nextVersion current actor stamp = .ok next :=
    ⟨_, Change.nextVersion_eq_ok_iff.2 ⟨.int (n + 1), by rw [hversion]; rfl, rfl⟩⟩
  obtain ⟨hsettled, hnames⟩ :=
    settled_switched hpositive hversion hroom hadmits (fun id hid => (hacl id hid).1) hnext
  refine succeed_yields_of_settled hnext hsettled hnames hadmits.new ?_
  rw [Store.hasReferences_clearLatest]
  have hends : ∀ id ∈ k.endIds current.ends, (s.row? .entity id).isSome = true := by
    cases k with
    | entity => nofun
    | link => exact h.endsExist current hcurrent
  simp only [Store.hasReferences, Bool.and_eq_true, List.all_eq_true]
  refine ⟨⟨?_, ?_⟩, hends⟩
  · change current.acl.all _ = true
    cases hid : current.acl with
    | none => rfl
    | some id => exact (hacl id hid).2
  · obtain ⟨r, hr⟩ := Store.exists_row?_of_mem hcurrent
    change (_ || (s.row? k current.id).isSome) = true
    rw [hr, Option.isSome_some, Bool.or_true]

/-- A change that is answered was made to the latest row, and what it made of that row is latest. -/
theorem exists_made_of_change {id : String} {objection? : Row k → Option Fault} {c : Change}
    {record : Record k} (ht : t.Versioned k)
    (h : (change k (.str id) objection? c actor stamp).Yields s record t) :
    ∃ current row : Row k, s.latest? k id = some current ∧ objection? current = none ∧
      current.Made c row ∧ row.decode = .ok record ∧ t.latest? k row.id = some row := by
  rw [change_eq] at h
  simp only [yields_bind, yields_atomically, yields_lift, changeRow_yields_iff] at h
  obtain ⟨row, _, ⟨text, current, htext, hlatest, hobj, hsucceed⟩, hdecode, rfl⟩ := h
  rw [Json.lookupText_str] at htext
  cases htext
  obtain ⟨next, hnext, hsettled, _⟩ := exists_settled_of_succeed_yields hsucceed
  obtain ⟨hmem, hmarked⟩ := latest_of_succeed_yields hsucceed
  exact ⟨current, row, hlatest, hobj, Row.made_of_settled hnext hsettled, hdecode,
    ht.latest?_eq_some_iff.2 ⟨hmem, hmarked, .refl _⟩⟩

theorem change_yields {id : String} {objection? : Row k → Option Fault} {c : Change} {row : Row k}
    {record : Record k} (hlatest : s.latest? k id = some current)
    (hobj : objection? current = none)
    (hsucceed : (succeed current c actor stamp).Yields s row t)
    (hdecode : row.decode = .ok record) :
    (change k (.str id) objection? c actor stamp).Yields s record t := by
  rw [change_eq]
  simp only [yields_bind, yields_atomically, yields_lift, changeRow_yields_iff]
  exact ⟨row, t, ⟨id, current, Json.lookupText_str id, hlatest, hobj, hsucceed⟩, hdecode, rfl⟩

end Action

/-- Two versions have all in common but what every version is given anew. -/
structure Version.Resembles {ι ε π : Type} (v w : Version ι ε π) : Prop where
  typeId : w.typeId = v.typeId
  ends : w.ends = v.ends
  properties : w.properties = v.properties
  isDeleted : w.isDeleted = v.isDeleted
  acl : w.acl = v.acl

/-- What has the properties of a row that can be read can be read. -/
theorem Version.exists_decode_of_properties_eq {ι ε : Type} {v w : Version ι ε String}
    {record : Version ι ε Json} (h : v.decode = .ok record) (hsame : w.properties = v.properties) :
    w.decode = .ok (w.withProperties record.properties) := by
  obtain ⟨properties, hread, rfl⟩ := Version.decode_eq_ok_iff.1 h
  exact Version.decode_eq_ok_iff.2 ⟨properties, hsame ▸ hread, rfl⟩

namespace Store

/-- What a deletion takes away is brought back. -/
theorem Reachable.resembles_of_restore (h : s.Reachable) {id id' : String} {actor actor' : Json}
    {stamp stamp' : Stamp} {gone back : Record k} {t u : Store}
    (hdelete : (Action.delete k (.str id) actor stamp).Yields s gone t)
    (hchain : t.SameChain k gone.id id')
    (hrestore : (Action.restore k (.str id') actor' stamp').Yields t back u) :
    ∃ current record, s.latest? k id = some current ∧ current.decode = .ok record ∧
      record.Resembles back := by
  have ht : t.Reachable :=
    Action.storeAfter_of_yields hdelete ▸ h.apply (.delete k (.str id) actor) stamp
  have hu : u.Reachable :=
    Action.storeAfter_of_yields hrestore ▸ ht.apply (.restore k (.str id') actor') stamp'
  obtain ⟨current, row, hcurrent, hobj, hrow, hgone, hlatest⟩ :=
    Action.exists_made_of_change (ht.versioned k) hdelete
  obtain ⟨row', last, hrow', _, hlast, hback, _⟩ :=
    Action.exists_made_of_change (hu.versioned k) hrestore
  have hid : gone.id = row.id := by
    obtain ⟨_, _, rfl⟩ := Version.decode_eq_ok_iff.1 hgone
    rfl
  rw [hid] at hchain
  rw [← (ht.versioned k).latest?_congr hchain, hlatest] at hrow'
  cases hrow'
  obtain ⟨hproperties, _, hacl⟩ := hrow.changed
  obtain ⟨hproperties', hdeleted, hacl'⟩ := hlast.changed
  obtain ⟨properties, hread, rfl⟩ := Version.decode_eq_ok_iff.1 hback
  rw [hproperties', hproperties] at hread
  have hundeleted : current.isDeleted = false := by simpa using hobj
  refine ⟨current, _, hcurrent, Version.decode_eq_ok_iff.2 ⟨properties, hread, rfl⟩, ?_⟩
  exact ⟨hlast.typeId.trans hrow.typeId, hlast.ends.trans hrow.ends, rfl,
    hdeleted.trans hundeleted.symm, hacl'.trans hacl⟩

/-- What can be read is deleted and brought back, as long as stamps and actors will do. -/
theorem Reachable.exists_restore_yields (h : s.Reachable) {id : String} {current : Row k}
    {record : Record k} (hlatest : s.latest? k id = some current)
    (hundeleted : current.isDeleted = false) (hread : current.decode = .ok record)
    (hroom : ∀ n : Int, current.version = .integer n → fitsWord (n + 2) = true) {actor : Json}
    {stamp : Stamp} (hadmits : s.Admits k actor stamp) :
    ∃ gone t, (Action.delete k (.str id) actor stamp).Yields s gone t ∧
      ∀ id' actor' stamp', t.SameChain k gone.id id' → t.Admits k actor' stamp' →
        ∃ back u, (Action.restore k (.str id') actor' stamp').Yields t back u := by
  have hcurrent := (latest?_eq_some hlatest).1
  obtain ⟨m, hversion⟩ := (h.versioned k).exists_number hcurrent
  have hlast := hroom (m + 1) hversion
  let row := current.switched true (m + 1 + 1) actor stamp
  let t := (s.clearLatest k current.id).addRow row
  have hdecode : row.decode = .ok (row.withProperties record.properties) :=
    Version.exists_decode_of_properties_eq hread rfl
  have hyields : (Action.delete k (.str id) actor stamp).Yields s _ t :=
    Action.change_yields hlatest (by simp [hundeleted])
      (Action.succeed_yields_switched h hcurrent hadmits (by omega) hversion
        (fitsWord_of_le hlast (by omega) (by omega)) true) hdecode
  have ht : t.Reachable :=
    Action.storeAfter_of_yields hyields ▸ h.apply (.delete k (.str id) actor) stamp
  have hrow : row ∈ t.rows k := by simp [t]
  have hlatest' : t.latest? k row.id = some row :=
    (ht.versioned k).latest?_eq_some_iff.2 ⟨hrow, rfl, .refl _⟩
  refine ⟨_, t, hyields, ?_⟩
  intro id' actor' stamp' hchain hadmits'
  have hfound : t.latest? k id' = some row :=
    ((ht.versioned k).latest?_congr hchain).symm.trans hlatest'
  exact ⟨_, _, Action.change_yields hfound rfl
    (Action.succeed_yields_switched ht hrow hadmits' (by omega) rfl
      (fitsWord_of_le hlast (by omega) (by omega)) false)
    (Version.exists_decode_of_properties_eq hdecode rfl)⟩

/-- In every reachable store two versions of which one comes right after the other have type and
ends in common and differ in at most one of properties, deletion and access list; their properties
differ only if neither is deleted; and first versions are not deleted. What is deleted and then
restored, by whatever ids of its chain, is handed out as it would have been before, and both succeed
for what can be read, provided that ids are new and numbers, times and actors can be handed over. -/
theorem Reachable.versions_differ_by_one_change (h : s.Reachable) (k : Kind) :
    (∀ p ∈ s.rows k, ∀ r ∈ s.rows k, r.previous = some p.id → Row.DiffersByOne p r) ∧
    (∀ r ∈ s.rows k, r.version = .integer 1 → r.isDeleted = false) ∧
    (∀ r ∈ s.unnamed k, r.isDeleted = false) ∧
    (∀ (id : String) actor stamp gone t, (Action.delete k (.str id) actor stamp).Yields s gone t →
      ∀ (id' : String) actor' stamp' back u, t.SameChain k gone.id id' →
        (Action.restore k (.str id') actor' stamp').Yields t back u →
        ∃ current record, s.latest? k id = some current ∧ current.decode = .ok record ∧
          record.Resembles back) ∧
    ∀ (id : String) current record, s.latest? k id = some current → current.isDeleted = false →
      current.decode = .ok record →
      (∀ n : Int, current.version = .integer n → fitsWord (n + 2) = true) →
      ∀ actor stamp, s.Admits k actor stamp →
        ∃ gone t, (Action.delete k (.str id) actor stamp).Yields s gone t ∧
          ∀ (id' : String) actor' stamp', t.SameChain k gone.id id' → t.Admits k actor' stamp' →
            ∃ back u, (Action.restore k (.str id') actor' stamp').Yields t back u := by
  refine ⟨(h.stepwise k).follows, ?_, (h.stepwise k).unnamed, ?_, ?_⟩
  · intro r hr hone
    refine (h.stepwise k).first r hr ?_
    rcases (h.versioned k).numbered r hr with ⟨_, hnone⟩ | ⟨_, _, _, n, hn, _, hnext⟩
    · exact hnone
    · rw [hone] at hnext
      have hsum : (1 : Int) = n + 1 := Cell.integer.inj hnext
      omega
  · intro id actor stamp gone t hdelete id' actor' stamp' back u hchain hrestore
    exact h.resembles_of_restore hdelete hchain hrestore
  · intro id current record hlatest hundeleted hread hroom actor stamp hadmits
    exact h.exists_restore_yields hlatest hundeleted hread hroom hadmits

/-- A note with an access list was replaced and is deleted by the id of its first version. It comes
back with what it was replaced by, and with its access list. -/
theorem note_back_after_deletion :
    let entries : Json := .arr [.obj [("principal_type", .str "user"), ("principal_id", .str "u"),
      ("permission", .str "read")]]
    let s := empty.after [(.internAcl entries, ⟨"", 0⟩),
      (.create (k := .entity)
        { typeId := .str "note", ends := (), properties := .obj [("x", .int 1)], acl := .int 1 },
        ⟨"a", 1⟩),
      (.update .entity (.str "a") (.obj [("x", .int 2)]) .null, ⟨"b", 2⟩)]
    ∃ gone t back u, (Action.delete .entity (.str "a") .null ⟨"c", 3⟩).Yields s gone t ∧
      (Action.restore .entity (.str gone.id) .null ⟨"d", 4⟩).Yields t back u ∧
      (back.properties.field? "x").bind Json.int? = some 2 ∧ back.acl = some 1 := by
  intro entries s
  have hs : s.Reachable := ⟨_, rfl⟩
  have hfound : (s.latest? .entity "a").map (fun r => (r.isDeleted, r.version, r.acl)) =
      some (false, .integer 2, some 1) := by decide +kernel
  have hread : ((s.latest? .entity "a").bind fun r => r.decode.toOption).map
      (fun record => (record.properties.field? "x").bind Json.int?) = some (some 2) := by
    decide +kernel
  obtain ⟨_, _, _, hback, hsucceeds⟩ := Reachable.versions_differ_by_one_change hs .entity
  obtain ⟨current, hlatest, hcurrent⟩ := Option.map_eq_some_iff.1 hfound
  simp only [Prod.mk.injEq] at hcurrent
  obtain ⟨hundeleted, hversion, hacl⟩ := hcurrent
  obtain ⟨record, hdecode, hx⟩ := Option.map_eq_some_iff.1 hread
  rw [hlatest, Option.bind_some, toOption_eq_some_iff] at hdecode
  have hroom (n : Int) (hn : current.version = .integer n) : fitsWord (n + 2) = true := by
    rw [hversion] at hn
    cases hn
    decide
  obtain ⟨gone, t, hdelete, hrestores⟩ :=
    hsucceeds "a" current record hlatest hundeleted hdecode hroom .null ⟨"c", 3⟩
      ⟨by decide +kernel, by decide, rfl⟩
  have hnew : t.row? .entity "d" = none := by
    rw [← Action.storeAfter_of_yields hdelete]
    decide +kernel
  obtain ⟨back, u, hrestore⟩ :=
    hrestores gone.id .null ⟨"d", 4⟩ (.refl _) ⟨hnew, by decide, rfl⟩
  obtain ⟨_, _, hsame, hread', hresembles⟩ :=
    hback "a" .null ⟨"c", 3⟩ gone t hdelete gone.id .null ⟨"d", 4⟩ back u (.refl _) hrestore
  rw [hlatest] at hsame
  cases hsame
  rw [hdecode] at hread'
  cases hread'
  refine ⟨gone, t, back, u, hdelete, hrestore, ?_, ?_⟩
  · rw [hresembles.properties]
    exact hx
  · obtain ⟨_, _, rfl⟩ := Version.decode_eq_ok_iff.1 hdecode
    exact hresembles.acl.trans hacl

end Store

end VersionedGraph
