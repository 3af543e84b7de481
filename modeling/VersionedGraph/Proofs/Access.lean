import VersionedGraph.Proofs.Outcome
import VersionedGraph.Store.Access

/-!
# What readable rows are

A query is kept to readable rows by a clause or by a filter afterwards. Either way a row is let
through just when its access list is one that the caller may read, as a single check would have it.
-/

namespace VersionedGraph

/-- A row with an access list or none is let through, by the clause and by the filter that follows
when there is none. -/
def AclFilter.Lets (a : AclFilter Int) (acl : Option Int) : Prop :=
  a.clause.permits acl = true ∧
    (a.clause.isInline = false → Acl.isReadable a.accessible acl = true)

/-- A caller may read what has an access list or none. -/
def Store.CanRead (s : Store) (caller : Json) (acl : Option Int) : Prop :=
  s.hasPermission caller (.ofInt? acl) .read = .ok true

theorem Atom.sameAs_int {m n : Int} : (Atom.int m).sameAs (.int n) = true ↔ m = n := by
  simp [sameAs, toScalar, Scalar.compare?]

theorem Truth.disj_eq_true_iff {ts : List Truth} : disj ts = some true ↔ some true ∈ ts := by
  induction ts with
  | nil => simp
  | cons t rest ih => rw [disj_cons, or_eq_true, ih, List.mem_cons, eq_comm]

namespace AclClause

variable {ids : List Int} {acl : Option Int}

theorem memberTruth_eq_true_iff :
    Condition.Test.memberTruth (idScalar acl) (ids.map Scalar.integer) = some true ↔
      ∃ id ∈ ids, acl = some id := by
  unfold Condition.Test.memberTruth
  rw [Truth.disj_eq_true_iff, List.map_map, List.mem_map]
  cases acl with
  | none => simp [idScalar, Scalar.compare?]
  | some m =>
    have hequal (n : Int) : ((Scalar.integer m).compare? (.integer n)).map
        Condition.Comparison.equal.allows = some true ↔ some m = some n := by
      simp [Scalar.compare?, Condition.Comparison.allows]
    exact exists_congr fun n => and_congr_right fun _ => hequal n

@[simp] theorem permits_publicOnly :
    (publicOnly : AclClause Int).permits acl = true ↔ acl = none := by
  simp [permits, truth]

@[simp] theorem permits_oneOf :
    (oneOf ids).permits acl = true ↔ acl = none ∨ ∃ id ∈ ids, acl = some id := by
  unfold permits truth
  rw [decide_eq_true_eq, Truth.or_eq_true, memberTruth_eq_true_iff, Option.some.injEq,
    decide_eq_true_eq]

@[simp] theorem permits_deferred : (deferred : AclClause Int).permits acl = true := by
  simp [permits, truth]

end AclClause

namespace Acl

variable {ids : List Int} {acl : Option Int}

theorem isReadable_iff : isReadable ids acl = true ↔ acl = none ∨ ∃ id ∈ ids, acl = some id := by
  cases acl with
  | none => simp [isReadable]
  | some id => simp [isReadable, eq_comm]

/-- The clause is for public rows only if the caller is nobody or reaches nothing, and otherwise it
names what is within reach or leaves it to be looked at afterwards. -/
theorem filterFor_cases {authenticated : Bool} {cap : Json} {a : AclFilter Int}
    (h : filterFor ids authenticated cap = .ok a) :
    (authenticated = false ∨ ids = []) ∧ a = ⟨.publicOnly, []⟩ ∨
      (authenticated = true ∧ ids ≠ []) ∧ (a = ⟨.oneOf ids, ids⟩ ∨ a = ⟨.deferred, ids⟩) := by
  unfold filterFor at h
  cases authenticated with
  | false =>
    cases h
    exact .inl ⟨.inl rfl, rfl⟩
  | true =>
    rw [if_neg (by simp)] at h
    split at h
    · next hempty =>
      cases h
      rw [List.isEmpty_iff.1 hempty]
      exact .inl ⟨.inr rfl, rfl⟩
    · next hsome =>
      refine .inr ⟨⟨rfl, by simpa using hsome⟩, ?_⟩
      rw [bind_eq_ok_iff] at h
      obtain ⟨exceeds, _, h⟩ := h
      cases exceeds with
      | true =>
        cases h
        exact .inr rfl
      | false =>
        cases h
        exact .inl rfl

/-- However few or many access lists are within reach, what is let through is the same. -/
theorem lets_iff_of_filterFor {authenticated : Bool} {cap : Json} {a : AclFilter Int}
    (h : filterFor ids authenticated cap = .ok a) :
    a.Lets acl ↔ acl = none ∨ authenticated = true ∧ ∃ id ∈ ids, acl = some id := by
  rcases filterFor_cases h with ⟨rfl | rfl, rfl⟩ | ⟨⟨rfl, _⟩, rfl | rfl⟩ <;>
    simp [AclFilter.Lets, AclClause.isInline, isReadable_iff]

/-- What is let through is what is readable given what is within reach. -/
theorem lets_iff_isReadable {authenticated : Bool} {cap : Json} {a : AclFilter Int}
    (h : filterFor ids authenticated cap = .ok a) :
    a.Lets acl ↔ isReadable a.accessible acl = true := by
  rcases filterFor_cases h with ⟨_, rfl⟩ | ⟨_, rfl | rfl⟩ <;>
    simp [AclFilter.Lets, AclClause.isInline, isReadable_iff]

/-- Limits on what a clause names matter only in whether it names anything. -/
theorem eq_of_filterFor {authenticated : Bool} {cap cap' : Json} {a b : AclFilter Int}
    (ha : filterFor ids authenticated cap = .ok a) (hb : filterFor ids authenticated cap' = .ok b)
    (h : a.clause.isInline = b.clause.isInline) : a = b := by
  rcases filterFor_cases ha with ⟨hnone, rfl⟩ | ⟨⟨hknown, hsome⟩, ha⟩
  · rcases filterFor_cases hb with ⟨_, rfl⟩ | ⟨⟨hknown, hsome⟩, _⟩
    · rfl
    · simp [hknown, hsome] at hnone
  · rcases filterFor_cases hb with ⟨hnone, _⟩ | ⟨_, hb⟩
    · simp [hknown, hsome] at hnone
    · rcases ha with rfl | rfl <;> rcases hb with rfl | rfl <;> first | rfl | cases h

/-- A limit that is a number is one that lists can be held against. -/
theorem exists_filterFor_eq_ok (ids : List Int) (authenticated : Bool) (cap : Int) :
    ∃ a, filterFor ids authenticated (.int cap) = .ok a := by
  unfold filterFor
  rw [Json.exceeds_int]
  split
  · exact ⟨_, rfl⟩
  · split
    · exact ⟨_, rfl⟩
    · rw [ok_bind]
      split <;> exact ⟨_, rfl⟩

end Acl

namespace Store

section

variable {s : Store} {id : Int} {acl : AccessList}

theorem mem_numberedAcls_iff :
    (id, acl) ∈ s.numberedAcls ↔ s.acl? id = some acl := by
  have hplace (i : Nat) : (acl, i) ∈ s.acls.zipIdx ↔ s.acls[i]? = some acl :=
    List.mk_mem_zipIdx_iff_getElem?
  unfold numberedAcls acl?
  rw [List.mem_map]
  constructor
  · rintro ⟨⟨acl', i⟩, hi, heq⟩
    cases heq
    rw [if_pos (by omega), Int.add_sub_cancel, Int.toNat_natCast, ← hplace]
    exact hi
  · intro h
    split at h
    · refine ⟨(acl, (id - 1).toNat), (hplace _).2 h, ?_⟩
      rw [Prod.mk.injEq]
      exact ⟨by dsimp only; omega, rfl⟩
    · cases h

/-- There are ids for all access lists, as for all rows of a table. -/
def HasIdsForAcls (s : Store) : Prop :=
  (s.acls.length : Int) < wordBound

theorem HasIdsForAcls.fitsWord_of_acl? (h : s.HasIdsForAcls) (hacl : s.acl? id = some acl) :
    fitsWord id = true := by
  unfold acl? at hacl
  split at hacl
  · obtain ⟨hlt, _⟩ := List.getElem?_eq_some_iff.1 hacl
    unfold HasIdsForAcls at h
    simp only [fitsWord, Bool.and_eq_true, decide_eq_true_eq]
    have hbound : 0 ≤ wordBound := by decide
    omega
  · cases hacl

end

variable {s : Store} {caller : Json} {ids : List Int} {acl : Option Int}

/-- A permission is held on what is public and, by somebody in particular, on what is within reach.
What is public is not for everybody to write. -/
theorem exists_hasPermission_eq_ok {permission : Permission}
    (h : s.accessibleIds caller permission = .ok ids)
    (hpermission : permission = .read ∨ caller.isNull = false) (acl : Option Int) :
    ∃ allowed, s.hasPermission caller (.ofInt? acl) permission = .ok allowed ∧
      (allowed = true ↔ acl = none ∨ (!caller.isNull) = true ∧ ∃ id ∈ ids, acl = some id) := by
  unfold hasPermission isAllowed
  cases acl with
  | none =>
    have hpublic : (Json.ofInt? none).isNull = true := rfl
    rw [if_pos hpublic]
    rcases hpermission with rfl | hcaller
    · exact ⟨_, rfl, by simp⟩
    · exact ⟨_, rfl, by simp [hcaller]⟩
  | some id =>
    cases hnull : caller.isNull with
    | true => simp [Json.ofInt?, Json.isNull]
    | false =>
      rw [h]
      simp [Json.ofInt?, Json.isNull, Atom.ofJson, Atom.ofJson?, Atom.sameAs_int]

theorem canRead_iff (h : s.accessibleIds caller .read = .ok ids) :
    s.CanRead caller acl ↔
      acl = none ∨ (!caller.isNull) = true ∧ ∃ id ∈ ids, acl = some id := by
  obtain ⟨allowed, hallowed, hiff⟩ := exists_hasPermission_eq_ok h (.inl rfl) acl
  rw [CanRead, hallowed, Except.ok.injEq, hiff]

/-- What a query lets through is what the caller may read. -/
theorem lets_iff_canRead {cap : Json} {a : AclFilter Int} (h : s.readFilter caller cap = .ok a) :
    a.Lets acl ↔ s.CanRead caller acl := by
  simp only [readFilter, bind_eq_ok_iff, mapError_eq_ok_iff] at h
  obtain ⟨ids, hids, ha⟩ := h
  rw [Acl.lets_iff_of_filterFor ha, canRead_iff hids]

theorem lets_eq_canRead {cap : Json} {a : AclFilter Int} (h : s.readFilter caller cap = .ok a) :
    a.Lets = s.CanRead caller := by
  funext acl
  exact propext (lets_iff_canRead h)

/-- A caller who acts as too many principals cannot be served. -/
theorem accessibleIds_of_many {user : String} (permission : Permission)
    (h : maxPrincipals < (s.principalsOf user).length) :
    s.accessibleIds (.str user) permission = .error .tooManyPrincipals := by
  have hknown : (Atom.ofJson (.str user)).mapError Fault.misuse = .ok (.text user) := rfl
  simp [accessibleIds, hknown, Json.isNull, bind, Except.bind, h, throw, throwThe,
    MonadExceptOf.throw]

theorem readFilter_of_many {user : String} (h : maxPrincipals < (s.principalsOf user).length)
    (cap : Json) : s.readFilter (.str user) cap = .error .tooManyPrincipals := by
  rw [readFilter, accessibleIds_of_many .read h]
  rfl

/-- The limit has no say in whether a caller is served. -/
theorem readFilter_eq_error_iff {cap : Int} {f : Fault} :
    s.readFilter caller (.int cap) = .error f ↔ s.accessibleIds caller .read = .error f := by
  unfold readFilter
  cases s.accessibleIds caller .read with
  | error f' =>
    constructor <;> intro h
    · cases h
      rfl
    · cases h
      rfl
  | ok ids =>
    obtain ⟨a, ha⟩ := Acl.exists_filterFor_eq_ok ids (!caller.isNull) cap
    rw [ok_bind, ha]
    exact ⟨nofun, nofun⟩

/-- A caller who is a text or nobody can be served, unless it acts as too many principals. -/
theorem readFilter_of_text (s : Store) (user : Option String) (cap : Int) :
    (∃ a, s.readFilter (.ofText? user) (.int cap) = .ok a) ∨
      s.readFilter (.ofText? user) (.int cap) = .error .tooManyPrincipals ∧
        ∃ u, user = some u ∧ maxPrincipals < (s.principalsOf u).length := by
  unfold readFilter
  cases user with
  | none =>
    obtain ⟨a, ha⟩ := Acl.exists_filterFor_eq_ok [] (!(Json.ofText? none).isNull) cap
    refine .inl ⟨a, bind_eq_ok_iff.2 ⟨[], accessibleIds_null s .read, ?_⟩⟩
    rw [ha]
    rfl
  | some u =>
    by_cases hfits : (s.principalsOf u).length ≤ maxPrincipals
    · obtain ⟨a, ha⟩ :=
        Acl.exists_filterFor_eq_ok (s.grantedIds u .read) (!(Json.ofText? (some u)).isNull) cap
      refine .inl ⟨a, bind_eq_ok_iff.2 ⟨_, accessibleIds_str .read hfits, ?_⟩⟩
      rw [ha]
      rfl
    · exact .inr ⟨readFilter_of_many (by omega) _, u, rfl, by omega⟩

/-- A caller who is a text or nobody is refused only as too many principals. -/
theorem many_of_readFilter_eq_error {s : Store} {user : Option String} {cap : Int} {f : Fault}
    (h : s.readFilter (.ofText? user) (.int cap) = .error f) :
    f = .tooManyPrincipals ∧ ∃ u, user = some u ∧ maxPrincipals < (s.principalsOf u).length := by
  rcases s.readFilter_of_text user cap with ⟨access, haccess⟩ | ⟨hmany, hu⟩
  · rw [haccess] at h
    cases h
  · rw [hmany] at h
    cases h
    exact ⟨rfl, hu⟩

end Store

end VersionedGraph
