import VersionedGraph.Proofs.Record
import VersionedGraph.Proofs.Write

/-!
# Failed operations

An operation that fails leaves the store as it was. What writes in several steps, such as taking the
mark from a row before the next version is added, or adding an access list before its entries, is
atomic, so it does not matter at which of them it fails; what writes in one step checks all that can
go wrong before it. Nothing is assumed of the store: rows may have been added by hand and need not
form chains.

The one thing that comes after a write is the reading of its answer. A new version is a copy of the
row before it, so properties that are no JSON are found out only then, and the version stays.
-/

namespace VersionedGraph

namespace Action

variable {α β : Type}

/-- The fault that an action ends with in a store, if it fails. -/
def fault? (x : Action α) (s : Store) : Option Fault :=
  match (x.run.run s).run.1 with
  | .ok _ => none
  | .error f => some f

/-- An action leaves a store as it was if it fails in it. -/
def Spares (x : Action α) (s : Store) : Prop :=
  ∀ f, x.fault? s = some f → x.storeAfter s = s

theorem spares_of_storeAfter {x : Action α} {s : Store} (h : x.storeAfter s = s) : x.Spares s :=
  fun _ _ => h

theorem spares_atomically (x : Action α) (s : Store) : (atomically x).Spares s := by
  intro f h
  unfold fault? at h
  unfold storeAfter
  cases hrun : (atomically x).run.run s with
  | mk result left =>
    rw [hrun] at h
    cases result with
    | ok a => cases h
    | error f' => exact atomically_of_error hrun

theorem spares_get_bind {f : Store → Action β} {s : Store} (h : (f s).Spares s) :
    ((get : Action Store) >>= f).Spares s := h

/-- A step that writes nothing may fail or not. -/
theorem spares_lift_bind {x : Except Fault α} {f : α → Action β} {s : Store}
    (h : ∀ a, x = .ok a → (f a).Spares s) : ((liftM x : Action α) >>= f).Spares s := by
  cases x with
  | ok a => exact h a rfl
  | error e => exact fun _ _ => rfl

/-- A write that comes last does not fail. -/
theorem spares_set_bind_pure (s t : Store) (a : α) :
    ((set t : Action Unit) >>= fun _ => (pure a : Action α)).Spares s := by
  intro f h
  cases h

theorem spares_set (s t : Store) : (set t : Action Unit).Spares s := by
  intro f h
  cases h

@[simp] theorem fault?_lift_eq_some_iff {x : Except Fault α} {s : Store} {f : Fault} :
    (liftM x : Action α).fault? s = some f ↔ x = .error f := by
  cases x with
  | ok a => exact ⟨nofun, nofun⟩
  | error e => exact ⟨fun h => congrArg Except.error (Option.some.inj h), by rintro ⟨⟩; rfl⟩

theorem exists_yields_of_fault?_eq_none {x : Action α} {s : Store} (h : x.fault? s = none) :
    ∃ a t, x.Yields s a t := by
  unfold fault? at h
  unfold Yields
  generalize x.run.run s = outcome at h ⊢
  obtain ⟨result, t⟩ := outcome
  cases result with
  | ok a => exact ⟨a, t, rfl⟩
  | error f => cases h

/-- Of two actions one after the other the first fails, or the second where the first ends. -/
theorem fault?_bind_cases {x : Action α} {g : α → Action β} {s : Store} {f : Fault}
    (h : (x >>= g).fault? s = some f) :
    x.fault? s = some f ∨ ∃ a t, x.Yields s a t ∧ (g a).fault? t = some f := by
  unfold fault? at h ⊢
  unfold Yields
  rw [ExceptT.run_bind, StateT.run_bind] at h
  cases hx : x.run.run s with
  | mk result t =>
    rw [hx] at h
    cases result with
    | ok a => exact .inr ⟨a, t, rfl, h⟩
    | error e => exact .inl h

variable {k : Kind} {s t : Store}

/-- The version that a change adds is there and is the latest. -/
theorem latest_of_succeed_yields {current row : Row k} {change : Change} {actor : Json}
    {stamp : Stamp} (h : (succeed current change actor stamp).Yields s row t) :
    row ∈ t.rows k ∧ row.isLatest = true := by
  obtain ⟨next, hnext, hrow, _, _, rfl⟩ := exists_settled_of_succeed_yields h
  obtain ⟨version, _, rfl⟩ := Change.nextVersion_eq_ok_iff.1 hnext
  exact ⟨by simp, hrow.isLatest⟩

theorem latest_of_changeRow {id : Json} {objection? : Row k → Option Fault} {c : Change}
    {actor : Json} {stamp : Stamp} {row : Row k}
    (h : (changeRow k id objection? c actor stamp).Yields s row t) :
    row ∈ t.rows k ∧ row.isLatest = true := by
  obtain ⟨current, _, _, h⟩ := exists_succeed_of_changeRow h
  exact latest_of_succeed_yields h

/-- A row that is left alone is the latest as well. -/
theorem latest_of_setAclRow {id acl actor : Json} {stamp : Stamp} {row : Row k}
    (h : (setAclRow k id acl actor stamp).Yields s row t) :
    row ∈ t.rows k ∧ row.isLatest = true := by
  obtain ⟨current, ⟨_, hlatest⟩, ⟨rfl, rfl⟩ | h⟩ := setAclRow_cases h
  · exact Store.latest?_eq_some hlatest
  · exact latest_of_succeed_yields h

end Action

/-- What a failure leaves: the store as it was, or one in which the latest row that a write ended
with cannot be read. -/
def Store.LeftBy (s : Store) (k : Kind) (f : Fault) (t : Store) : Prop :=
  t = s ∨ ∃ row ∈ t.rows k, row.isLatest = true ∧ row.decode = .error f

namespace Action

variable {k : Kind} {s : Store} {f : Fault}

/-- An atomic write whose answer is the row that it ends with. -/
theorem leftBy_of_read {x : Action (Row k)}
    (hlatest : ∀ row t, x.Yields s row t → row ∈ t.rows k ∧ row.isLatest = true)
    (h : (atomically x >>= fun row => liftM row.decode : Action (Record k)).fault? s = some f) :
    s.LeftBy k f
      ((atomically x >>= fun row => liftM row.decode : Action (Record k)).storeAfter s) := by
  rw [storeAfter_bind_lift]
  rcases fault?_bind_cases h with h | ⟨row, t, h, hdecode⟩
  · exact .inl (spares_atomically x s f h)
  · obtain ⟨hmem, hmarked⟩ := hlatest row t (yields_atomically.1 h)
    rw [storeAfter_of_yields h]
    exact .inr ⟨row, hmem, hmarked, fault?_lift_eq_some_iff.1 hdecode⟩

theorem leftBy_change {id : Json} {objection? : Row k → Option Fault} {c : Change} {actor : Json}
    {stamp : Stamp} (h : (change k id objection? c actor stamp).fault? s = some f) :
    s.LeftBy k f ((change k id objection? c actor stamp).storeAfter s) := by
  rw [change_eq] at h ⊢
  exact leftBy_of_read (fun _ _ => latest_of_changeRow) h

theorem leftBy_setAcl {id acl actor : Json} {stamp : Stamp}
    (h : (setAcl k id acl actor stamp).fault? s = some f) :
    s.LeftBy k f ((setAcl k id acl actor stamp).storeAfter s) := by
  rw [setAcl_eq] at h ⊢
  exact leftBy_of_read (fun _ _ => latest_of_setAclRow) h

theorem spares_internAcl (drafts : List AclDraft) : (internAcl drafts).Spares s := by
  unfold internAcl
  split
  · exact spares_of_storeAfter rfl
  · exact spares_atomically _ s

theorem spares_internGiven (entries : Json) : (internGiven entries).Spares s := by
  unfold internGiven
  split
  · exact spares_of_storeAfter rfl
  · exact spares_lift_bind fun drafts _ => spares_internAcl drafts

theorem spares_internResourceAcl (creator given : Json) :
    (internResourceAcl creator given).Spares s := by
  unfold internResourceAcl
  refine spares_lift_bind fun drafts _ => ?_
  split
  · exact spares_of_storeAfter rfl
  · exact spares_lift_bind fun _ _ => spares_internAcl _

theorem spares_createGroup (c : GroupCreation) (stamp : Stamp) :
    (createGroup c stamp).Spares s := by
  unfold createGroup
  refine spares_get_bind (spares_lift_bind fun group _ => ?_)
  dsimp only
  split
  · exact spares_of_storeAfter rfl
  · split
    · exact spares_of_storeAfter rfl
    · exact spares_set_bind_pure s _ _

theorem spares_addMember (group memberType memberId : Json) :
    (addMember group memberType memberId).Spares s := by
  unfold addMember
  split
  · exact spares_of_storeAfter rfl
  · dsimp only
    split
    · exact spares_of_storeAfter rfl
    · refine spares_get_bind (spares_lift_bind fun text _ => ?_)
      split
      · exact spares_of_storeAfter rfl
      · refine spares_lift_bind fun _ _ => ?_
        split
        · split
          · exact spares_set s _
          · exact spares_of_storeAfter rfl
        · exact spares_of_storeAfter rfl

theorem spares_removeMember (group memberType memberId : Json) :
    (removeMember group memberType memberId).Spares s := by
  unfold removeMember
  exact spares_lift_bind fun _ _ => spares_get_bind (spares_set_bind_pure s _ _)

end Action

namespace Operation

/-- The fault that an operation ends with, if it fails. -/
def fault? (s : Store) (stamp : Stamp) : Operation → Option Fault
  | create c => (Action.create c stamp).fault? s
  | update k id properties actor => (Action.update k id properties actor stamp).fault? s
  | delete k id actor => (Action.delete k id actor stamp).fault? s
  | restore k id actor => (Action.restore k id actor stamp).fault? s
  | setAcl k id acl actor => (Action.setAcl k id acl actor stamp).fault? s
  | internAcl entries => (Action.internGiven entries).fault? s
  | internResourceAcl creator entries => (Action.internResourceAcl creator entries).fault? s
  | createGroup c => (Action.createGroup c stamp).fault? s
  | addMember group type id => (Action.addMember group type id).fault? s
  | removeMember group type id => (Action.removeMember group type id).fault? s

/-- Only an operation whose answer is a row that it reads back leaves anything when it fails. -/
theorem eq_or_leftBy {o : Operation} {s : Store} {stamp : Stamp} {f : Fault}
    (h : o.fault? s stamp = some f) :
    o.apply s stamp = s ∨ ∃ k, o.kind? = some k ∧ s.LeftBy k f (o.apply s stamp) := by
  cases o with
  | create c => exact .inl (Action.spares_atomically _ s f h)
  | update k | delete k | restore k => exact .inr ⟨k, rfl, Action.leftBy_change h⟩
  | setAcl k => exact .inr ⟨k, rfl, Action.leftBy_setAcl h⟩
  | internAcl entries => exact .inl (Action.spares_internGiven entries f h)
  | internResourceAcl creator entries =>
    exact .inl (Action.spares_internResourceAcl creator entries f h)
  | createGroup c => exact .inl (Action.spares_createGroup c stamp f h)
  | addMember group type id => exact .inl (Action.spares_addMember group type id f h)
  | removeMember group type id => exact .inl (Action.spares_removeMember group type id f h)

end Operation

namespace Store

/-- Whatever the store is like, an operation that fails leaves it exactly as it was: rows of both
kinds, access lists and with them the id that the next one gets, groups and memberships. Only the
fault of an answer that cannot be read says nothing about the store. If anything is changed then,
the change is complete, and what cannot be read are the properties of the version that it made. -/
theorem failed_operation_changes_nothing (s : Store) (o : Operation) (stamp : Stamp) (f : Fault)
    (h : o.fault? s stamp = some f) :
    ((∀ e, f ≠ .unreadable e) → o.apply s stamp = s) ∧
      (o.apply s stamp ≠ s → ∃ k, o.kind? = some k ∧
        ∃ row ∈ (o.apply s stamp).rows k, row.isLatest = true ∧ row.decode = .error f) := by
  constructor
  · intro hread
    rcases Operation.eq_or_leftBy h with hsame | ⟨k, _, hsame | ⟨row, _, _, hdecode⟩⟩
    · exact hsame
    · exact hsame
    · obtain ⟨e, he⟩ := Version.exists_of_decode_eq_error hdecode
      exact absurd he (hread e)
  · intro hne
    rcases Operation.eq_or_leftBy h with hsame | ⟨k, hk, hsame | hrow⟩
    · exact absurd hsame hne
    · exact absurd hsame hne
    · exact ⟨k, hk, hrow⟩

/-- Two notes that were added by hand with properties that are no JSON, the first as the last
version that there can be. -/
def handMadeNotes : Store where
  entities :=
    [⟨"a", "note", (), "oops", .integer (2 ^ 63 - 1), none, .integer 1, none, false, true, none⟩,
      ⟨"b", "note", (), "oops", .integer 1, none, .integer 1, none, false, true, none⟩]

/-- Neither note can be deleted: what follows the first would have too large a version, and what
follows the second would get the id of the first. Both times the mark has been taken from the note
by then. With an id of its own a deleted version of the second is added and stays, but the deletion
fails all the same, since that version cannot be read. -/
theorem failed_deletions_of_hand_made_notes :
    let delete (id : String) : Operation := .delete .entity (.str id) .null
    let s := handMadeNotes
    ((delete "a").fault? s ⟨"c", 2⟩ = some (.unbindable .outOfRange) ∧
      (delete "a").apply s ⟨"c", 2⟩ = s) ∧
    ((delete "b").fault? s ⟨"a", 2⟩ = some (.constraint (.unique "entities" "id")) ∧
      (delete "b").apply s ⟨"a", 2⟩ = s) ∧
    ∃ f, (delete "b").fault? s ⟨"c", 2⟩ = some f ∧ (delete "b").apply s ⟨"c", 2⟩ ≠ s ∧
      ∃ row ∈ ((delete "b").apply s ⟨"c", 2⟩).rows .entity, row.isLatest = true ∧
        row.decode = .error f := by
  intro delete s
  have hlast : (delete "a").fault? s ⟨"c", 2⟩ = some (.unbindable .outOfRange) := rfl
  have htaken : (delete "b").fault? s ⟨"a", 2⟩ = some (.constraint (.unique "entities" "id")) :=
    rfl
  refine ⟨⟨hlast, ?_⟩, ⟨htaken, ?_⟩, ?_⟩
  · exact (failed_operation_changes_nothing s _ _ _ hlast).1 nofun
  · exact (failed_operation_changes_nothing s _ _ _ htaken).1 nofun
  · have hfails : ((delete "b").fault? s ⟨"c", 2⟩).isSome = true := by decide +kernel
    have hchanged : (delete "b").apply s ⟨"c", 2⟩ ≠ s := by decide +kernel
    obtain ⟨f, hf⟩ := Option.isSome_iff_exists.1 hfails
    obtain ⟨k, hk, hrow⟩ := (failed_operation_changes_nothing s _ _ f hf).2 hchanged
    cases hk
    exact ⟨f, hf, hchanged, hrow⟩

end Store

end VersionedGraph
